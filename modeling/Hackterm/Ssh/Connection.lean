import Hackterm.Recents.Connections
import Hackterm.Resource.Ownership

/-! # The connection to a server

The globals of `ssh.c` are a descriptor and two pointers. `main` opens a connection,
runs the loop of the window, in which `console_poll` reads, and closes the connection;
`ssh_read` and the close button close it as well. What the resolver, the kernel and
`libssh2` answer is given with each call.
-/

namespace Hackterm

open Resource

/-- What is recorded about the descriptor: the beginning of `ssh_open`, the result of
`socket`, and the argument of `close`. -/
inductive SocketCall where
  | sshOpen
  | socket (result : Int)
  | close (fd : Int)

/-- `sock`, `session` and `channel`. -/
structure SshState where
  sock : Int
  session : Handle
  channel : Handle
  calls : List SocketCall

namespace SshState

/-- The globals at the start of the program. -/
def start : SshState := { sock := 0, session := .null, channel := .null, calls := [] }

/-- A call is recorded. -/
def record (call : SocketCall) (st : SshState) : SshState := { st with calls := st.calls ++ [call] }

end SshState

/-- What the calls of `ssh_open` return. The server gives the results up to and including
authentication, apart from `socket` and `libssh2_session_init`. -/
structure SshOpening where
  server : SshServer
  fingerprintstrin : List UInt8
  socket : Int
  sessionInit : Bool
  channelOpenSession : Bool
  requestPty : Int
  shell : Int

namespace SshOpening

/-- `ssh_open_preshell`. After the session is made the globals are left alone. -/
def preshell (opening : SshOpening) (st : SshState) : Int × SshState :=
  if ¬ opening.server.resolved then (-1, st)
  else
    let st := { st with sock := opening.socket }.record (.socket opening.socket)
    if ¬ opening.server.connected then (-1, st)
    else
      let st := { st with session := st.session.make opening.sessionInit }
      ((sshOpenPreshell opening.server opening.fingerprintstrin).1, st)

/-- `ssh_openshell`. -/
def openshell (opening : SshOpening) (st : SshState) : Int × SshState :=
  let st := { st with channel := st.channel.make opening.channelOpenSession }
  if ¬ opening.channelOpenSession then (-4, st)
  else if opening.requestPty = -6 then (-3, st)
  else if opening.requestPty = -7 then (-4, st)
  else if opening.requestPty = -22 then (-5, st)
  else if opening.requestPty = -37 then (-6, st)
  else if opening.requestPty ≠ 0 then (-3, st)
  else if opening.shell ≠ 0 then (-7, st)
  else (0, st)

end SshOpening

/-- `ssh_open`. -/
def sshOpen (opening : SshOpening) (st : SshState) : Int × SshState :=
  let (r1, st) := opening.preshell (st.record .sshOpen)
  if r1 ≠ 0 then (r1, st) else opening.openshell st

/-- `ssh_close`. -/
def sshClose (st : SshState) : SshState :=
  { st with channel := st.channel.release, session := st.session.release }.record (.close st.sock)

/-- `LIBSSH2_ERROR_EAGAIN`. -/
def eagain : Int := -37

/-- `ssh_read`, with the results of `libssh2_channel_eof` and `libssh2_channel_read`. -/
def sshRead (eof l : Int) (st : SshState) : Int × SshState :=
  if st.channel.held.isNone then (-1, st)
  else if eof ≠ 0 then (-1, st)
  else if l = eagain then (0, st)
  else if l < 0 then (l, sshClose st)
  else (l, st)

/-- `ssh_write`. At its end nothing is returned. -/
def sshWrite (eof : Int) (st : SshState) : Option Int × SshState :=
  if st.channel.held.isNone then (some (-1), st)
  else if eof ≠ 0 then (some (-1), st)
  else (none, st)

/-- `ssh_resize`. At its end nothing is returned. -/
def sshResize (eof : Int) (st : SshState) : Option Int × SshState :=
  if st.channel.held.isNone then (some 1, st)
  else if eof ≠ 0 then (some (-1), st)
  else (none, st)

/-- A call in the loop of the window: a read by `console_poll`, a write or a resize for
an event, or a press of the close button. -/
inductive SshCall where
  | read (eof l : Int)
  | write (eof : Int)
  | resize (eof : Int)
  | close

/-- The loop of the window. It is left when a read returns an error, or when the user
quits, which is the end of the list. -/
def consoleLoop : List SshCall → SshState → SshState
  | [], st => st
  | .read eof l :: calls, st =>
      let (len, st) := sshRead eof l st
      if len < 0 then st else consoleLoop calls st
  | .write eof :: calls, st => consoleLoop calls (sshWrite eof st).2
  | .resize eof :: calls, st => consoleLoop calls (sshResize eof st).2
  | .close :: calls, st => consoleLoop calls (sshClose st)

/-- A connection: how it is opened, and the calls in the loop. -/
structure SshConnection where
  opening : SshOpening
  calls : List SshCall

/-- A connection is opened, and the loop runs. -/
def SshConnection.use (connection : SshConnection) (st : SshState) : SshState :=
  consoleLoop connection.calls (sshOpen connection.opening st).2

/-- The loop of `main`. -/
def connectionLoop (connections : List SshConnection) (st : SshState) : SshState :=
  connections.foldl (fun st connection => sshClose (connection.use st)) st

/-- A run of `main`: the connections that were closed, and the one in use, if any. -/
def sshRun (closed : List SshConnection) (current : Option SshConnection) : SshState :=
  current.elim id SshConnection.use (connectionLoop closed .start)

end Hackterm
