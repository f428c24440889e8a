import Hackterm.CString.Basic
import Mathlib.Data.List.FinRange

/-! # Recent connections and the host key check

The iOS build keeps the hosts it connected to, with the fingerprint of their keys, in
a text file of ten lines (`Hackterm.readallConnections`,
`Hackterm.writeallConnections`). An accepted connection is moved to the front of the
file (`Hackterm.writeConnection`). The fingerprint kept for a host
(`Hackterm.displayServerselectGet`) is compared with the one a server presents
before anything is sent to it (`Hackterm.sshOpenPreshell`).
-/

namespace Hackterm

/-- `RECENTCONNECTIONS`. -/
def recentConnections : Nat := 10

/-- One place of the arrays `hostnames`, `usernames`, `passwords` and
`fingerprintstrs`. An array of strings has room for 99 characters each. -/
structure RecentConnection where
  hostname : List UInt8
  username : List UInt8
  password : List UInt8
  fingerprintstr : List UInt8
deriving DecidableEq

/-- A place whose four strings are cleared. -/
def clearedConnection : RecentConnection := ⟨[], [], [], []⟩

/-- An open file: the bytes still to be read, and whether `getc` has met the end. -/
structure RecentFile where
  rest : List UInt8
  eof : Bool
deriving DecidableEq

/-- `fgetstr`: a string up to a space, a newline or the end of the file. -/
def fgetstr : List UInt8 → List UInt8 × RecentFile
  | [] => ([], ⟨[], true⟩)
  | c :: rest =>
      if c = 0x20 ∨ c = 0x0A then ([], ⟨rest, false⟩)
      else (c :: (fgetstr rest).1, (fgetstr rest).2)

/-- A string of `readall_connections`. One that does not fit its 100 bytes is written
behind them. -/
def readString (recentf : RecentFile) : Option (List UInt8 × RecentFile) :=
  if recentf.eof then some ([], recentf)
  else if 99 < (fgetstr recentf.rest).1.length then none
  else some (fgetstr recentf.rest)

/-- One turn of the loop of `readall_connections`. -/
def readConnection (recentf : RecentFile) : Option (RecentConnection × RecentFile) := do
  let (hostname, recentf) ← readString recentf
  let (username, recentf) ← readString recentf
  let (password, recentf) ← readString recentf
  let (fingerprintstr, recentf) ← readString recentf
  let fingerprintstr := if fingerprintstr = [0x58] then [] else fingerprintstr
  some (⟨hostname, username, password, fingerprintstr⟩, recentf)

/-- The loop of `readall_connections`. -/
def readConnections : Nat → RecentFile → Option (List RecentConnection)
  | 0, _ => some []
  | count + 1, recentf => do
      let (connection, recentf) ← readConnection recentf
      let connections ← readConnections count recentf
      some (connection :: connections)

/-- `readall_connections`. Without a file all strings are empty. -/
def readallConnections : Option (List UInt8) → Option (List RecentConnection)
  | none => some (List.replicate recentConnections clearedConnection)
  | some contents => readConnections recentConnections ⟨contents, false⟩

/-- An empty string is written as `X`. -/
def orX (string : List UInt8) : List UInt8 := if string = [] then [0x58] else string

/-- The line `"%s %s X %s\n"` of a connection. -/
def connectionLine (connection : RecentConnection) : List UInt8 :=
  connection.hostname ++ 0x20 :: (orX connection.username ++ 0x20 :: 0x58 :: 0x20 ::
    (orX connection.fingerprintstr ++ [0x0A]))

/-- `writeall_connections`: the new contents of the file. -/
def writeallConnections (connections : List RecentConnection) : List UInt8 :=
  connections.flatMap connectionLine

/-- The loop that makes room: every place gets what was in the place before it, and the
first keeps what it has. -/
def shiftConnections (connections : List RecentConnection) : List RecentConnection :=
  connections.take 1 ++ connections.take (recentConnections - 1)

/-- `lastitem`. -/
def lastItem (connections : List RecentConnection) : Int :=
  match connections.findIdx? fun connection => connection.hostname == [] with
  | none => recentConnections - 1
  | some n => n - 1

/-- The place other than the first that holds a host, if any. -/
def presentAt (hostname : List UInt8) (connections : List RecentConnection) : Option Nat :=
  ((connections.drop 1).findIdx? fun connection => hostname == connection.hostname).map (· + 1)

/-- The loop that takes out the place `n`. It runs over `i`, but copies the place
behind `n` into `n` in every turn. -/
def closeGap (n : Nat) (connections : List RecentConnection) : List RecentConnection :=
  if n < recentConnections - 1 then
    connections.set n (connections.getD (n + 1) clearedConnection)
  else connections

/-- The strings of the place `lastitem` are cleared. The place below the arrays is not
theirs. -/
def clearLast (lastitem : Int) (connections : List RecentConnection) :
    Option (List RecentConnection) :=
  if lastitem < 0 then none else some (connections.set lastitem.toNat clearedConnection)

/-- What `write_connection` does to the arrays. -/
def updateConnections (connection : RecentConnection) (connections : List RecentConnection) :
    Option (List RecentConnection) := do
  let connections := shiftConnections connections
  let lastitem := lastItem connections
  let connections ←
    match presentAt connection.hostname connections with
    | none => some connections
    | some n => clearLast lastitem (closeGap n (connections.set 0 connection))
  some (connections.set 0 connection)

/-- `write_connection`: the file afterwards. Strings are copied into 100 bytes. -/
def writeConnection (file : Option (List UInt8)) (connection : RecentConnection) :
    Option (Option (List UInt8)) :=
  if connection.hostname = [] then some file
  else if 99 < connection.hostname.length ∨ 99 < connection.username.length ∨
      99 < connection.password.length ∨ 99 < connection.fingerprintstr.length then none
  else do
    let connections ← readallConnections file
    let connections ← updateConnections connection connections
    some (some (writeallConnections connections))

/-- The fingerprint `display_serverselect_get` hands out for the host `h`: the last
place with that host decides. -/
def displayServerselectGet (file : Option (List UInt8)) (h : List UInt8) :
    Option (List UInt8) := do
  let connections ← readallConnections file
  some (connections.foldl
    (fun ofingerprintstr connection =>
      if connection.hostname = h then connection.fingerprintstr else ofingerprintstr) [])

/-- A digit of `%X`. -/
def hexDigit (digit : Fin 16) : UInt8 :=
  if digit < 10 then 0x30 + UInt8.ofNat digit else 0x37 + UInt8.ofNat digit

/-- `%02X`. -/
def hexByte (byte : UInt8) : List UInt8 :=
  [hexDigit (Fin.ofNat 16 (byte.toNat / 16)), hexDigit (Fin.ofNat 16 (byte.toNat % 16))]

/-- `fingerprintstr`: the 20 bytes of the SHA1 hash of the host key, with colons
between them. -/
def fingerprintStr (fingerprint : Fin 20 → UInt8) : List UInt8 :=
  (List.finRange 20).flatMap fun i => hexByte (fingerprint i) ++ if i ≠ 19 then [0x3A] else []

/-- The calls that authenticate. -/
inductive Userauth where
  | list
  | password
  | publickey
deriving DecidableEq

/-- What happens on the way to a server: whether its name is resolved, the connection
made and the handshake finished, the hash of its host key, and what it answers to
each authentication call. -/
structure SshServer where
  resolved : Bool
  connected : Bool
  handshaken : Bool
  hostkeyHash : Fin 20 → UInt8
  listsUserauth : Bool
  acceptsPassword : Bool
  acceptsPublickey : Bool

/-- `ssh_open_preshell`: the value returned, and the authentication calls made. -/
def sshOpenPreshell (server : SshServer) (fingerprintstrin : List UInt8) : Int × List Userauth :=
  if ¬ server.resolved ∨ ¬ server.connected ∨ ¬ server.handshaken then (-1, [])
  else
    let fingerprintstr := fingerprintStr server.hostkeyHash
    if fingerprintstrin ≠ [] ∧ fingerprintstr ≠ fingerprintstrin then (-5, [])
    else if ¬ server.listsUserauth then (-6, [.list])
    else if server.acceptsPassword then (0, [.list, .password])
    else if server.acceptsPublickey then (0, [.list, .password, .publickey])
    else (-1, [.list, .password, .publickey])

end Hackterm
