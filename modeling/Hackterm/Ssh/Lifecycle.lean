import Hackterm.Ssh.Connection

/-! # The life of the socket

Sessions and channels are freed once, whatever happens (`Hackterm.SshState.HandlesSound`).
The descriptor is not treated with that care: `ssh_close` closes `sock` whether or not it
is open. A run closes only what is its own exactly when no connection is closed that
never had a socket, or that has been closed before (`Hackterm.sshRun_disciplined_iff`).
-/

namespace Hackterm

open Resource

/-- What a call does to the descriptors of the connection. -/
def SocketCall.use : SocketCall → Option (Use Int)
  | .sshOpen => some .start
  | .socket result => if 0 ≤ result then some (.acquire result) else none
  | .close fd => some (.release fd)

/-- What has been done to the descriptors of the connection. -/
def SshState.uses (st : SshState) : List (Use Int) := st.calls.filterMap SocketCall.use

/-- The descriptors and objects of `ssh.c` are treated with care: `close` is applied to a
descriptor that is open for the connection, and a descriptor is returned by `socket`
again before it is closed again; no session and no channel is freed twice. -/
structure SshState.Disciplined (st : SshState) : Prop where
  owned : ReleasesOwned st.uses
  once : ∀ fd front middle back, st.calls = front ++ .close fd :: middle ++ .close fd :: back →
    .socket fd ∈ middle
  sessions : st.session.released.Nodup
  channels : st.channel.released.Nodup

/-- `socket` is reached and returns a descriptor. -/
def SshOpening.OpensSocket (opening : SshOpening) : Prop :=
  opening.server.resolved ∧ 0 ≤ opening.socket

/-- The server lets the user in and a channel is opened. -/
def SshOpening.opensChannel (opening : SshOpening) : Bool :=
  (sshOpenPreshell opening.server opening.fingerprintstrin).1 == 0 && opening.channelOpenSession

/-- How often `ssh_close` is called in the loop, with a channel or without one: at a press
of the close button, and at a read that fails. -/
def closings (channel : Bool) : List SshCall → Nat
  | [] => 0
  | .read eof l :: calls =>
      if ¬ channel ∨ eof ≠ 0 then 0
      else if l = eagain ∨ 0 ≤ l then closings channel calls
      else 1
  | .write _ :: calls => closings channel calls
  | .resize _ :: calls => closings channel calls
  | .close :: calls => closings false calls + 1

/-- How often `ssh_close` is called while a connection is in use. -/
def SshConnection.closings (connection : SshConnection) : Nat :=
  Hackterm.closings connection.opening.opensChannel connection.calls

section Handles

/-- No session and no channel has been freed twice. -/
structure SshState.HandlesSound (st : SshState) : Prop where
  session : st.session.Sound
  channel : st.channel.Sound

variable {st : SshState}

theorem start_handlesSound : SshState.start.HandlesSound := ⟨Handle.null_sound, Handle.null_sound⟩

theorem sshClose_handlesSound (sound : st.HandlesSound) : (sshClose st).HandlesSound :=
  ⟨sound.session.release, sound.channel.release⟩

theorem preshell_handlesSound (sound : st.HandlesSound) (opening : SshOpening) :
    (opening.preshell st).2.HandlesSound := by
  unfold SshOpening.preshell
  split
  · exact sound
  · dsimp only
    split
    · exact ⟨sound.session, sound.channel⟩
    · exact ⟨sound.session.make opening.sessionInit, sound.channel⟩

/-- Past `libssh2_channel_open_session` the globals stay. -/
theorem openshell_state (opening : SshOpening) (st : SshState) :
    (opening.openshell st).2 =
      { st with channel := st.channel.make opening.channelOpenSession } := by
  unfold SshOpening.openshell
  dsimp only
  split_ifs
  all_goals rfl

theorem sshOpen_handlesSound (sound : st.HandlesSound) (opening : SshOpening) :
    (sshOpen opening st).2.HandlesSound := by
  have recorded : (st.record .sshOpen).HandlesSound := ⟨sound.session, sound.channel⟩
  have pre := preshell_handlesSound recorded opening
  unfold sshOpen
  dsimp only
  split
  · exact pre
  · rw [openshell_state]
    exact ⟨pre.session, pre.channel.make opening.channelOpenSession⟩

theorem sshRead_handlesSound (sound : st.HandlesSound) (eof l : Int) :
    (sshRead eof l st).2.HandlesSound := by
  unfold sshRead
  split_ifs
  · exact sound
  · exact sound
  · exact sound
  · exact sshClose_handlesSound sound
  · exact sound

/-- `ssh_write` changes no globals. -/
theorem sshWrite_state (eof : Int) (st : SshState) : (sshWrite eof st).2 = st := by
  unfold sshWrite
  split_ifs
  all_goals rfl

/-- `ssh_resize` changes no globals. -/
theorem sshResize_state (eof : Int) (st : SshState) : (sshResize eof st).2 = st := by
  unfold sshResize
  split_ifs
  all_goals rfl

theorem consoleLoop_handlesSound (sound : st.HandlesSound) (calls : List SshCall) :
    (consoleLoop calls st).HandlesSound := by
  induction calls generalizing st with
  | nil => exact sound
  | cons call calls ih =>
      cases call with
      | read eof l =>
          have read := sshRead_handlesSound sound eof l
          rw [consoleLoop]
          dsimp only
          split
          · exact read
          · exact ih read
      | write eof =>
          rw [consoleLoop, sshWrite_state]
          exact ih sound
      | resize eof =>
          rw [consoleLoop, sshResize_state]
          exact ih sound
      | close => exact ih (sshClose_handlesSound sound)

theorem use_handlesSound (sound : st.HandlesSound) (connection : SshConnection) :
    (connection.use st).HandlesSound :=
  consoleLoop_handlesSound (sshOpen_handlesSound sound connection.opening) connection.calls

theorem connectionLoop_handlesSound (sound : st.HandlesSound) (connections : List SshConnection) :
    (connectionLoop connections st).HandlesSound := by
  induction connections generalizing st with
  | nil => exact sound
  | cons connection connections ih => exact ih (sshClose_handlesSound (use_handlesSound sound connection))

/-- **Objects are freed once**, in every run. -/
theorem sshRun_handlesSound (closed : List SshConnection) (current : Option SshConnection) :
    (sshRun closed current).HandlesSound := by
  have sound := connectionLoop_handlesSound start_handlesSound closed
  cases current with
  | none => exact sound
  | some connection => exact use_handlesSound sound connection

end Handles

section Descriptors

variable {st : SshState}

theorem uses_record (call : SocketCall) (st : SshState) :
    (st.record call).uses = st.uses ++ call.use.toList := by
  rw [SshState.uses, SshState.record, List.filterMap_append]
  cases used : call.use with
  | none =>
      rw [List.filterMap_cons_none used]
      rfl
  | some use =>
      rw [List.filterMap_cons_some used]
      rfl

/-- The descriptor that `ssh_open` acquires, if any. -/
def SshOpening.acquires (opening : SshOpening) : List (Use Int) :=
  if opening.server.resolved ∧ 0 ≤ opening.socket then [.acquire opening.socket] else []

/-- The descriptor in `sock` after `ssh_open`. -/
def SshOpening.sock (opening : SshOpening) (before : Int) : Int :=
  if opening.server.resolved then opening.socket else before

theorem preshell_uses (opening : SshOpening) (st : SshState) :
    (opening.preshell st).2.uses = st.uses ++ opening.acquires := by
  unfold SshOpening.preshell SshOpening.acquires
  cases opening.server.resolved with
  | false => exact (List.append_nil _).symm
  | true =>
      have recorded := uses_record (.socket opening.socket) { st with sock := opening.socket }
      have acquired : (SocketCall.socket opening.socket).use.toList =
          if true ∧ 0 ≤ opening.socket then [.acquire opening.socket] else [] := by
        rw [SocketCall.use]
        split_ifs with reached opened opened
        · rfl
        · exact absurd ⟨rfl, reached⟩ opened
        · exact absurd opened.2 reached
        · rfl
      rw [acquired] at recorded
      cases opening.server.connected with
      | false => exact recorded
      | true => exact recorded

theorem preshell_sock (opening : SshOpening) (st : SshState) :
    (opening.preshell st).2.sock = opening.sock st.sock := by
  unfold SshOpening.preshell SshOpening.sock
  cases opening.server.resolved with
  | false => rfl
  | true =>
      cases opening.server.connected with
      | false => rfl
      | true => rfl

theorem preshell_channel (opening : SshOpening) (st : SshState) :
    (opening.preshell st).2.channel = st.channel := by
  unfold SshOpening.preshell
  cases opening.server.resolved with
  | false => rfl
  | true =>
      cases opening.server.connected with
      | false => rfl
      | true => rfl

theorem preshell_value (opening : SshOpening) (st : SshState) :
    (opening.preshell st).1 = (sshOpenPreshell opening.server opening.fingerprintstrin).1 := by
  unfold SshOpening.preshell sshOpenPreshell
  cases opening.server.resolved with
  | false => rfl
  | true =>
      cases opening.server.connected with
      | false => rfl
      | true => rfl

/-- What `ssh_open` does: it begins, may acquire a descriptor, and may open a channel. -/
theorem sshOpen_spec (opening : SshOpening) (st : SshState) :
    (sshOpen opening st).2.uses = st.uses ++ .start :: opening.acquires ∧
      (sshOpen opening st).2.sock = opening.sock st.sock ∧
      (st.channel.held = none →
        (sshOpen opening st).2.channel.held.isSome = opening.opensChannel) := by
  have uses := preshell_uses opening (st.record .sshOpen)
  rw [uses_record, List.append_assoc] at uses
  have sock := preshell_sock opening (st.record .sshOpen)
  have channel := preshell_channel opening (st.record .sshOpen)
  rw [sshOpen, SshOpening.opensChannel, ← preshell_value opening (st.record .sshOpen)]
  dsimp only
  split
  · next refused =>
    refine ⟨uses, sock, fun closed => ?_⟩
    rw [channel, beq_eq_false_iff_ne.mpr refused, Bool.false_and]
    exact Option.isSome_eq_false_iff.mpr (Option.isNone_iff_eq_none.mpr closed)
  · next accepted =>
    rw [openshell_state, beq_iff_eq.mpr (not_not.mp accepted), Bool.true_and]
    exact ⟨uses, sock, fun _ => Handle.make_held _ _⟩

theorem sshClose_uses (st : SshState) : (sshClose st).uses = st.uses ++ [.release st.sock] :=
  uses_record (.close st.sock) { st with channel := st.channel.release, session := st.session.release }

theorem sshClose_channel (st : SshState) : (sshClose st).channel.held = none :=
  st.channel.release_held

theorem sshRead_refused {eof : Int} (refused : ¬ st.channel.held.isSome ∨ eof ≠ 0) (l : Int) :
    sshRead eof l st = (-1, st) := by
  rw [sshRead]
  rcases refused with null | ended
  · rw [Option.not_isSome_iff_eq_none.mp null]
    rfl
  · rw [if_pos ended, ite_self]

/-- A read that is not refused leaves the globals alone, or fails and closes the connection. -/
theorem sshRead_answered {eof : Int} (answered : ¬ (¬ st.channel.held.isSome ∨ eof ≠ 0)) (l : Int) :
    sshRead eof l st =
      if l = eagain then (0, st) else if l < 0 then (l, sshClose st) else (l, st) := by
  rw [not_or, not_not] at answered
  obtain ⟨object, held⟩ := Option.isSome_iff_exists.mp answered.1
  rw [sshRead, held, if_neg answered.2]
  rfl

/-- In the loop `sock` is released as often as `ssh_close` is called. -/
theorem consoleLoop_spec (calls : List SshCall) (st : SshState) :
    (consoleLoop calls st).uses =
        st.uses ++ List.replicate (closings st.channel.held.isSome calls) (.release st.sock) ∧
      (consoleLoop calls st).sock = st.sock := by
  induction calls generalizing st with
  | nil => exact ⟨(List.append_nil _).symm, rfl⟩
  | cons call calls ih =>
      cases call with
      | read eof l =>
          rw [consoleLoop, closings]
          by_cases refused : ¬ st.channel.held.isSome ∨ eof ≠ 0
          · rw [sshRead_refused refused, if_pos refused]
            exact ⟨(List.append_nil _).symm, rfl⟩
          · rw [sshRead_answered refused, if_neg refused]
            by_cases again : l = eagain
            · rw [if_pos again, if_pos (Or.inl again)]
              exact ih st
            · rw [if_neg again]
              by_cases fails : l < 0
              · rw [if_pos fails, if_neg (not_or.mpr ⟨again, not_le.mpr fails⟩)]
                dsimp only
                rw [if_pos fails]
                exact ⟨sshClose_uses st, rfl⟩
              · rw [if_neg fails, if_pos (Or.inr (not_lt.mp fails))]
                dsimp only
                rw [if_neg fails]
                exact ih st
      | write eof =>
          rw [consoleLoop, sshWrite_state]
          exact ih st
      | resize eof =>
          rw [consoleLoop, sshResize_state]
          exact ih st
      | close =>
          obtain ⟨uses, sock⟩ := ih (sshClose st)
          rw [sshClose_uses, sshClose_channel, List.append_assoc] at uses
          exact ⟨uses, sock⟩

/-- A connection begins, may acquire a descriptor, and releases `sock`. -/
theorem use_spec (connection : SshConnection) (closed : st.channel.held = none) :
    (connection.use st).uses = st.uses ++ .start :: (connection.opening.acquires ++
        List.replicate connection.closings (.release (connection.opening.sock st.sock))) ∧
      (connection.use st).sock = connection.opening.sock st.sock := by
  obtain ⟨uses, sock, channel⟩ := sshOpen_spec connection.opening st
  have loop := consoleLoop_spec connection.calls (sshOpen connection.opening st).2
  rw [uses, sock, channel closed, List.append_assoc] at loop
  exact loop

/-- Releasing `sock` is right once after a descriptor was acquired, and never otherwise. -/
theorem releasesOwned_sock (opening : SshOpening) (before : Int) (n : Nat) :
    ReleasesOwned (opening.acquires ++ List.replicate n (.release (opening.sock before))) ↔
      n = 0 ∨ n = 1 ∧ opening.OpensSocket := by
  rw [SshOpening.acquires, SshOpening.sock]
  by_cases opens : opening.server.resolved ∧ 0 ≤ opening.socket
  · rw [if_pos opens, if_pos opens.1]
    refine (releasesOwned_acquire_replicate opening.socket n).trans ?_
    rw [Nat.le_one_iff_eq_zero_or_eq_one]
    exact or_congr_right (and_iff_left opens).symm
  · rw [if_neg opens]
    refine (releasesOwned_replicate _ n).trans ?_
    exact (or_iff_left fun one => opens one.2).symm

theorem closed_releasesOwned (connection : SshConnection) (closed : st.channel.held = none) :
    ReleasesOwned (sshClose (connection.use st)).uses ↔
      ReleasesOwned st.uses ∧ connection.opening.OpensSocket ∧ connection.closings = 0 := by
  obtain ⟨uses, sock⟩ := use_spec connection closed
  rw [sshClose_uses, uses, sock, List.append_assoc, List.cons_append, List.append_assoc,
    ← List.replicate_succ', releasesOwned_append_start, releasesOwned_sock]
  apply and_congr_right'
  constructor
  · rintro (none | ⟨one, opens⟩)
    · cases none
    · exact ⟨opens, Nat.succ.inj one⟩
  · rintro ⟨opens, none⟩
    exact Or.inr ⟨congrArg Nat.succ none, opens⟩

theorem used_releasesOwned (connection : SshConnection) (closed : st.channel.held = none) :
    ReleasesOwned (connection.use st).uses ↔
      ReleasesOwned st.uses ∧
        (connection.closings = 0 ∨ connection.closings = 1 ∧ connection.opening.OpensSocket) := by
  rw [(use_spec connection closed).1, releasesOwned_append_start, releasesOwned_sock]

theorem start_channel : SshState.start.channel.held = none := rfl

theorem start_releasesOwned : ReleasesOwned SshState.start.uses := rfl

theorem connectionLoop_releasesOwned (connections : List SshConnection)
    (closed : st.channel.held = none) :
    (connectionLoop connections st).channel.held = none ∧
      (ReleasesOwned (connectionLoop connections st).uses ↔
        ReleasesOwned st.uses ∧
          ∀ connection ∈ connections, connection.opening.OpensSocket ∧ connection.closings = 0) := by
  induction connections generalizing st with
  | nil => exact ⟨closed, (and_iff_left (List.forall_mem_nil _)).symm⟩
  | cons connection connections ih =>
      obtain ⟨held, owned⟩ := ih (sshClose_channel (connection.use st))
      refine ⟨held, owned.trans ?_⟩
      rw [closed_releasesOwned connection closed, List.forall_mem_cons, and_assoc]

end Descriptors

/-- Between two closings of a descriptor it is returned by `socket`. -/
theorem SshState.closed_once {st : SshState} (owned : ReleasesOwned st.uses) {fd : Int}
    {front middle back : List SocketCall}
    (calls : st.calls = front ++ .close fd :: middle ++ .close fd :: back) :
    .socket fd ∈ middle := by
  rw [SshState.uses, calls] at owned
  simp only [List.filterMap_append, List.filterMap_cons, SocketCall.use] at owned
  obtain ⟨call, member, acquired⟩ := List.mem_filterMap.mp (released_once owned)
  cases call with
  | sshOpen => cases acquired
  | socket result =>
      obtain ⟨-, same⟩ := Option.ite_none_right_eq_some.mp acquired
      cases same
      exact member
  | close other => cases acquired

/-- **The life of the socket.** A run treats its descriptors and objects with care exactly
when `socket` returned a descriptor for every connection that `main` closed, and
`ssh_close` was not called before on it; on the connection in use, `ssh_close` may have
been called once if it has a descriptor. -/
theorem sshRun_disciplined_iff (closed : List SshConnection) (current : Option SshConnection) :
    (sshRun closed current).Disciplined ↔
      (∀ connection ∈ closed, connection.opening.OpensSocket ∧ connection.closings = 0) ∧
        ∀ connection, current = some connection →
          connection.closings = 0 ∨ connection.closings = 1 ∧ connection.opening.OpensSocket := by
  obtain ⟨held, loop⟩ := connectionLoop_releasesOwned closed start_channel
  have owned : ReleasesOwned (sshRun closed current).uses ↔
      (∀ connection ∈ closed, connection.opening.OpensSocket ∧ connection.closings = 0) ∧
        ∀ connection, current = some connection →
          connection.closings = 0 ∨ connection.closings = 1 ∧ connection.opening.OpensSocket := by
    rw [and_iff_right start_releasesOwned] at loop
    cases current with
    | none =>
        refine loop.trans (and_iff_left ?_).symm
        intro connection absent
        cases absent
    | some connection =>
        refine (used_releasesOwned connection held).trans (and_congr loop ?_)
        constructor
        · intro once _ same
          cases same
          exact once
        · exact fun once => once connection rfl
  constructor
  · exact fun disciplined => owned.mp disciplined.owned
  · intro condition
    have sound := sshRun_handlesSound closed current
    exact ⟨owned.mpr condition,
      fun _ _ _ _ calls => SshState.closed_once (owned.mpr condition) calls,
      sound.session.once, sound.channel.once⟩

/-- A connection on which everything succeeds until a read finds the server gone. -/
def droppedConnection : SshConnection where
  opening :=
    { server :=
        { resolved := true, connected := true, handshaken := true, hostkeyHash := fun _ => 0
          listsUserauth := true, acceptsPassword := true, acceptsPublickey := false }
      fingerprintstrin := [], socket := 3, sessionInit := true, channelOpenSession := true
      requestPty := 0, shell := 0 }
  calls := [.resize 0, .read 0 eagain, .write 0, .read 0 (-13)]

/-- `ssh_read` closes the descriptor of a connection that was lost, and `main` closes it
again. -/
theorem sshRun_closes_twice : ¬ (sshRun [droppedConnection] none).Disciplined := by
  intro disciplined
  exact absurd disciplined.owned (by decide)

end Hackterm
