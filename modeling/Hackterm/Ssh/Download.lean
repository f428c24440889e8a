import Hackterm.Ssh.Connection

/-! # Downloading a key

`ssh_getfile` asks for what is missing of a file, at most 1024 bytes at a time, until it
has as many as the server announced. An error leaves the function past the calls that
free the channel and close the file; a peer that has closed the channel too early is
asked again and again. So a download ends, returns zero for a complete file only and
gives the channel back exactly when the server refuses the file or sends all of it
(`Hackterm.sshGetfile_iff`).
-/

namespace Hackterm

open Resource

/-- The other side of a channel that blocks: the result of `libssh2_channel_read`, by the
number of the call and the amount asked for, and the bytes that are in `mem` after it. -/
structure ChannelPeer where
  rc : Nat → Int → Int
  mem : Nat → Int → List UInt8
  rc_le : ∀ call amount, 0 < amount → rc call amount ≤ amount
  mem_length : ∀ call amount, (mem call amount).length = 1024
  closed : ∀ call amount, rc call amount = 0 → ∀ later, call < later → ∀ other, rc later other = 0

/-- The variables of the loop of `ssh_getfile`: the bytes counted, the number of reads so
far and the contents of the local file. -/
structure Download where
  got : Int
  calls : Nat
  file : List UInt8

/-- `amount`, for `st_size` bytes of which `got` are there. -/
def downloadAmount (st_size : Nat) (got : Int) : Int :=
  if st_size - got < 1024 then st_size - got else 1024

/-- The loop of `ssh_getfile`: whether it is run to its end, rather than left by
`return -2`, and the variables then. The fuel bounds the number of its turns. -/
def getfileLoop (peer : ChannelPeer) (st_size : Nat) : Nat → Download → Option (Bool × Download)
  | 0, _ => none
  | fuel + 1, d =>
      if d.got < st_size then
        let amount := downloadAmount st_size d.got
        let rc := peer.rc d.calls amount
        if 0 < rc then
          getfileLoop peer st_size fuel
            ⟨d.got + rc, d.calls + 1, d.file ++ (peer.mem d.calls amount).take rc.toNat⟩
        else if rc < 0 then some (false, { d with calls := d.calls + 1 })
        else getfileLoop peer st_size fuel { d with calls := d.calls + 1 }
      else some (true, d)

/-- What `ssh_getfile` leaves: its value, the globals, and the contents of the local file
if it was opened. -/
structure Downloaded where
  value : Int
  st : SshState
  file : Option (List UInt8)

/-- `ssh_getfile`, where `libssh2_scp_recv` returns no channel, or one for a file of the
given size. The local file can be opened and written. -/
def sshGetfile (peer : ChannelPeer) (scp_recv : Option Nat) (fuel : Nat) (st : SshState) :
    Option Downloaded :=
  let st := { st with channel := st.channel.make scp_recv.isSome }
  match scp_recv with
  | none => some ⟨-1, st, none⟩
  | some st_size =>
      (getfileLoop peer st_size fuel ⟨0, 0, []⟩).map fun left =>
        if left.1 then ⟨0, { st with channel := st.channel.release }, some left.2.file⟩
        else ⟨-2, st, some left.2.file⟩

/-- After so many reads that all delivered something, the bytes that have come. -/
inductive ChannelPeer.Delivers (peer : ChannelPeer) (st_size : Nat) : Nat → List UInt8 → Prop
  | start : peer.Delivers st_size 0 []
  | more {calls : Nat} {bytes : List UInt8} (amount rc : Int)
      (delivered : peer.Delivers st_size calls bytes) (missing : bytes.length < st_size)
      (asked : amount = downloadAmount st_size bytes.length) (read : peer.rc calls amount = rc)
      (positive : 0 < rc) :
      peer.Delivers st_size (calls + 1) (bytes ++ (peer.mem calls amount).take rc.toNat)

/-- All of a file has come, in so many reads. -/
structure ChannelPeer.DeliversAll (peer : ChannelPeer) (st_size calls : Nat)
    (bytes : List UInt8) : Prop where
  delivers : peer.Delivers st_size calls bytes
  complete : bytes.length = st_size

/-- What a download is meant to do: it ends; it returns zero exactly if the file came as a
whole, and then the local file has its bytes; and on every return the channel it
opened has been freed, and none is held. -/
structure DownloadExact (peer : ChannelPeer) (scp_recv : Option Nat) (st : SshState) : Prop where
  terminates : ∃ fuel, (sshGetfile peer scp_recv fuel st).isSome
  value : ∀ fuel left, sshGetfile peer scp_recv fuel st = some left →
    (left.value = 0 ↔
      ∃ st_size calls bytes, scp_recv = some st_size ∧ peer.DeliversAll st_size calls bytes)
  file : ∀ fuel left, sshGetfile peer scp_recv fuel st = some left → left.value = 0 →
    ∃ st_size calls bytes, scp_recv = some st_size ∧ peer.DeliversAll st_size calls bytes ∧
      left.file = some bytes
  freed : ∀ fuel left, sshGetfile peer scp_recv fuel st = some left →
    left.st.channel.held = none ∧
      (scp_recv.isSome → st.channel.made ∈ left.st.channel.released)

theorem downloadAmount_bounds {st_size got : Nat} (missing : got < st_size) :
    0 < downloadAmount st_size got ∧ downloadAmount st_size got ≤ 1024 ∧
      downloadAmount st_size got ≤ st_size - got := by
  unfold downloadAmount
  split_ifs
  all_goals omega

namespace ChannelPeer

variable {peer : ChannelPeer} {st_size : Nat}

/-- A read that delivers something delivers as many bytes as it returns. -/
theorem length_take_mem {call : Nat} {amount : Int} (positive : 0 < amount)
    (small : amount ≤ 1024) (delivered : 0 < peer.rc call amount) :
    (((peer.mem call amount).take (peer.rc call amount).toNat).length : Int) =
      peer.rc call amount := by
  have le := peer.rc_le call amount positive
  rw [List.length_take, peer.mem_length]
  omega

/-- The bytes that have come are counted, and are no more than the file has. -/
theorem Delivers.length_more {calls : Nat} {bytes : List UInt8} {amount : Int}
    (missing : bytes.length < st_size) (asked : amount = downloadAmount st_size bytes.length)
    (positive : 0 < peer.rc calls amount) :
    ((bytes ++ (peer.mem calls amount).take (peer.rc calls amount).toNat).length : Int) =
      bytes.length + peer.rc calls amount := by
  obtain ⟨something, small, -⟩ := downloadAmount_bounds missing
  rw [List.length_append, Int.natCast_add]
  rw [asked] at positive ⊢
  rw [length_take_mem something small positive]

end ChannelPeer

section Loop

variable {peer : ChannelPeer} {st_size : Nat}

theorem getfileLoop_more (fuel : Nat) {d : Download} (missing : d.got < st_size)
    (positive : 0 < peer.rc d.calls (downloadAmount st_size d.got)) :
    getfileLoop peer st_size (fuel + 1) d =
      getfileLoop peer st_size fuel
        ⟨d.got + peer.rc d.calls (downloadAmount st_size d.got), d.calls + 1,
          d.file ++ (peer.mem d.calls (downloadAmount st_size d.got)).take
            (peer.rc d.calls (downloadAmount st_size d.got)).toNat⟩ := by
  rw [getfileLoop, if_pos missing]
  exact if_pos positive

/-- What has come is counted and in the file. -/
theorem getfileLoop_delivers {calls : Nat} {bytes : List UInt8}
    (delivers : peer.Delivers st_size calls bytes) (fuel : Nat) :
    getfileLoop peer st_size (fuel + calls) ⟨0, 0, []⟩ =
      getfileLoop peer st_size fuel ⟨bytes.length, calls, bytes⟩ := by
  induction delivers generalizing fuel with
  | start => rfl
  | @more calls bytes amount rc delivered missing asked read positive ih =>
      subst read
      have counted := ChannelPeer.Delivers.length_more missing asked positive
      have incomplete : (bytes.length : Int) < st_size := Int.ofNat_lt.mpr missing
      subst asked
      rw [Nat.add_comm calls 1, ← Nat.add_assoc, ih,
        getfileLoop_more fuel (d := ⟨bytes.length, calls, bytes⟩) incomplete positive, ← counted,
        Nat.add_comm 1 calls]

/-- More fuel changes nothing. -/
theorem getfileLoop_mono {fuel : Nat} {d : Download} {left : Bool × Download}
    (ends : getfileLoop peer st_size fuel d = some left) (more : Nat) :
    getfileLoop peer st_size (fuel + more) d = some left := by
  induction fuel generalizing d with
  | zero => cases ends
  | succ fuel ih =>
      rw [Nat.add_right_comm]
      unfold getfileLoop at ends ⊢
      dsimp only at ends ⊢
      split_ifs at ends ⊢ with missing positive negative
      · exact ih ends
      · exact ends
      · exact ih ends
      · exact ends

/-- A channel that is closed too early is read for ever. -/
theorem getfileLoop_closed (fuel : Nat) {d : Download} (missing : d.got < st_size)
    (closed : ∀ later, d.calls ≤ later → ∀ amount, peer.rc later amount = 0) :
    getfileLoop peer st_size fuel d = none := by
  induction fuel generalizing d with
  | zero => rfl
  | succ fuel ih =>
      rw [getfileLoop, if_pos missing]
      dsimp only
      rw [closed d.calls (Nat.le_refl _), if_neg (Int.lt_irrefl 0), if_neg (Int.lt_irrefl 0)]
      apply @ih { d with calls := d.calls + 1 } missing
      intro later after
      exact closed later (Nat.le_of_succ_le after)

/-- A loop that is run to its end has the whole file. -/
theorem getfileLoop_end {fuel calls : Nat} {bytes : List UInt8} {left : Download}
    (delivers : peer.Delivers st_size calls bytes) (within : bytes.length ≤ st_size)
    (ends : getfileLoop peer st_size fuel ⟨bytes.length, calls, bytes⟩ = some (true, left)) :
    peer.DeliversAll st_size left.calls left.file := by
  induction fuel generalizing calls bytes with
  | zero => cases ends
  | succ fuel ih =>
      by_cases missing : bytes.length < st_size
      · obtain ⟨something, small, rest⟩ := downloadAmount_bounds missing
        have incomplete : (bytes.length : Int) < st_size := Int.ofNat_lt.mpr missing
        obtain negative | zero | positive :=
          Int.lt_trichotomy (peer.rc calls (downloadAmount st_size bytes.length)) 0
        · rw [getfileLoop, if_pos incomplete] at ends
          dsimp only at ends
          rw [if_neg (Int.not_lt.mpr (Int.le_of_lt negative)), if_pos negative] at ends
          cases ends
        · rw [getfileLoop, if_pos incomplete] at ends
          dsimp only at ends
          rw [zero, if_neg (Int.lt_irrefl 0), if_neg (Int.lt_irrefl 0)] at ends
          rw [getfileLoop_closed fuel incomplete] at ends
          · cases ends
          · intro later after amount
            exact peer.closed calls _ zero later after amount
        · have counted := ChannelPeer.Delivers.length_more missing rfl positive
          have le := peer.rc_le calls _ something
          rw [getfileLoop_more fuel (d := ⟨bytes.length, calls, bytes⟩) incomplete positive,
            ← counted] at ends
          apply ih (.more _ _ delivers missing rfl rfl positive) _ ends
          omega
      · have complete : ¬ (bytes.length : Int) < st_size := by omega
        rw [getfileLoop, if_neg complete, Option.some.injEq, Prod.mk.injEq] at ends
        obtain ⟨-, rfl⟩ := ends
        exact ⟨delivers, Nat.le_antisymm within (Nat.le_of_not_lt missing)⟩

/-- With the whole file the loop ends, and has it. -/
theorem getfileLoop_deliversAll {calls : Nat} {bytes : List UInt8}
    (all : peer.DeliversAll st_size calls bytes) :
    getfileLoop peer st_size (1 + calls) ⟨0, 0, []⟩ = some (true, ⟨st_size, calls, bytes⟩) := by
  rw [getfileLoop_delivers all.delivers, getfileLoop, all.complete]
  exact if_neg (Int.lt_irrefl _)

/-- Whenever the loop ends, it ends the same way. -/
theorem getfileLoop_unique {first second : Nat} {d : Download} {left other : Bool × Download}
    (ends : getfileLoop peer st_size first d = some left)
    (ends' : getfileLoop peer st_size second d = some other) : left = other := by
  have longer := getfileLoop_mono ends second
  rw [Nat.add_comm, getfileLoop_mono ends' first] at longer
  exact (Option.some.inj longer).symm

end Loop

section Getfile

variable {peer : ChannelPeer} {st : SshState}

/-- A file the server refuses is not asked for. -/
theorem sshGetfile_refused (fuel : Nat) :
    sshGetfile peer none fuel st = some ⟨-1, { st with channel := st.channel.make false }, none⟩ :=
  rfl

/-- The ways `ssh_getfile` ends with a file the server offers. -/
theorem sshGetfile_ends {st_size fuel : Nat} {left : Downloaded}
    (ends : sshGetfile peer (some st_size) fuel st = some left) :
    (∃ d, getfileLoop peer st_size fuel ⟨0, 0, []⟩ = some (true, d) ∧
        left = ⟨0, { st with channel := (st.channel.make true).release }, some d.file⟩) ∨
      ∃ d, getfileLoop peer st_size fuel ⟨0, 0, []⟩ = some (false, d) ∧
        left = ⟨-2, { st with channel := st.channel.make true }, some d.file⟩ := by
  obtain ⟨⟨whole, d⟩, loop, rfl⟩ := Option.map_eq_some_iff.mp ends
  cases whole with
  | true => exact Or.inl ⟨d, loop, rfl⟩
  | false => exact Or.inr ⟨d, loop, rfl⟩

/-- A download of the whole file. -/
theorem sshGetfile_deliversAll {st_size calls : Nat} {bytes : List UInt8}
    (all : peer.DeliversAll st_size calls bytes) {fuel : Nat} {left : Downloaded}
    (ends : sshGetfile peer (some st_size) fuel st = some left) :
    left = ⟨0, { st with channel := (st.channel.make true).release }, some bytes⟩ := by
  obtain ⟨d, loop, rfl⟩ | ⟨d, loop, -⟩ := sshGetfile_ends ends
  · have same := getfileLoop_unique loop (getfileLoop_deliversAll all)
    rw [(Prod.mk.inj same).2]
  · have same := getfileLoop_unique loop (getfileLoop_deliversAll all)
    cases (Prod.mk.inj same).1

theorem downloadExact_refused : DownloadExact peer none st where
  terminates := ⟨0, rfl⟩
  value fuel left ends := by
    rw [sshGetfile_refused, Option.some.injEq] at ends
    subst ends
    have notZero : (-1 : Int) ≠ 0 := by decide
    refine iff_of_false notZero ?_
    rintro ⟨st_size, calls, bytes, offered, -⟩
    cases offered
  file fuel left ends zero := by
    rw [sshGetfile_refused, Option.some.injEq] at ends
    subst ends
    have notZero : (-1 : Int) ≠ 0 := by decide
    exact absurd zero notZero
  freed fuel left ends := by
    rw [sshGetfile_refused, Option.some.injEq] at ends
    subst ends
    exact ⟨rfl, fun offered => absurd offered Bool.false_ne_true⟩

theorem downloadExact_deliversAll {st_size calls : Nat} {bytes : List UInt8}
    (all : peer.DeliversAll st_size calls bytes) : DownloadExact peer (some st_size) st where
  terminates := by
    refine ⟨1 + calls, ?_⟩
    unfold sshGetfile
    dsimp only
    rw [getfileLoop_deliversAll all]
    rfl
  value fuel left ends := by
    rw [sshGetfile_deliversAll all ends]
    exact iff_of_true rfl ⟨st_size, calls, bytes, rfl, all⟩
  file fuel left ends _ := by
    rw [sshGetfile_deliversAll all ends]
    exact ⟨st_size, calls, bytes, rfl, all, rfl⟩
  freed fuel left ends := by
    rw [sshGetfile_deliversAll all ends]
    exact ⟨Handle.release_held _, fun _ => List.mem_append_right _ (List.mem_singleton_self _)⟩

/-- A download that gives its channel back had the whole file. -/
theorem DownloadExact.deliversAll {st_size : Nat} (exact : DownloadExact peer (some st_size) st) :
    ∃ calls bytes, peer.DeliversAll st_size calls bytes := by
  obtain ⟨fuel, terminates⟩ := exact.terminates
  obtain ⟨left, ends⟩ := Option.isSome_iff_exists.mp terminates
  obtain ⟨d, loop, -⟩ | ⟨d, -, rfl⟩ := sshGetfile_ends ends
  · exact ⟨d.calls, d.file, getfileLoop_end .start (Nat.zero_le _) loop⟩
  · cases (exact.freed fuel _ ends).1

/-- **Downloads.** `ssh_getfile` ends, tells whether the file came as a whole and gives its
channel back exactly when the server refuses the file or sends all of it. -/
theorem sshGetfile_iff (peer : ChannelPeer) (scp_recv : Option Nat) (st : SshState) :
    DownloadExact peer scp_recv st ↔
      ∀ st_size, scp_recv = some st_size →
        ∃ calls bytes, peer.DeliversAll st_size calls bytes := by
  cases scp_recv with
  | none => exact iff_of_true downloadExact_refused fun st_size offered => by cases offered
  | some st_size =>
      constructor
      · rintro exact _ ⟨⟩
        exact exact.deliversAll
      · intro offered
        obtain ⟨calls, bytes, all⟩ := offered st_size rfl
        exact downloadExact_deliversAll all

end Getfile

/-- A peer whose reads all fail. -/
def failingPeer : ChannelPeer where
  rc _ _ := -1
  mem _ _ := List.replicate 1024 0
  rc_le _ _ positive := by omega
  mem_length _ _ := List.length_replicate
  closed _ _ zero := absurd zero (by decide)

/-- After an error the channel is still held. -/
theorem sshGetfile_error_keeps_channel : ¬ DownloadExact failingPeer (some 1) SshState.start := by
  intro exact
  have left := exact.freed 1 ⟨-2, { SshState.start with channel := Handle.null.make true },
    some []⟩ rfl
  cases left.1

end Hackterm
