import Hackterm.Recents.Fingerprint
import Hackterm.Recents.Replacement
import Hackterm.Streaming.Recency
import Hackterm.Streaming.Run

/-! # Host key pinning

The file is meant to hold the ten hosts that were accepted last, each with the
fingerprint of its key (`Hackterm.Recents.Stores`). While it does, a host among them
that presents another key is turned away before anything is sent to it
(`Hackterm.Recents.Stores.pinned`). An accepted connection keeps the file so when its
host is not stored, or stands in one of the last places; otherwise another host is
lost, and its next key is taken on trust. So the hosts are pinned throughout a run
exactly when no connection of the run does the latter (`Hackterm.pinned_iff`).
-/

namespace Hackterm

open Streaming Streaming.Recency

/-- A host or user name. -/
structure PlainName (name : List UInt8) : Prop where
  name_ne_nil : name ≠ []
  short : name.length ≤ 98
  ascii : ∀ char ∈ name, 0 < char ∧ char < 0x80
  no_space : 0x20 ∉ name
  no_newline : 0x0A ∉ name

/-- An accepted connection. The password was read from an array of 100 bytes. -/
structure AcceptedConnection where
  hostname : List UInt8
  username : List UInt8
  password : List UInt8
  hostkeyHash : Fin 20 → UInt8
  hostname_plain : PlainName hostname
  username_plain : PlainName username
  password_short : password.length ≤ 99

namespace AcceptedConnection

/-- The fingerprint of the server. -/
def fingerprintstr (connection : AcceptedConnection) : List UInt8 :=
  fingerprintStr connection.hostkeyHash

/-- What is handed to `write_connection`. -/
def record (connection : AcceptedConnection) : RecentConnection :=
  ⟨connection.hostname, connection.username, connection.password, connection.fingerprintstr⟩

/-- The host and its fingerprint. -/
def entry (connection : AcceptedConnection) : List UInt8 × List UInt8 :=
  (connection.hostname, connection.fingerprintstr)

end AcceptedConnection

/-- The host of a place and its fingerprint. -/
def RecentConnection.entry (connection : RecentConnection) : List UInt8 × List UInt8 :=
  (connection.hostname, connection.fingerprintstr)

/-- The file, and the connections accepted so far. -/
structure Recents where
  file : Option (List UInt8)
  accepted : List AcceptedConnection

/-- A connection is accepted. -/
def acceptConnection (st : Recents) (connection : AcceptedConnection) : Option Recents :=
  (writeConnection st.file connection.record).map fun file =>
    ⟨file, st.accepted ++ [connection]⟩

/-- A host that was accepted, with fewer than ten other hosts accepted since, has its
last fingerprint on file, and when its server presents another key the connection is
given up before any authentication call. -/
def Recents.Pinned (st : Recents) : Prop :=
  ∀ front connection back, st.accepted = front ++ connection :: back →
    (∀ later ∈ back, later.hostname ≠ connection.hostname) →
    (back.map AcceptedConnection.hostname).dedup.length < recentConnections →
    displayServerselectGet st.file connection.hostname = some connection.fingerprintstr ∧
      ∀ server : SshServer, server.resolved → server.connected → server.handshaken →
        server.hostkeyHash ≠ connection.hostkeyHash →
        (displayServerselectGet st.file connection.hostname).map (sshOpenPreshell server) =
          some (-5, [])

/-- The hosts accepted last with their fingerprints, at most ten of them. -/
def storedEntries (accepted : List AcceptedConnection) : List (List UInt8 × List UInt8) :=
  (recent (accepted.map AcceptedConnection.entry)).take recentConnections

/-- A connection does no harm to the list: its host is not among those accepted last,
or is the last of them, or the last but one while there are fewer than ten. -/
def Recents.Harmless (st : Recents) (connection : AcceptedConnection) : Prop :=
  let hosts := (storedEntries st.accepted).map Prod.fst
  connection.hostname ∉ hosts ∨ hosts.getLast? = some connection.hostname ∨
    hosts.length < recentConnections ∧ hosts.dropLast.getLast? = some connection.hostname

/-- The file holds the hosts accepted last. -/
structure Recents.Stores (st : Recents) (stored spare : List RecentConnection) : Prop where
  read : readallConnections st.file = some (stored ++ spare)
  full : (stored ++ spare).length = recentConnections
  storable : ∀ connection ∈ stored ++ spare, connection.Storable
  entries : stored.map RecentConnection.entry = storedEntries st.accepted
  cleared : ∀ connection ∈ spare, connection.hostname = []

section Lookup

variable {connections : List RecentConnection} {h : List UInt8}

theorem lookup_absent (init : List UInt8)
    (absent : ∀ connection ∈ connections, connection.hostname ≠ h) :
    connections.foldl (fun ofingerprintstr connection =>
      if connection.hostname = h then connection.fingerprintstr else ofingerprintstr) init =
        init := by
  induction connections with
  | nil => rfl
  | cons connection connections ih =>
      rw [List.forall_mem_cons] at absent
      rw [List.foldl_cons, if_neg absent.1, ih absent.2]

/-- A host that is nowhere has no fingerprint. -/
theorem displayServerselectGet_absent {file : Option (List UInt8)}
    (read : readallConnections file = some connections)
    (absent : ∀ connection ∈ connections, connection.hostname ≠ h) :
    displayServerselectGet file h = some [] := by
  rw [displayServerselectGet, read]
  exact congrArg some (lookup_absent [] absent)

/-- The last place with a host decides on its fingerprint. -/
theorem displayServerselectGet_found {file : Option (List UInt8)} {front back : List RecentConnection}
    {connection : RecentConnection}
    (read : readallConnections file = some (front ++ connection :: back))
    (last : ∀ other ∈ back, other.hostname ≠ connection.hostname) :
    displayServerselectGet file connection.hostname = some connection.fingerprintstr := by
  rw [displayServerselectGet, read]
  apply congrArg some
  rw [List.foldl_append, List.foldl_cons, if_pos rfl, lookup_absent _ last]

end Lookup

/-- Another key than the one on file is turned away before any authentication call. -/
theorem sshOpenPreshell_mismatch {server : SshServer} (resolved : server.resolved)
    (connected : server.connected) (handshaken : server.handshaken) {known : Fin 20 → UInt8}
    (other : server.hostkeyHash ≠ known) :
    sshOpenPreshell server (fingerprintStr known) = (-5, []) := by
  have on_file : fingerprintStr known ≠ [] := fingerprintStr_ne known (by decide)
  have differs : fingerprintStr server.hostkeyHash ≠ fingerprintStr known :=
    fingerprintStr_injective.ne other
  simp [sshOpenPreshell, resolved, connected, handshaken, on_file, differs]

namespace Recents.Stores

variable {st : Recents} {stored spare : List RecentConnection} (stores : st.Stores stored spare)

theorem hostnames_eq (stores : st.Stores stored spare) :
    stored.map RecentConnection.hostname = (storedEntries st.accepted).map Prod.fst := by
  rw [← stores.entries, List.map_map]
  rfl

include stores

theorem nodup : (stored.map RecentConnection.hostname).Nodup := by
  rw [stores.hostnames_eq]
  exact (recent_nodup _).sublist ((List.take_sublist _ _).map Prod.fst)

theorem used : ∀ connection ∈ stored, connection.hostname ≠ [] := by
  intro connection member
  have listed : connection.entry ∈ storedEntries st.accepted := by
    rw [← stores.entries]
    exact List.mem_map_of_mem member
  obtain ⟨accepted, -, same⟩ :=
    List.mem_map.mp (recent_subset _ (List.mem_of_mem_take listed))
  have host : accepted.hostname = connection.hostname := congrArg Prod.fst same
  rw [← host]
  exact accepted.hostname_plain.name_ne_nil

/-- **The pinned hosts.** A stored host keeps its fingerprint, and another key is turned
away. -/
theorem pinned : st.Pinned := by
  intro front connection back split last few
  have place := recent_place (front.map AcceptedConnection.entry)
    (back.map AcceptedConnection.entry) connection.entry (List.forall_mem_map.mpr last)
  have hosts : (back.map AcceptedConnection.entry).map Prod.fst =
      back.map AcceptedConnection.hostname := by
    rw [List.map_map]
    rfl
  have listed : connection.entry ∈ storedEntries st.accepted := by
    rw [storedEntries, split, List.map_append, List.map_cons]
    rw [hosts] at place
    apply List.mem_of_getElem?
    rw [List.getElem?_take_of_lt few, place]
  rw [← stores.entries] at listed
  obtain ⟨kept, member, same⟩ := List.mem_map.mp listed
  obtain ⟨host, fingerprint⟩ := Prod.mk.inj same
  have found : displayServerselectGet st.file connection.hostname =
      some connection.fingerprintstr := by
    obtain ⟨before, behind, spelled⟩ := List.append_of_mem member
    have read := stores.read
    have distinct := stores.nodup
    rw [spelled, List.append_assoc, List.cons_append] at read
    rw [spelled, List.map_append, List.map_cons] at distinct
    rw [← host, ← fingerprint]
    apply displayServerselectGet_found read
    intro other present
    rw [List.mem_append] at present
    cases present with
    | inl present =>
        intro again
        have fresh := (List.nodup_cons.mp distinct.of_append_right).1
        exact fresh (again ▸ List.mem_map_of_mem present)
    | inr present =>
        rw [stores.cleared other present]
        exact (stores.used kept member).symm
  refine ⟨found, fun server resolved connected handshaken other => ?_⟩
  rw [found, Option.map_some]
  exact congrArg some (sshOpenPreshell_mismatch resolved connected handshaken other)

/-- An accepted connection writes the updated arrays. -/
theorem writeConnection_eq (connection : AcceptedConnection) :
    writeConnection st.file connection.record =
      (updateConnections connection.record (stored ++ spare)).map fun updated =>
        some (writeallConnections updated) := by
  have named : connection.record.hostname ≠ [] := connection.hostname_plain.name_ne_nil
  have fits : ¬ (99 < connection.record.hostname.length ∨ 99 < connection.record.username.length ∨
      99 < connection.record.password.length ∨ 99 < connection.record.fingerprintstr.length) := by
    have hostname := connection.hostname_plain.short
    have username := connection.username_plain.short
    have password := connection.password_short
    have fingerprint : connection.record.fingerprintstr.length = 59 := fingerprintStr_length _
    simp only [AcceptedConnection.record] at *
    omega
  rw [writeConnection, if_neg named, if_neg fits, stores.read, Option.bind_eq_bind,
    Option.bind_some, Option.map_eq_bind]
  rfl

end Recents.Stores

theorem AcceptedConnection.record_storable (connection : AcceptedConnection) :
    connection.record.Storable where
  hostname := ⟨Nat.le_succ_of_le connection.hostname_plain.short,
    connection.hostname_plain.no_space, connection.hostname_plain.no_newline⟩
  username := ⟨Nat.le_succ_of_le connection.username_plain.short,
    connection.username_plain.no_space, connection.username_plain.no_newline⟩
  fingerprintstr := fingerprintStr_storable _
  not_x := fingerprintStr_ne _ (by decide)

theorem clearedConnection_storable : clearedConnection.Storable :=
  ⟨⟨by decide, by decide, by decide⟩, ⟨by decide, by decide, by decide⟩,
    ⟨by decide, by decide, by decide⟩, by decide⟩

theorem RecentConnection.Storable.reread {connection : RecentConnection}
    (storable : connection.Storable) : connection.reread.Storable :=
  ⟨storable.hostname, storable.username.orX, storable.fingerprintstr, storable.not_x⟩

/-- The list of hosts after an accepted connection. -/
theorem storedEntries_append (accepted : List AcceptedConnection)
    (connection : AcceptedConnection) :
    storedEntries (accepted ++ [connection]) =
      (touch (storedEntries accepted) connection.entry).take recentConnections := by
  rw [storedEntries, storedEntries, List.map_append, List.map_singleton, recent_append_singleton,
    recentConnections, take_touch_take _ _ _ (recent_nodup _)]

section Accept

variable {st after : Recents} {stored spare : List RecentConnection}
  {connection : AcceptedConnection}

/-- The arrays of a file that holds the hosts accepted last. -/
theorem Recents.Stores.arrays (stores : st.Stores stored spare) :
    ConnectionArrays stored spare where
  full := stores.full
  used := stores.used
  distinct := stores.nodup
  cleared := stores.cleared

/-- After an accepted connection the file holds what the arrays were updated to. -/
theorem Recents.Stores.read_after (stores : st.Stores stored spare)
    (accepted : acceptConnection st connection = some after) :
    ∃ updated, updateConnections connection.record (stored ++ spare) = some updated ∧
      updated.length = recentConnections ∧ (∀ other ∈ updated, other.Storable) ∧
      after.accepted = st.accepted ++ [connection] ∧
      readallConnections after.file = some (updated.map RecentConnection.reread) := by
  rw [acceptConnection, stores.writeConnection_eq, Option.map_map] at accepted
  obtain ⟨updated, update, rfl⟩ := Option.map_eq_some_iff.mp accepted
  obtain ⟨full, places⟩ := updateConnections_places stores.full update
  have storable : ∀ other ∈ updated, other.Storable := by
    intro other member
    obtain rfl | kept | rfl := places other member
    · exact connection.record_storable
    · exact stores.storable other kept
    · exact clearedConnection_storable
  exact ⟨updated, update, full, storable, rfl,
    readallConnections_writeallConnections updated full storable⟩

/-- The list that is kept holds the hosts accepted last. -/
theorem Recents.Stores.replaced_entries (stores : st.Stores stored spare) :
    (replacedConnections connection.record stored).map RecentConnection.entry =
      (touch (storedEntries st.accepted) connection.entry).take recentConnections := by
  rw [replacedConnections, List.map_take, List.map_cons, touch, ← stores.entries, List.filter_map]
  rfl

/-- A harmless connection keeps the list. -/
theorem Recents.Stores.accept_harmless (stores : st.Stores stored spare)
    (accepted : acceptConnection st connection = some after)
    (harmless : st.Harmless connection) : ∃ newStored newSpare, after.Stores newStored newSpare := by
  rw [Recents.Harmless, ← stores.hostnames_eq] at harmless
  have named : connection.record.hostname ≠ [] := connection.hostname_plain.name_ne_nil
  have last : AmongLast connection.record.hostname stored := harmless
  obtain ⟨rest, replaced, cleared⟩ := stores.arrays.replaces_of_amongLast named last
  obtain ⟨updated, update, full, storable, grown, read⟩ := stores.read_after accepted
  obtain rfl := Option.some.inj (replaced.symm.trans update)
  rw [List.map_append] at read
  refine ⟨_, _, read, ?_, ?_, ?_, List.forall_mem_map.mpr cleared⟩
  · rw [← List.map_append, List.length_map, full]
  · rw [← List.map_append]
    exact List.forall_mem_map.mpr fun other member => (storable other member).reread
  · rw [grown, storedEntries_append, ← stores.replaced_entries, List.map_map]
    rfl

end Accept

/-- Any other connection leaves a host without its fingerprint. -/
theorem Recents.Stores.harmless_of_pinned {st after : Recents}
    {stored spare : List RecentConnection} {connection : AcceptedConnection}
    (stores : st.Stores stored spare) (accepted : acceptConnection st connection = some after)
    (pinned : after.Pinned) : st.Harmless connection := by
  by_contra harm
  rw [Recents.Harmless, ← stores.hostnames_eq] at harm
  obtain ⟨front, found, middle, lost, spelled, same, inner⟩ := exists_of_not_amongLast harm
  obtain ⟨updated, update, -, -, grown, read⟩ := stores.read_after accepted
  have absent : displayServerselectGet after.file lost.hostname = some [] :=
    displayServerselectGet_absent read (List.forall_mem_map.mpr
      (stores.arrays.update_loses spelled same inner updated update))
  -- the lost host stands behind the new one and the others in the list of all hosts
  have place : (recent (after.accepted.map AcceptedConnection.entry))[
      (front ++ middle).length + 1]? = some lost.entry := by
    have all : recent (st.accepted.map AcceptedConnection.entry) =
        front.map RecentConnection.entry ++ found.entry ::
          ((middle ++ [lost]).map RecentConnection.entry ++
            (recent (st.accepted.map AcceptedConnection.entry)).drop recentConnections) := by
      conv_lhs => rw [← List.take_append_drop recentConnections (recent _)]
      rw [← storedEntries, ← stores.entries, spelled]
      simp
    have distinct := recent_nodup (st.accepted.map AcceptedConnection.entry)
    rw [grown, List.map_append, List.map_singleton, recent_append_singleton, all]
    rw [all] at distinct
    rw [touch_split _ _ _ connection.entry same distinct]
    simp
  have few : (front ++ middle).length + 1 < recentConnections := by
    have full := stores.full
    rw [spelled] at full
    simp only [List.length_append, List.length_cons, List.length_nil] at full ⊢
    omega
  obtain ⟨before, behind, split, last, count⟩ := exists_of_recent_place place
  obtain ⟨older, rest, whole, -, rest_entries⟩ := List.map_eq_append_iff.mp split
  obtain ⟨earlier, newer, rfl, entry_eq, rfl⟩ := List.map_eq_cons_iff.mp rest_entries
  have host : earlier.hostname = lost.hostname := congrArg Prod.fst entry_eq
  rw [List.map_map] at count
  have kept := (pinned older earlier newer whole
    (fun later member => host ▸ List.forall_mem_map.mp last later member)
    (Nat.lt_of_le_of_lt (Nat.le_of_eq count) few)).1
  rw [host, absent] at kept
  exact fingerprintStr_ne earlier.hostkeyHash (by decide) (Option.some.inj kept).symm

/-- Before the first connection there is no file. -/
theorem Recents.stores_empty :
    Recents.Stores ⟨none, []⟩ [] (List.replicate recentConnections clearedConnection) where
  read := rfl
  full := rfl
  storable := by
    intro connection member
    rw [List.eq_of_mem_replicate member]
    exact clearedConnection_storable
  entries := rfl
  cleared := by
    intro connection member
    rw [List.eq_of_mem_replicate member]
    rfl

/-- **Host key pinning.** From an empty file the hosts are pinned in every state of a run
exactly when every accepted connection is harmless. -/
theorem pinned_iff (connections : List AcceptedConnection) :
    Throughout acceptConnection ⟨none, []⟩ connections Recents.Pinned ↔
      EveryStep acceptConnection ⟨none, []⟩ connections Recents.Harmless := by
  apply throughout_iff_everyStep fun st => ∃ stored spare, st.Stores stored spare
  · rintro st ⟨stored, spare, stores⟩
    exact stores.pinned
  · rintro before connection after ⟨stored, spare, stores⟩ accepted harmless
    exact stores.accept_harmless accepted harmless
  · rintro before connection after ⟨stored, spare, stores⟩ accepted pinned
    exact stores.harmless_of_pinned accepted pinned
  · exact ⟨[], _, Recents.stores_empty⟩

theorem plainName_letter {letter : UInt8} (positive : 0 < letter) (ascii : letter < 0x80)
    (no_space : letter ≠ 0x20) (no_newline : letter ≠ 0x0A) : PlainName [letter] where
  name_ne_nil := List.cons_ne_nil _ _
  short := (by decide : 1 ≤ 98)
  ascii := List.forall_mem_singleton.mpr ⟨positive, ascii⟩
  no_space := fun space => no_space (List.mem_singleton.mp space).symm
  no_newline := fun newline => no_newline (List.mem_singleton.mp newline).symm

/-- A connection to a host of one letter. -/
def letterConnection (letter : UInt8) (plain : PlainName [letter]) : AcceptedConnection where
  hostname := [letter]
  username := [0x75]
  password := []
  hostkeyHash := fun _ => letter
  hostname_plain := plain
  username_plain := plainName_letter (by decide) (by decide) (by decide) (by decide)
  password_short := Nat.zero_le 99

/-- Connections to the hosts `a`, `b`, `c` and `c` again. -/
def abccConnections : List AcceptedConnection :=
  [letterConnection 0x61 (plainName_letter (by decide) (by decide) (by decide) (by decide)),
    letterConnection 0x62 (plainName_letter (by decide) (by decide) (by decide) (by decide)),
    letterConnection 0x63 (plainName_letter (by decide) (by decide) (by decide) (by decide)),
    letterConnection 0x63 (plainName_letter (by decide) (by decide) (by decide) (by decide))]

theorem accepted_of_run {connections : List AcceptedConnection} {st last : Recents}
    (run : connections.foldlM acceptConnection st = some last) :
    last.accepted = st.accepted ++ connections := by
  induction connections generalizing st with
  | nil =>
      obtain rfl := Option.some.inj run
      exact (List.append_nil _).symm
  | cons connection connections ih =>
      rw [List.foldlM_cons] at run
      obtain ⟨next, accepted, run⟩ := Option.bind_eq_some_iff.mp run
      obtain ⟨file, -, rfl⟩ := Option.map_eq_some_iff.mp accepted
      rw [ih run, List.append_assoc, List.singleton_append]

/-- After connections to the hosts `a`, `b`, `c` and `c` again, the key of `a` is gone. -/
theorem pinned_lost :
    ¬ Throughout acceptConnection ⟨none, []⟩ abccConnections Recents.Pinned := by
  intro throughout
  have lost : (abccConnections.foldlM acceptConnection ⟨none, []⟩).bind
      (fun st => displayServerselectGet st.file [0x61]) = some [] := by decide +kernel
  obtain ⟨last, run, absent⟩ := Option.bind_eq_some_iff.mp lost
  have pinned := throughout _ last (List.prefix_refl _) run
  have kept := (pinned [] _ _ (accepted_of_run run) (by decide) (by decide)).1
  exact absurd (absent.symm.trans kept) (by decide +kernel)

end Hackterm
