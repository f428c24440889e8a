import Hackterm.Recents.RoundTrip

/-! # What the text fields can put into the file

A text field takes spaces and may be left empty. Both are lost in the file: a space
ends a string, so that what is behind it is read as the next one, and an empty user
is written as `X` but, unlike an empty fingerprint, not read back as empty. The
records come back unchanged exactly when there are ten of them, all with a user and
none with a space (`Hackterm.padConnections_readBack_iff`).
-/

namespace Hackterm

/-- The arrays with empty strings in the places behind the given ones. -/
def padConnections (connections : List RecentConnection) : List RecentConnection :=
  connections ++ List.replicate (recentConnections - connections.length) clearedConnection

/-- A string a text field supplies. -/
structure TextField (string : List UInt8) : Prop where
  short : string.length ≤ 98
  no_newline : 0x0A ∉ string
  not_x : string ≠ [0x58]

/-- A connection whose strings the text fields supplied. -/
structure RecentConnection.TextFields (connection : RecentConnection) : Prop where
  hostname : TextField connection.hostname
  username : TextField connection.username
  fingerprintstr : TextField connection.fingerprintstr

/-- The same host, user and fingerprint. -/
structure RecentConnection.SameText (read written : RecentConnection) : Prop where
  hostname : read.hostname = written.hostname
  username : read.username = written.username
  fingerprintstr : read.fingerprintstr = written.fingerprintstr

/-- The file written for the connections is read back as them. -/
def ReadBack (connections : List RecentConnection) : Prop :=
  ∃ read, readallConnections (some (writeallConnections connections)) = some read ∧
    List.Forall₂ RecentConnection.SameText read connections

/-- A connection with a user, and with no space in its strings. -/
structure RecentConnection.Plain (connection : RecentConnection) : Prop where
  named : connection.username ≠ []
  hostname : 0x20 ∉ connection.hostname
  username : 0x20 ∉ connection.username
  fingerprintstr : 0x20 ∉ connection.fingerprintstr

theorem TextField.storable {string : List UInt8} (field : TextField string)
    (no_space : 0x20 ∉ string) : StorableString string :=
  ⟨Nat.le_succ_of_le field.short, no_space, field.no_newline⟩

theorem RecentConnection.TextFields.storable {connection : RecentConnection}
    (fields : connection.TextFields) (plain : connection.Plain) : connection.Storable :=
  ⟨fields.hostname.storable plain.hostname, fields.username.storable plain.username,
    fields.fingerprintstr.storable plain.fingerprintstr, fields.fingerprintstr.not_x⟩

theorem RecentConnection.Plain.reread {connection : RecentConnection} (plain : connection.Plain) :
    connection.reread.SameText connection :=
  ⟨rfl, if_neg plain.named, rfl⟩

/-- What is read has no space in it. -/
theorem fgetstr_no_space (bytes : List UInt8) : 0x20 ∉ (fgetstr bytes).1 := by
  induction bytes with
  | nil => exact List.not_mem_nil
  | cons char rest ih =>
      rw [fgetstr]
      split_ifs with separates
      · exact List.not_mem_nil
      · rw [List.mem_cons, not_or]
        exact ⟨fun space => separates (Or.inl space.symm), ih⟩

theorem readString_no_space {file after : RecentFile} {string : List UInt8}
    (read : readString file = some (string, after)) : 0x20 ∉ string := by
  unfold readString at read
  split_ifs at read with ended long
  · obtain ⟨rfl, -⟩ := Prod.mk.inj (Option.some.inj read)
    exact List.not_mem_nil
  · have fields := Prod.mk.inj (Option.some.inj read)
    rw [← fields.1]
    exact fgetstr_no_space file.rest

/-- A string that is read as it was written had no space, and was read up to its
separator. -/
theorem readString_same {string rest : List UInt8} {separator : UInt8} {after : RecentFile}
    (separates : separator = 0x20 ∨ separator = 0x0A) (field : string.length ≤ 98)
    (no_newline : 0x0A ∉ string)
    (read : readString ⟨string ++ separator :: rest, false⟩ = some (string, after)) :
    0x20 ∉ string ∧ after = ⟨rest, false⟩ := by
  have no_space := readString_no_space read
  rw [readString_string ⟨Nat.le_succ_of_le field, no_space, no_newline⟩ rest separator separates,
    Option.some.injEq, Prod.mk.injEq] at read
  exact ⟨no_space, read.2.symm⟩

theorem TextField.orX {string : List UInt8} (field : TextField string) :
    (Hackterm.orX string).length ≤ 98 ∧ 0x0A ∉ Hackterm.orX string := by
  unfold Hackterm.orX
  split_ifs
  · exact ⟨by decide, by decide⟩
  · exact ⟨field.short, field.no_newline⟩

/-- The strings of a line, taken apart. -/
theorem readConnection_fields {file after : RecentFile} {read : RecentConnection}
    (reads : readConnection file = some (read, after)) :
    ∃ hostRest userRest passRest token,
      readString file = some (read.hostname, hostRest) ∧
        readString hostRest = some (read.username, userRest) ∧
        readString userRest = some (read.password, passRest) ∧
        readString passRest = some (token, after) ∧
        read.fingerprintstr = if token = [0x58] then [] else token := by
  unfold readConnection at reads
  simp only [Option.bind_eq_bind, Option.bind_eq_some_iff, Option.some.injEq, Prod.mk.injEq,
    Prod.exists] at reads
  obtain ⟨hostname, hostRest, host, username, userRest, user, password, passRest, pass, token, rest,
    fingerprint, rfl, rfl⟩ := reads
  exact ⟨hostRest, userRest, passRest, token, host, user, pass, fingerprint, rfl⟩

/-- A fingerprint that is read as it was written was the string in the file. -/
theorem orX_eq_of_cleared {fingerprintstr token : List UInt8}
    (same : (if token = [0x58] then [] else token) = fingerprintstr)
    (filled : fingerprintstr ≠ []) : token = orX fingerprintstr := by
  rw [orX, if_neg filled, ← same]
  split_ifs at same ⊢ with marked
  · exact absurd same.symm filled
  · rfl

/-- **One line.** A connection that is read as it was written is a plain one, and its
line has been read to the end. -/
theorem readConnection_same {written read : RecentConnection} (fields : written.TextFields)
    (same : read.SameText written) {rest : List UInt8} {after : RecentFile}
    (reads : readConnection ⟨connectionLine written ++ rest, false⟩ = some (read, after)) :
    written.Plain ∧ after = ⟨rest, false⟩ := by
  have spelled : connectionLine written ++ rest = written.hostname ++ 0x20 ::
      (orX written.username ++ 0x20 :: ([0x58] ++ 0x20 ::
        (orX written.fingerprintstr ++ 0x0A :: rest))) := by
    simp [connectionLine]
  obtain ⟨hostRest, userRest, passRest, token, host, user, pass, fingerprint, cleared⟩ :=
    readConnection_fields reads
  rw [spelled, same.hostname] at host
  obtain ⟨hostname, rfl⟩ :=
    readString_same (Or.inl rfl) fields.hostname.short fields.hostname.no_newline host
  -- An empty user would be read as the `X` it was written as.
  have named : written.username ≠ [] := by
    intro empty
    have marked : StorableString [0x58] := ⟨by decide, by decide, by decide⟩
    rw [empty, orX, if_pos rfl, readString_string marked _ _ (Or.inl rfl), Option.some.injEq,
      Prod.mk.injEq, same.username, empty] at user
    exact absurd user.1 (List.cons_ne_nil _ _)
  rw [orX, if_neg named, same.username] at user
  obtain ⟨username, rfl⟩ :=
    readString_same (Or.inl rfl) fields.username.short fields.username.no_newline user
  rw [readString_string ⟨by decide, by decide, by decide⟩ _ _ (Or.inl rfl), Option.some.injEq,
    Prod.mk.injEq] at pass
  obtain ⟨-, rfl⟩ := pass
  rw [same.fingerprintstr] at cleared
  by_cases filled : written.fingerprintstr = []
  · rw [filled, orX, if_pos rfl, readString_string ⟨by decide, by decide, by decide⟩ _ _
      (Or.inr rfl), Option.some.injEq, Prod.mk.injEq] at fingerprint
    have empty : 0x20 ∉ written.fingerprintstr := by
      rw [filled]
      exact List.not_mem_nil
    exact ⟨⟨named, hostname, username, empty⟩, fingerprint.2.symm⟩
  · rw [orX_eq_of_cleared cleared.symm filled] at fingerprint
    obtain ⟨no_space, rfl⟩ := readString_same (Or.inr rfl) fields.fingerprintstr.orX.1
      fields.fingerprintstr.orX.2 fingerprint
    rw [orX, if_neg filled] at no_space
    exact ⟨⟨named, hostname, username, no_space⟩, rfl⟩

/-- Lines that are read as they were written are plain ones. -/
theorem readConnections_same (connections : List RecentConnection)
    (fields : ∀ connection ∈ connections, connection.TextFields) {read : List RecentConnection}
    (same : List.Forall₂ RecentConnection.SameText read connections)
    (reads : readConnections connections.length ⟨writeallConnections connections, false⟩ =
      some read) :
    ∀ connection ∈ connections, connection.Plain := by
  induction connections generalizing read with
  | nil => exact fun connection member => absurd member List.not_mem_nil
  | cons written connections ih =>
      obtain ⟨head, tail, headSame, tailSame, rfl⟩ := List.forall₂_cons_right_iff.mp same
      rw [List.forall_mem_cons] at fields ⊢
      rw [List.length_cons, readConnections, writeallConnections, List.flatMap_cons] at reads
      simp only [Option.bind_eq_bind, Option.bind_eq_some_iff, Option.some.injEq,
        List.cons.injEq, Prod.exists] at reads
      obtain ⟨connection, after, line, rest, lines, rfl, rfl⟩ := reads
      obtain ⟨plain, rfl⟩ := readConnection_same fields.1 headSame line
      exact ⟨plain, ih fields.2 tailSame lines⟩

/-- **Text fields.** Ten connections from text fields are read back exactly when they
are plain. -/
theorem readBack_iff (connections : List RecentConnection)
    (full : connections.length = recentConnections)
    (fields : ∀ connection ∈ connections, connection.TextFields) :
    ReadBack connections ↔ ∀ connection ∈ connections, connection.Plain := by
  constructor
  · rintro ⟨read, reads, same⟩
    rw [readallConnections, ← full] at reads
    exact readConnections_same connections fields same reads
  · intro plain
    have storable : ∀ connection ∈ connections, connection.Storable := fun connection member =>
      (fields connection member).storable (plain connection member)
    refine ⟨_, readallConnections_writeallConnections connections full storable, ?_⟩
    rw [List.forall₂_map_left_iff, List.forall₂_same]
    exact fun connection member => (plain connection member).reread

theorem clearedConnection_textFields : clearedConnection.TextFields :=
  ⟨⟨by decide, by decide, by decide⟩, ⟨by decide, by decide, by decide⟩,
    ⟨by decide, by decide, by decide⟩⟩

/-- **Recent connections.** At most ten connections from text fields, with cleared ones
behind them, are read back exactly when there are ten, each with a user, and no
string has a space. -/
theorem padConnections_readBack_iff (connections : List RecentConnection)
    (few : connections.length ≤ recentConnections)
    (fields : ∀ connection ∈ connections, connection.TextFields) :
    ReadBack (padConnections connections) ↔
      connections.length = recentConnections ∧
        ∀ connection ∈ connections, connection.Plain := by
  have full : (padConnections connections).length = recentConnections := by
    rw [padConnections, List.length_append, List.length_replicate, Nat.add_sub_cancel' few]
  have padded : ∀ connection ∈ padConnections connections, connection.TextFields := by
    intro connection member
    obtain given | cleared := List.mem_append.mp member
    · exact fields connection given
    · rw [List.eq_of_mem_replicate cleared]
      exact clearedConnection_textFields
  rw [readBack_iff _ full padded]
  constructor
  · intro plain
    refine ⟨?_, fun connection member => plain connection (List.mem_append_left _ member)⟩
    -- A cleared connection has no user.
    by_contra short
    have room : recentConnections - connections.length ≠ 0 := by omega
    have last : clearedConnection ∈ padConnections connections :=
      List.mem_append_right _ (List.mem_replicate.mpr ⟨room, rfl⟩)
    exact (plain _ last).named rfl
  · rintro ⟨ten, plain⟩
    rw [padConnections, ten, Nat.sub_self, List.replicate_zero, List.append_nil]
    exact plain

/-- Ten connections to one host as one user are read back. -/
theorem padConnections_readBack_ten :
    ReadBack (padConnections (List.replicate 10
      ⟨CString.ascii "host", CString.ascii "user", [], CString.ascii "AB:CD"⟩)) :=
  (padConnections_readBack_iff _ (by decide) fun connection member => by
    rw [List.eq_of_mem_replicate member]
    exact ⟨⟨by decide, by decide, by decide⟩, ⟨by decide, by decide, by decide⟩,
      ⟨by decide, by decide, by decide⟩⟩).mpr
    ⟨by decide, fun connection member => by
      rw [List.eq_of_mem_replicate member]
      exact ⟨by decide, by decide, by decide, by decide⟩⟩

/-- With a host and no user the user `X` is read back. -/
theorem padConnections_empty_user_lost :
    ¬ ReadBack (padConnections [⟨CString.ascii "host", [], [], CString.ascii "AB:CD"⟩]) := by
  have reads : readallConnections (some (writeallConnections (padConnections
      [⟨CString.ascii "host", [], [], CString.ascii "AB:CD"⟩]))) =
      some (⟨CString.ascii "host", [0x58], [0x58], CString.ascii "AB:CD"⟩ ::
        List.replicate 9 ⟨[], [0x58], [0x58], []⟩) := by
    decide
  rintro ⟨read, reads', same⟩
  obtain rfl := Option.some.inj (reads.symm.trans reads')
  obtain ⟨first, -⟩ := List.forall₂_cons.mp same
  exact absurd first.username (by decide)

end Hackterm
