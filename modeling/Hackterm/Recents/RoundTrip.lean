import Hackterm.Recents.Connections

/-! # The file of recent connections

Ten storable connections written to the file are read back with their hosts and
fingerprints; the password is always read as `X`
(`Hackterm.readallConnections_writeallConnections`).
-/

namespace Hackterm

/-- A string that survives the file: it fits its array and has no separator. -/
structure StorableString (string : List UInt8) : Prop where
  short : string.length ≤ 99
  no_space : 0x20 ∉ string
  no_newline : 0x0A ∉ string

/-- A connection that survives the file. -/
structure RecentConnection.Storable (connection : RecentConnection) : Prop where
  hostname : StorableString connection.hostname
  username : StorableString connection.username
  fingerprintstr : StorableString connection.fingerprintstr
  not_x : connection.fingerprintstr ≠ [0x58]

/-- A connection as it is read back. -/
def RecentConnection.reread (connection : RecentConnection) : RecentConnection :=
  ⟨connection.hostname, orX connection.username, [0x58], connection.fingerprintstr⟩

theorem StorableString.orX {string : List UInt8} (storable : StorableString string) :
    StorableString (Hackterm.orX string) := by
  unfold Hackterm.orX
  split_ifs
  · exact ⟨by decide, by decide, by decide⟩
  · exact storable

theorem fgetstr_string (string rest : List UInt8) (separator : UInt8)
    (separates : separator = 0x20 ∨ separator = 0x0A) (no_space : 0x20 ∉ string)
    (no_newline : 0x0A ∉ string) :
    fgetstr (string ++ separator :: rest) = (string, ⟨rest, false⟩) := by
  induction string with
  | nil => rw [List.nil_append, fgetstr, if_pos separates]
  | cons char string ih =>
      rw [List.mem_cons, not_or] at no_space no_newline
      have inside : ¬ (char = 0x20 ∨ char = 0x0A) :=
        not_or.mpr ⟨Ne.symm no_space.1, Ne.symm no_newline.1⟩
      rw [List.cons_append, fgetstr, if_neg inside, ih no_space.2 no_newline.2]

/-- A storable string is read up to its separator. -/
theorem readString_string {string : List UInt8} (storable : StorableString string)
    (rest : List UInt8) (separator : UInt8) (separates : separator = 0x20 ∨ separator = 0x0A) :
    readString ⟨string ++ separator :: rest, false⟩ = some (string, ⟨rest, false⟩) := by
  unfold readString
  rw [if_neg Bool.false_ne_true,
    fgetstr_string string rest separator separates storable.no_space storable.no_newline]
  exact if_neg (Nat.not_lt.mpr storable.short)

/-- A line is read back as its connection. -/
theorem readConnection_connectionLine {connection : RecentConnection}
    (storable : connection.Storable) (rest : List UInt8) :
    readConnection ⟨connectionLine connection ++ rest, false⟩ =
      some (connection.reread, ⟨rest, false⟩) := by
  have spelled : connectionLine connection ++ rest = connection.hostname ++ 0x20 ::
      (orX connection.username ++ 0x20 :: ([0x58] ++ 0x20 ::
        (orX connection.fingerprintstr ++ 0x0A :: rest))) := by
    simp [connectionLine]
  have cleared : (if orX connection.fingerprintstr = [0x58] then []
      else orX connection.fingerprintstr) = connection.fingerprintstr := by
    by_cases empty : connection.fingerprintstr = []
    · rw [empty]
      rfl
    · rw [orX, if_neg empty, if_neg storable.not_x]
  have password : StorableString [0x58] := ⟨by decide, by decide, by decide⟩
  rw [readConnection, spelled, readString_string storable.hostname _ _ (Or.inl rfl)]
  simp only [Option.bind_eq_bind, Option.bind_some,
    readString_string storable.username.orX _ _ (Or.inl rfl),
    readString_string password _ _ (Or.inl rfl),
    readString_string storable.fingerprintstr.orX _ _ (Or.inr rfl), cleared]
  rfl

theorem readConnections_writeallConnections (connections : List RecentConnection)
    (storable : ∀ connection ∈ connections, connection.Storable) :
    readConnections connections.length ⟨writeallConnections connections, false⟩ =
      some (connections.map RecentConnection.reread) := by
  induction connections with
  | nil => rfl
  | cons connection connections ih =>
      rw [List.forall_mem_cons] at storable
      rw [List.length_cons, readConnections, writeallConnections, List.flatMap_cons,
        readConnection_connectionLine storable.1, Option.bind_eq_bind, Option.bind_some]
      rw [writeallConnections] at ih
      simp only [ih storable.2, Option.bind_eq_bind, Option.bind_some, List.map_cons]

/-- **The file.** Ten storable connections are read back as they were written. -/
theorem readallConnections_writeallConnections (connections : List RecentConnection)
    (full : connections.length = recentConnections)
    (storable : ∀ connection ∈ connections, connection.Storable) :
    readallConnections (some (writeallConnections connections)) =
      some (connections.map RecentConnection.reread) := by
  rw [readallConnections, ← full]
  exact readConnections_writeallConnections connections storable

end Hackterm
