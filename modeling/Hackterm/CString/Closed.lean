import Hackterm.CString.Decimal

/-! # Memories closed by a NUL

Whether the string functions stay inside a memory. A search does exactly if its delimiter
or a NUL stands from the pointer on (`CString.strsep_isSome_iff`), and a comparison does
in a memory that is not shorter than the literal (`CString.length_lt_of_strncmp`). A number that
is closed by a NUL is read exactly if it fits an `int` (`CString.atoi_isSome_iff`).
-/

namespace CString

/-- The delimiter or a NUL stands from the pointer on. -/
def Closes (memory : List UInt8) (pointer : Nat) (delim : UInt8) : Prop :=
  delim ∈ memory.drop pointer ∨ 0 ∈ memory.drop pointer

/-- The bytes from a pointer up to a place. -/
def between (memory : List UInt8) (pointer place : Nat) : List UInt8 :=
  (memory.drop pointer).take (place - pointer)

/-- The number that a text spells, up to its first NUL. -/
def spelledNumber (text : List UInt8) : Option Int :=
  signedValue ((text ++ [0]).dropWhile isSpace)

/-- The number that a text spells fits an `int`. -/
def SpellsInt (text : List UInt8) : Prop :=
  ∃ number, spelledNumber text = some number ∧ -2 ^ 31 ≤ number ∧ number < 2 ^ 31

section Places

variable {memory literal text : List UInt8} {pointer place : Nat} {delim byte : UInt8}

theorem mem_drop_iff :
    byte ∈ memory.drop pointer ↔ ∃ place, pointer ≤ place ∧ memory[place]? = some byte := by
  rw [List.mem_iff_getElem?]
  constructor
  · rintro ⟨i, here⟩
    rw [List.getElem?_drop] at here
    exact ⟨pointer + i, Nat.le_add_right _ _, here⟩
  · rintro ⟨place, behind, here⟩
    refine ⟨place - pointer, ?_⟩
    rw [List.getElem?_drop, Nat.add_sub_cancel' behind]
    exact here

/-- A search stays inside the memory exactly if something there ends it. -/
theorem strsep_isSome_iff :
    (strsep memory pointer delim).isSome ↔ Closes memory pointer delim := by
  rw [strsep, Closes]
  split
  · rename_i missing
    refine iff_of_false Bool.false_ne_true fun closes => ?_
    have passes := List.findIdx?_eq_none_iff.mp missing
    rcases closes with found | nul
    · exact absurd (passes delim found) (by simp)
    · exact absurd (passes 0 nul) (by simp)
  · rename_i n located
    obtain ⟨inside, hit, -⟩ := List.findIdx?_eq_some_iff_getElem.mp located
    refine iff_of_true (by split <;> rfl) ?_
    rcases Bool.or_eq_true_iff.mp hit with found | nul
    · exact Or.inl (eq_of_beq found ▸ List.getElem_mem inside)
    · exact Or.inr (eq_of_beq nul ▸ List.getElem_mem inside)

theorem closes_set (before : place < pointer) :
    Closes (memory.set place byte) pointer delim ↔ Closes memory pointer delim := by
  rw [Closes, Closes, List.drop_set_of_lt before]

/-- From a pointer on, a byte that is written ends what stands before it. -/
theorem drop_set_eq (behind : pointer ≤ place) (inside : place < memory.length) :
    (memory.set place byte).drop pointer =
      between memory pointer place ++ byte :: memory.drop (place + 1) := by
  rw [List.drop_set, if_neg (Nat.not_lt.mpr behind), List.set_eq_take_append_cons_drop,
    if_pos (by rw [List.length_drop]; omega), List.drop_drop, between]
  congr 3
  omega

theorem length_between (inside : place < memory.length) :
    (between memory pointer place).length = place - pointer := by
  rw [between, List.length_take, List.length_drop]
  omega

/-- The bytes up to a delimiter that is found are free of NUL. -/
theorem nul_not_mem_between (found : delimPlace memory pointer delim = some place) :
    0 ∉ between memory pointer place := by
  intro nul
  obtain ⟨i, below, here⟩ := List.mem_take_iff_getElem.mp nul
  have inside := (delimPlace_spec found).2.2.2 (pointer + i) (Nat.le_add_right _ _) (by omega)
  rw [← List.getElem?_drop, List.getElem?_eq_getElem (by omega), here] at inside
  exact inside rfl

theorem delimPlace_lt_length (found : delimPlace memory pointer delim = some place) :
    place < memory.length :=
  (List.getElem?_eq_some_iff.mp (delimPlace_spec found).2.1).1

/-- A comparison leaves the memory only if that is shorter than the literal. -/
theorem length_lt_of_strncmp (undefined : strncmp memory literal = none) :
    memory.length < literal.length := by
  induction literal generalizing memory with
  | nil => rw [strncmp.eq_1] at undefined; cases undefined
  | cons char literal ih =>
      cases memory with
      | nil => exact Nat.succ_pos _
      | cons byte memory =>
          rw [strncmp] at undefined
          split at undefined
          · exact Nat.succ_lt_succ (ih undefined)
          · cases undefined

theorem strncmp_eq_true_iff : strncmp memory literal = some true ↔ literal <+: memory := by
  constructor
  · exact prefix_of_strncmp
  · rintro ⟨rest, rfl⟩
    exact strncmp_append literal rest

end Places

section Numbers

/-- Digits end at the NUL behind them, whatever stands behind it. -/
theorem digitsValue_closed (value : Nat) (text back : List UInt8) :
    digitsValue value (text ++ 0 :: back) = digitsValue value (text ++ [0]) := by
  induction text generalizing value with
  | nil => rfl
  | cons byte text ih =>
      rw [List.cons_append, List.cons_append, digitsValue, digitsValue, ih]

theorem signedValue_closed (text back : List UInt8) :
    signedValue (text ++ 0 :: back) = signedValue (text ++ [0]) := by
  cases text with
  | nil => rfl
  | cons byte text =>
      have digits := digitsValue_closed 0 (byte :: text) back
      rw [List.cons_append, List.cons_append] at digits
      rw [List.cons_append, List.cons_append, signedValue, signedValue, digits,
        digitsValue_closed]

/-- A NUL ends the blanks before a number. -/
theorem dropWhile_isSpace_closed (text back : List UInt8) :
    (text ++ 0 :: back).dropWhile isSpace = text.dropWhile isSpace ++ 0 :: back := by
  induction text with
  | nil => rfl
  | cons byte text ih =>
      rw [List.cons_append, List.dropWhile_cons, List.dropWhile_cons, ih]
      split <;> rfl

theorem atoi_isSome_iff (text back : List UInt8) :
    (atoi (text ++ 0 :: back)).isSome ↔ SpellsInt text := by
  rw [atoi, SpellsInt, spelledNumber, dropWhile_isSpace_closed, dropWhile_isSpace_closed,
    signedValue_closed, Option.bind_eq_bind]
  cases signedValue (text.dropWhile isSpace ++ [0]) with
  | none => simp
  | some value =>
      rw [Option.bind_some]
      split
      · rename_i fits
        exact iff_of_true rfl ⟨value, rfl, fits⟩
      · rename_i outside
        refine iff_of_false Bool.false_ne_true ?_
        rintro ⟨number, spelled, fits⟩
        obtain rfl := Option.some.inj spelled
        exact outside fits

end Numbers

end CString
