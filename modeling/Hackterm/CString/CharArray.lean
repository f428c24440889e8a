import Hackterm.CString.Memory

/-! # Strings in arrays of a fixed size

A `char` array holds the bytes up to its first NUL, and what stands behind that NUL does
not count. A NUL further to the front cuts the string off
(`CString.CharArray.string_cut`), and a byte in the place of the NUL with a new one behind
it makes the string longer (`CString.CharArray.string_append`). Writing behind the array
is undefined, which is `none`.
-/

namespace CString

/-- A `char` array. -/
@[ext]
structure CharArray (size : Nat) where
  bytes : List UInt8
  sized : bytes.length = size

namespace CharArray

variable {size : Nat}

/-- The array with a byte at a place. -/
def store (array : CharArray size) (place : Nat) (byte : UInt8) : Option (CharArray size) :=
  if place < size then some ⟨array.bytes.set place byte, by rw [List.length_set, array.sized]⟩
  else none

/-- The byte at a place. -/
def load (array : CharArray size) (place : Nat) : Option UInt8 := array.bytes[place]?

/-- Each of the first bytes becomes the one behind it, from the front on. -/
def moveDown (array : CharArray size) (count : Nat) : Option (CharArray size) :=
  (List.range count).foldlM (fun array n => do array.store n (← array.load (n + 1))) array

/-- The string in the array, read no further than the array goes. -/
def string (array : CharArray size) : Option (List UInt8) := read array.bytes

/-- `strcpy` into the array. -/
def strcpy (array : CharArray size) (string : List UInt8) : Option (CharArray size) :=
  if fits : string.length < size then
    some ⟨string ++ 0 :: array.bytes.drop (string.length + 1), by
      rw [List.length_append, List.length_cons, List.length_drop, array.sized]
      omega⟩
  else none

variable {array after : CharArray size} {string : List UInt8}

theorem store_eq_some_iff {place : Nat} {byte : UInt8} :
    array.store place byte = some after ↔
      place < size ∧ after.bytes = array.bytes.set place byte := by
  unfold store
  split
  · rename_i inside
    rw [Option.some.injEq, CharArray.ext_iff, eq_comm]
    exact (and_iff_right inside).symm
  · rename_i outside
    exact iff_of_false (by simp) fun stored => outside stored.1

theorem exists_store (array : CharArray size) {place : Nat} (inside : place < size)
    (byte : UInt8) : ∃ after, array.store place byte = some after :=
  ⟨_, if_pos inside⟩

theorem store_outside (array : CharArray size) {place : Nat} (outside : size ≤ place)
    (byte : UInt8) : array.store place byte = none :=
  if_neg (Nat.not_lt.mpr outside)

/-- The bytes that are moved stand one place further to the front, the others where they
stood. -/
theorem moveDown_bytes (array : CharArray size) {count : Nat} (inside : count < size) :
    ∃ after, array.moveDown count = some after ∧
      after.bytes = (array.bytes.drop 1).take count ++ array.bytes.drop count := by
  induction count with
  | zero => exact ⟨array, rfl, rfl⟩
  | succ count ih =>
      obtain ⟨middle, moved, bytes_eq⟩ := ih (Nat.lt_of_succ_lt inside)
      have next_inside : count + 1 < array.bytes.length := array.sized.symm ▸ inside
      have front : ((array.bytes.drop 1).take count).length = count := by
        rw [List.length_take, List.length_drop]
        omega
      have here : array.bytes.drop count =
          array.bytes[count] :: array.bytes[count + 1] :: array.bytes.drop (count + 2) := by
        rw [List.drop_eq_getElem_cons (Nat.lt_of_succ_lt next_inside),
          List.drop_eq_getElem_cons next_inside]
      have loaded : middle.load (count + 1) = some array.bytes[count + 1] := by
        rw [load, bytes_eq, List.getElem?_append_right (by omega), front, here,
          Nat.add_sub_cancel_left]
        rfl
      obtain ⟨after, stored⟩ :=
        middle.exists_store (show count < size by omega) array.bytes[count + 1]
      refine ⟨after, ?_, ?_⟩
      · rw [moveDown, List.range_succ, List.foldlM_append, ← moveDown, moved]
        simp [loaded, stored]
      · have taken : (array.bytes.drop 1).take (count + 1) =
            (array.bytes.drop 1).take count ++ [array.bytes[count + 1]] := by
          rw [List.take_succ_eq_append_getElem (by rw [List.length_drop]; omega), List.getElem_drop]
          simp only [Nat.add_comm]
        rw [(store_eq_some_iff.mp stored).2, bytes_eq,
          List.set_append_right _ _ (Nat.le_of_eq front), front, Nat.sub_self, here, taken,
          List.drop_eq_getElem_cons next_inside, List.set_cons_zero, List.append_assoc]
        rfl

theorem string_length_lt (holds : array.string = some string) : string.length < size := by
  rw [← array.sized]
  exact length_lt_of_read holds

/-- The array holds the string copied into it. -/
theorem string_strcpy (clean : 0 ∉ string) (copied : array.strcpy string = some after) :
    after.string = some string := by
  unfold strcpy at copied
  split at copied
  · rw [← Option.some.inj copied]
    exact read_token clean
  · cases copied

/-- A NUL inside the string cuts it off there. -/
theorem string_cut (holds : array.string = some string) {place : Nat}
    (inside : place ≤ string.length) (stored : array.store place 0 = some after) :
    after.string = some (string.take place) := by
  obtain ⟨clean, back, bytes_eq⟩ := read_eq_some_iff.mp holds
  refine read_eq_some_iff.mpr ⟨fun nul => clean (List.mem_of_mem_take nul), ?_⟩
  rw [(store_eq_some_iff.mp stored).2, ← bytes_eq, List.prefix_iff_eq_take]
  apply List.ext_getElem?
  intro i
  simp only [List.length_append, List.length_take, List.length_singleton, List.getElem?_append,
    List.getElem?_take, List.getElem?_set]
  grind

/-- A byte behind the NUL does not count. -/
theorem string_behind (holds : array.string = some string) {place : Nat} {byte : UInt8}
    (behind : string.length < place) (stored : array.store place byte = some after) :
    after.string = some string := by
  obtain ⟨clean, back, bytes_eq⟩ := read_eq_some_iff.mp holds
  have later : (string ++ [0]).length ≤ place := by
    rw [List.length_append, List.length_singleton]
    exact behind
  refine read_eq_some_iff.mpr ⟨clean, back.set (place - (string ++ [0]).length) byte, ?_⟩
  rw [(store_eq_some_iff.mp stored).2, ← bytes_eq, List.set_append_right _ _ later]

/-- A character in the place of the NUL, with a new NUL behind it, is appended to the
string. -/
theorem string_append (holds : array.string = some string) {char : UInt8} (notNul : char ≠ 0)
    {between : CharArray size} (stored : array.store string.length char = some between)
    (ended : between.store (string.length + 1) 0 = some after) :
    after.string = some (string ++ [char]) := by
  obtain ⟨clean, back, bytes_eq⟩ := read_eq_some_iff.mp holds
  have first : after.bytes = (array.bytes.set string.length char).set (string.length + 1) 0 := by
    rw [(store_eq_some_iff.mp ended).2, (store_eq_some_iff.mp stored).2]
  refine read_eq_some_iff.mpr ⟨?_, ?_⟩
  · rw [List.mem_append, List.mem_singleton, not_or]
    exact ⟨clean, Ne.symm notNul⟩
  · have room : string.length + 1 < size := (store_eq_some_iff.mp ended).1
    rw [← array.sized, ← bytes_eq] at room
    cases back with
    | nil => simp at room
    | cons next back =>
        refine ⟨back, ?_⟩
        rw [first, ← bytes_eq]
        simp

end CharArray

end CString
