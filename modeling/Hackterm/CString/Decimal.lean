import Hackterm.CString.Memory
import Mathlib.Algebra.Ring.Int.Defs

/-! # Decimal numbers in memory

`atoi` reads a decimal number that is spelled in memory and closed by a NUL as the
number itself (`CString.atoi_spell`).
-/

namespace CString

/-- The decimal digits at the start of a memory, read behind a number. -/
def digitsValue : Nat → List UInt8 → Option Nat
  | _, [] => none
  | value, byte :: bytes =>
      if 0x30 ≤ byte ∧ byte ≤ 0x39 then digitsValue (10 * value + (byte.toNat - 0x30)) bytes
      else some value

/-- The characters `isspace` accepts. -/
def isSpace (byte : UInt8) : Bool := byte == 0x20 || (0x09 ≤ byte && byte ≤ 0x0D)

/-- An optional sign and digits at the start of a memory. -/
def signedValue : List UInt8 → Option Int
  | [] => none
  | byte :: bytes =>
      if byte = 0x2D then (digitsValue 0 bytes).map fun value => -(value : Int)
      else if byte = 0x2B then (digitsValue 0 bytes).map fun value => (value : Int)
      else (digitsValue 0 (byte :: bytes)).map fun value => (value : Int)

/-- `atoi`. A number that does not fit an `int` is undefined. -/
def atoi (memory : List UInt8) : Option Int := do
  let value ← signedValue (memory.dropWhile isSpace)
  if -2 ^ 31 ≤ value ∧ value < 2 ^ 31 then some value else none

/-- The sign in front of a decimal number. -/
inductive Sign where
  | plus
  | minus
deriving DecidableEq

/-- The number that digits spell behind a number already read. -/
def digitsNumber : Nat → List (Fin 10) → Nat
  | value, [] => value
  | value, digit :: digits => digitsNumber (10 * value + digit) digits

/-- The integer an optional sign and digits spell. -/
def signedNumber : Option Sign → List (Fin 10) → Int
  | some .minus, digits => -(digitsNumber 0 digits : Int)
  | _, digits => digitsNumber 0 digits

/-- A decimal integer, optionally signed, that fits an `int`. -/
structure Decimal where
  sign : Option Sign
  digits : List (Fin 10)
  digits_ne_nil : digits ≠ []
  fits : -2 ^ 31 ≤ signedNumber sign digits ∧ signedNumber sign digits < 2 ^ 31

namespace Decimal

/-- The integer a decimal stands for. -/
def value (decimal : Decimal) : Int := signedNumber decimal.sign decimal.digits

/-- The character of a sign. -/
def signBytes : Option Sign → List UInt8
  | none => []
  | some .plus => [0x2B]
  | some .minus => [0x2D]

/-- The character of a digit. -/
def digitByte (digit : Fin 10) : UInt8 := 0x30 + UInt8.ofNat digit.val

/-- The characters of a decimal. -/
def spell (decimal : Decimal) : List UInt8 :=
  signBytes decimal.sign ++ decimal.digits.map digitByte

theorem digitByte_range (digit : Fin 10) : 0x30 ≤ digitByte digit ∧ digitByte digit ≤ 0x39 := by
  revert digit
  decide

theorem digitByte_value (digit : Fin 10) : (digitByte digit).toNat - 0x30 = digit := by
  revert digit
  decide

theorem digitByte_ne_signs (digit : Fin 10) :
    digitByte digit ≠ 0x2B ∧ digitByte digit ≠ 0x2D := by
  revert digit
  decide

/-- A decimal is spelled with digits and signs only. -/
theorem mem_spell {decimal : Decimal} {byte : UInt8} (member : byte ∈ decimal.spell) :
    byte = 0x2B ∨ byte = 0x2D ∨ 0x30 ≤ byte ∧ byte ≤ 0x39 := by
  rw [spell, List.mem_append] at member
  cases member with
  | inl member =>
      match decimal.sign, member with
      | some .plus, member => exact Or.inl (List.mem_singleton.mp member)
      | some .minus, member => exact Or.inr (Or.inl (List.mem_singleton.mp member))
  | inr member =>
      obtain ⟨digit, -, rfl⟩ := List.mem_map.mp member
      exact Or.inr (Or.inr (digitByte_range digit))

theorem notMem_spell (decimal : Decimal) {byte : UInt8} (other : byte ≠ 0x2B ∧ byte ≠ 0x2D)
    (noDigit : ¬ (0x30 ≤ byte ∧ byte ≤ 0x39)) : byte ∉ decimal.spell := by
  intro member
  obtain plus | minus | digit := mem_spell member
  · exact other.1 plus
  · exact other.2 minus
  · exact noDigit digit

theorem mem_spell_not_isSpace {decimal : Decimal} {byte : UInt8} (member : byte ∈ decimal.spell) :
    isSpace byte = false := by
  obtain rfl | rfl | ⟨atLeast, atMost⟩ := mem_spell member
  · decide
  · decide
  · have below : ¬ byte ≤ 0x0D := fun small => absurd (UInt8.le_trans atLeast small) (by decide)
    have notBlank : byte ≠ 0x20 := fun blank => absurd (blank ▸ atLeast) (by decide)
    simp [isSpace, below, notBlank]

theorem spell_ne_nil (decimal : Decimal) : decimal.spell ≠ [] := by
  simp [spell, decimal.digits_ne_nil]

end Decimal

/-- Digits are read up to the NUL that closes them. -/
theorem digitsValue_digits (digits : List (Fin 10)) (value : Nat) (rest : List UInt8) :
    digitsValue value (digits.map Decimal.digitByte ++ 0 :: rest) =
      some (digitsNumber value digits) := by
  induction digits generalizing value with
  | nil => rfl
  | cons digit digits ih =>
      rw [List.map_cons, List.cons_append, digitsValue, if_pos (Decimal.digitByte_range digit),
        Decimal.digitByte_value, ih, digitsNumber]

theorem signedValue_spell (decimal : Decimal) (rest : List UInt8) :
    signedValue (decimal.spell ++ 0 :: rest) = some decimal.value := by
  obtain ⟨sign, digits, nonempty, fits⟩ := decimal
  have reads := digitsValue_digits digits 0 rest
  rw [Decimal.spell, Decimal.value]
  cases sign with
  | none =>
      obtain ⟨first, digits, rfl⟩ := List.exists_cons_of_ne_nil nonempty
      obtain ⟨notPlus, notMinus⟩ := Decimal.digitByte_ne_signs first
      rw [List.map_cons, List.cons_append] at reads
      rw [Decimal.signBytes, List.nil_append, List.map_cons, List.cons_append, signedValue,
        if_neg notMinus, if_neg notPlus, reads]
      rfl
  | some sign =>
      cases sign with
      | plus =>
          change signedValue (0x2B :: (digits.map Decimal.digitByte ++ 0 :: rest)) = _
          rw [signedValue, if_neg (by decide), if_pos rfl, reads]
          rfl
      | minus =>
          change signedValue (0x2D :: (digits.map Decimal.digitByte ++ 0 :: rest)) = _
          rw [signedValue, if_pos rfl, reads]
          rfl

/-- **`atoi` reads a decimal.** The number spelled in memory and closed by a NUL is
the number read. -/
theorem atoi_spell (decimal : Decimal) (rest : List UInt8) :
    atoi (decimal.spell ++ 0 :: rest) = some decimal.value := by
  obtain ⟨first, others, spelled⟩ := List.exists_cons_of_ne_nil decimal.spell_ne_nil
  have visible : isSpace first = false :=
    Decimal.mem_spell_not_isSpace (by rw [spelled]; exact List.mem_cons_self)
  have kept : (decimal.spell ++ 0 :: rest).dropWhile isSpace = decimal.spell ++ 0 :: rest := by
    rw [spelled, List.cons_append, List.dropWhile_cons_of_neg (by simp [visible])]
  rw [atoi, kept, signedValue_spell, Option.bind_eq_bind, Option.bind_some]
  exact if_pos decimal.fits

end CString
