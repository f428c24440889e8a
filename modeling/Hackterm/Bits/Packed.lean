import Mathlib.Data.Nat.Bitwise

/-! # Bits packed into bytes

A table of bits is a list of bytes; a bit of it is named by its byte and its place in the
byte, least significant first. One bit is written by setting or clearing it in its
byte, and no other bit changes (`Bits.bitAt_setBit`). Bits outside the table can
neither be read nor written, which is `none`.
-/

namespace Bits

/-- A byte with one of its bits set or cleared. -/
def putBit (byte : UInt8) (bit : Nat) (value : Bool) : UInt8 :=
  if value then byte ||| (1 <<< UInt8.ofNat bit) else byte &&& ~~~(1 <<< UInt8.ofNat bit)

/-- A bit of a table. -/
def bitAt (bytes : List UInt8) (byte bit : Nat) : Option Bool :=
  bytes[byte]?.map fun stored => stored.toNat.testBit bit

/-- A table with one of its bits written. -/
def setBit (bytes : List UInt8) (byte bit : Nat) (value : Bool) : Option (List UInt8) :=
  bytes[byte]?.map fun stored => bytes.set byte (putBit stored bit value)

/-- The mask of a bit has that bit only. -/
theorem testBit_mask {bit : Nat} (small : bit < 8) (i : Nat) :
    (1 <<< UInt8.ofNat bit : UInt8).toNat.testBit i = decide (bit = i) := by
  have mask : ∀ bit : Fin 8, (1 <<< UInt8.ofNat bit : UInt8).toNat = 2 ^ bit.val := by decide
  rw [mask ⟨bit, small⟩, Nat.testBit_two_pow]

theorem testBit_byte (byte : UInt8) {i : Nat} (large : 8 ≤ i) : byte.toNat.testBit i = false := by
  apply Nat.testBit_lt_two_pow
  exact byte.toNat_lt.trans_le (Nat.pow_le_pow_right (by decide) large)

theorem testBit_not (byte : UInt8) {i : Nat} (small : i < 8) :
    (~~~byte).toNat.testBit i = !byte.toNat.testBit i := by
  rw [← UInt8.toNat_toBitVec, ← UInt8.toNat_toBitVec, BitVec.testBit_toNat, BitVec.testBit_toNat,
    UInt8.toBitVec_not, BitVec.getLsbD_not, decide_eq_true small, Bool.true_and]

/-- Writing a bit of a byte changes that bit only. -/
theorem testBit_putBit (byte : UInt8) {bit : Nat} (small : bit < 8) (value : Bool) (i : Nat) :
    (putBit byte bit value).toNat.testBit i = if i = bit then value else byte.toNat.testBit i := by
  have mask := testBit_mask small i
  unfold putBit
  cases value with
  | true =>
      rw [if_pos rfl, UInt8.toNat_or, Nat.testBit_or, mask]
      split_ifs with same
      · rw [decide_eq_true same.symm, Bool.or_true]
      · rw [decide_eq_false (Ne.symm same), Bool.or_false]
  | false =>
      rw [if_neg Bool.false_ne_true, UInt8.toNat_and, Nat.testBit_and]
      by_cases inside : i < 8
      · rw [testBit_not _ inside, mask]
        split_ifs with same
        · rw [decide_eq_true same.symm, Bool.not_true, Bool.and_false]
        · rw [decide_eq_false (Ne.symm same), Bool.not_false, Bool.and_true]
      · rw [testBit_byte byte (Nat.le_of_not_lt inside), Bool.false_and, ite_self]

/-- A bit inside the table can be written. -/
theorem setBit_eq {bytes : List UInt8} {byte : Nat} (inside : byte < bytes.length) (bit : Nat)
    (value : Bool) :
    setBit bytes byte bit value = some (bytes.set byte (putBit bytes[byte] bit value)) := by
  rw [setBit, List.getElem?_eq_getElem inside, Option.map_some]

/-- A bit that was written is inside the table, whose size stays. -/
theorem setBit_inside {bytes written : List UInt8} {byte bit : Nat} {value : Bool}
    (wrote : setBit bytes byte bit value = some written) :
    byte < bytes.length ∧ written.length = bytes.length := by
  obtain ⟨stored, read, rfl⟩ := Option.map_eq_some_iff.mp wrote
  exact ⟨(List.getElem?_eq_some_iff.mp read).1, List.length_set⟩

/-- **One bit.** Writing a bit of a table changes that bit only. -/
theorem bitAt_setBit {bytes written : List UInt8} {byte bit : Nat} {value : Bool} (small : bit < 8)
    (wrote : setBit bytes byte bit value = some written) (otherByte otherBit : Nat) :
    bitAt written otherByte otherBit =
      if otherByte = byte ∧ otherBit = bit then some value else bitAt bytes otherByte otherBit := by
  obtain ⟨stored, read, rfl⟩ := Option.map_eq_some_iff.mp wrote
  have inside := (List.getElem?_eq_some_iff.mp read).1
  unfold bitAt
  by_cases here : otherByte = byte
  · subst here
    rw [List.getElem?_set_self inside, read, Option.map_some, Option.map_some,
      testBit_putBit stored small]
    by_cases same : otherBit = bit
    · rw [if_pos same, if_pos ⟨rfl, same⟩]
    · rw [if_neg same, if_neg fun both => same both.2]
  · rw [List.getElem?_set_ne (Ne.symm here), if_neg fun both => here both.1]

/-- No bit of a table of zeros is set. -/
theorem bitAt_replicate {length byte : Nat} (inside : byte < length) (bit : Nat) :
    bitAt (List.replicate length 0) byte bit = some false := by
  rw [bitAt, List.getElem?_replicate_of_lt inside, Option.map_some, UInt8.toNat_zero,
    Nat.zero_testBit]

end Bits
