import Mathlib.Algebra.Ring.Int.Defs

/-! # Numbers of the program

An `int` has 32 bits, and a result that does not fit is undefined (`Hackterm.IsInt`). As
`size_t` a negative one is a number close to 2^64 (`Hackterm.sizeT`).
-/

namespace Hackterm

/-- A number is an `int`. -/
def IsInt (number : Int) : Prop := -2 ^ 31 ≤ number ∧ number < 2 ^ 31

instance (number : Int) : Decidable (IsInt number) := inferInstanceAs (Decidable (_ ∧ _))

/-- An `int` as `size_t`. -/
def sizeT (n : Int) : Nat := (n % 2 ^ 64).toNat

theorem sizeT_of_nonneg {n : Int} (lower : 0 ≤ n) (upper : n < 2 ^ 31) : sizeT n = n.toNat := by
  rw [sizeT, Int.emod_eq_of_lt lower (by omega)]

theorem sizeT_of_neg {n : Int} (lower : -2 ^ 31 ≤ n) (upper : n < 0) :
    sizeT n = (n + 2 ^ 64).toNat := by
  rw [sizeT, ← Int.add_emod_right, Int.emod_eq_of_lt (by omega) (by omega)]

end Hackterm
