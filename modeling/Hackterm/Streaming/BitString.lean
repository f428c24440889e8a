import Mathlib.Data.Nat.Bitwise
import Mathlib.Algebra.BigOperators.Group.List.Basic
import Mathlib.Tactic.Ring
import Hackterm.Streaming.Transducer

/-! # Bit strings and their regrouping

A number is spelled as a bit string, most significant bit first, and bits that
arrive in groups of one width are regrouped into groups of another by a
transducer that keeps the bits of the unfinished group
(`Streaming.BitString.regroup`). The transducer loses nothing: after any run the
emitted groups followed by the pending bits spell the pending bits before it
followed by the input (`Streaming.BitString.regroup_run_flatten`).
-/

namespace Streaming.BitString

/-- The lowest `width` bits of a number, most significant first. -/
def spell : Nat → Nat → List Bool
  | 0, _ => []
  | width + 1, number => number.testBit width :: spell width number

/-- The number a bit string spells. -/
def value (bits : List Bool) : Nat :=
  bits.foldl (fun number bit => 2 * number + bit.toNat) 0

@[simp] theorem length_spell (width number : Nat) : (spell width number).length = width := by
  induction width with
  | zero => rfl
  | succ width ih => rw [spell, List.length_cons, ih]

theorem foldl_bits (bits : List Bool) (number : Nat) :
    bits.foldl (fun number bit => 2 * number + bit.toNat) number =
      number * 2 ^ bits.length + value bits := by
  induction bits generalizing number with
  | nil => simp [value]
  | cons bit bits ih =>
      rw [value, List.foldl_cons, List.foldl_cons, ih, ih (2 * 0 + bit.toNat), List.length_cons]
      ring

theorem value_cons (bit : Bool) (bits : List Bool) :
    value (bit :: bits) = bit.toNat * 2 ^ bits.length + value bits := by
  rw [value, List.foldl_cons, foldl_bits, Nat.mul_zero, Nat.zero_add]

/-- A spelled number reads back modulo the width. -/
theorem value_spell (width number : Nat) : value (spell width number) = number % 2 ^ width := by
  induction width with
  | zero => simp [spell, value, Nat.mod_one]
  | succ width ih =>
      rw [spell, value_cons, length_spell, ih, Nat.mod_pow_succ, Nat.toNat_testBit]
      ring

/-- The high bits of a spelling are the spelling of the quotient. -/
theorem spell_add (high low number : Nat) :
    spell (high + low) number = spell high (number / 2 ^ low) ++ spell low number := by
  induction high with
  | zero => simp [spell]
  | succ high ih =>
      rw [Nat.add_right_comm, spell, spell, ih, List.cons_append, Nat.testBit_div_two_pow]

/-- Only the lowest bits matter to a spelling. -/
theorem spell_mod (width number : Nat) : spell width (number % 2 ^ width) = spell width number := by
  suffices bounded : ∀ count ≤ width, spell count (number % 2 ^ width) = spell count number from
    bounded width le_rfl
  intro count
  induction count with
  | zero => intro _; rfl
  | succ count ih =>
      intro below
      rw [spell, spell, ih (by omega), Nat.testBit_mod_two_pow,
        decide_eq_true (show count < width by omega), Bool.true_and]

/-- A bit string is the spelling of its value. -/
theorem spell_value (bits : List Bool) : spell bits.length (value bits) = bits := by
  induction bits with
  | nil => rfl
  | cons bit bits ih =>
      have small : value bits < 2 ^ bits.length := by
        have reread := congrArg value ih
        rw [value_spell] at reread
        rw [← reread]
        exact Nat.mod_lt _ (Nat.two_pow_pos _)
      rw [List.length_cons, spell, value_cons, ← spell_mod bits.length, Nat.mul_add_mod_self_right,
        spell_mod, ih]
      congr 1
      rw [Nat.mul_comm, Nat.testBit_two_pow_mul_add _ small]
      cases bit <;> simp

/-- Collect bits into groups of a width. The state is the unfinished group. -/
def regroup (width : Nat) : Transducer (List Bool) Bool (List Bool) where
  step pending bit :=
    if pending.length + 1 = width then ([], [pending ++ [bit]]) else (pending ++ [bit], [])

theorem regroup_step_flatten (width : Nat) (pending : List Bool) (bit : Bool) :
    ((regroup width).step pending bit).2.flatten ++ ((regroup width).step pending bit).1 =
      pending ++ [bit] := by
  unfold regroup
  dsimp only
  split <;> simp

/-- Regrouping only inserts group boundaries. -/
theorem regroup_run_flatten (width : Nat) (pending bits : List Bool) :
    ((regroup width).run pending bits).2.flatten ++ ((regroup width).run pending bits).1 =
      pending ++ bits := by
  induction bits generalizing pending with
  | nil => simp
  | cons bit bits ih =>
      rw [Transducer.run_cons, List.flatten_append, List.append_assoc, ih, ← List.append_assoc,
        regroup_step_flatten, List.append_assoc, List.singleton_append]

/-- Every emitted group is full. -/
theorem regroup_run_full (width : Nat) (pending bits : List Bool) :
    ∀ group ∈ ((regroup width).run pending bits).2, group.length = width := by
  induction bits generalizing pending with
  | nil => simp
  | cons bit bits ih =>
      intro group member
      rw [Transducer.run_cons, List.mem_append] at member
      rcases member with here | later
      · simp only [regroup] at here
        split at here
        · rename_i full
          rw [List.mem_singleton.mp here, List.length_append, List.length_singleton, full]
        · simp at here
      · exact ih _ group later

/-- The unfinished group stays unfinished. -/
theorem regroup_run_pending (width : Nat) (pending bits : List Bool)
    (unfinished : pending.length < width) :
    ((regroup width).run pending bits).1.length < width := by
  refine Transducer.run_invariant _ (fun state => state.length < width) (fun _ => True) ?_ pending
    bits (fun _ _ => trivial) unfinished
  intro state bit _ short
  unfold regroup
  dsimp only
  split
  · exact Nat.zero_lt_of_lt short
  · rw [List.length_append, List.length_singleton]
    omega

/-- The number of groups is the number of bits over the width. -/
theorem regroup_run_length (width : Nat) (pending bits : List Bool) :
    width * ((regroup width).run pending bits).2.length +
        ((regroup width).run pending bits).1.length = pending.length + bits.length := by
  have kept := congrArg List.length (regroup_run_flatten width pending bits)
  rw [List.length_append, List.length_append, List.length_flatten,
    List.map_eq_replicate_iff.mpr (regroup_run_full width pending bits), List.sum_replicate,
    Nat.nsmul_eq_mul, Nat.mul_comm] at kept
  exact kept

/-- Bits that do not fill the group are kept. -/
theorem regroup_run_short (width : Nat) (pending bits : List Bool)
    (short : pending.length + bits.length < width) :
    (regroup width).run pending bits = (pending ++ bits, []) := by
  induction bits generalizing pending with
  | nil => simp
  | cons bit bits ih =>
      rw [List.length_cons] at short
      have stepped : (regroup width).step pending bit = (pending ++ [bit], []) :=
        if_neg (by omega)
      have shorter : (pending ++ [bit]).length + bits.length < width := by
        rw [List.length_append, List.length_singleton]
        omega
      rw [Transducer.run_cons, stepped, ih _ shorter]
      simp

/-- A full group is emitted at its last bit. -/
theorem regroup_run_group (width : Nat) (positive : 0 < width) (group : List Bool)
    (full : group.length = width) : (regroup width).run [] group = ([], [group]) := by
  obtain ⟨front, last, rfl⟩ : ∃ front last, group = front ++ [last] :=
    ⟨group.dropLast, group.getLast (by intro empty; simp [empty] at full; omega),
      (List.dropLast_append_getLast _).symm⟩
  rw [List.length_append, List.length_singleton] at full
  have stepped : (regroup width).step front last = ([], [front ++ [last]]) := if_pos full
  rw [Transducer.run_append, regroup_run_short width [] front (by simp; omega)]
  simp only [List.nil_append, Transducer.run_cons, Transducer.run_nil, stepped, List.append_nil]

end Streaming.BitString
