import Mathlib.Data.Nat.Find

/-! # Maximal runs

A place at which a property holds lies in one maximal run of such places, if the property ends
at all (`Scan.maximalRun_exists`, `Scan.MaximalRun.unique`).
-/

namespace Scan

/-- The places from `first` up to `behind` are the maximal run around a place. -/
structure MaximalRun (holds : Nat → Bool) (place first behind : Nat) : Prop where
  begins : first ≤ place
  ends : place < behind
  all : ∀ x, first ≤ x → x < behind → holds x = true
  left : first = 0 ∨ holds (first - 1) = false
  right : holds behind = false

variable {holds : Nat → Bool} {place : Nat}

/-- A run can be followed to the left. -/
theorem run_left (holds : Nat → Bool) (place : Nat) (here : holds place = true) :
    ∃ first ≤ place, (∀ x, first ≤ x → x ≤ place → holds x = true) ∧
      (first = 0 ∨ holds (first - 1) = false) := by
  induction place with
  | zero => exact ⟨0, le_rfl, fun x _ below => Nat.le_zero.mp below ▸ here, Or.inl rfl⟩
  | succ place ih =>
      cases before : holds place with
      | false =>
          refine ⟨place + 1, le_rfl, fun x above below => ?_, Or.inr before⟩
          exact Nat.le_antisymm below above ▸ here
      | true =>
          obtain ⟨first, begins, all, left⟩ := ih before
          refine ⟨first, by omega, fun x above below => ?_, left⟩
          rcases Nat.le_succ_iff.mp below with earlier | rfl
          · exact all x above earlier
          · exact here

/-- A place at which the property holds lies in a maximal run. -/
theorem maximalRun_exists (here : holds place = true) (stops : ∃ x, place ≤ x ∧ holds x = false) :
    ∃ first behind, MaximalRun holds place first behind := by
  obtain ⟨first, begins, all, left⟩ := run_left holds place here
  obtain ⟨beyond, right⟩ := Nat.find_spec stops
  have none_ (x : Nat) (above : place ≤ x) (below : x < Nat.find stops) : holds x = true := by
    have earlier := Nat.find_min stops below
    rw [not_and, Bool.not_eq_false] at earlier
    exact earlier above
  refine ⟨first, Nat.find stops, begins, ?_, fun x above below => ?_, left, right⟩
  · refine Nat.lt_of_le_of_ne beyond fun same => ?_
    rw [← same, here] at right
    cases right
  · rcases Nat.le_total x place with before | after
    · exact all x above before
    · exact none_ x after below

/-- A place lies in one maximal run only. -/
theorem MaximalRun.unique {first behind first' behind' : Nat}
    (run : MaximalRun holds place first behind) (other : MaximalRun holds place first' behind') :
    first = first' ∧ behind = behind' := by
  have before {a b a' b' : Nat} (run : MaximalRun holds place a b)
      (other : MaximalRun holds place a' b') : a ≤ a' := by
    by_contra later
    have begins := run.begins
    have ends := other.ends
    have holding := other.all (a - 1) (by omega) (by omega)
    rcases run.left with zero | stops
    · omega
    · rw [holding] at stops
      cases stops
  have beyond {a b a' b' : Nat} (run : MaximalRun holds place a b)
      (other : MaximalRun holds place a' b') : b ≤ b' := by
    by_contra later
    have ends := other.ends
    have begins := run.begins
    have holding := run.all b' (by omega) (by omega)
    rw [other.right] at holding
    cases holding
  exact ⟨Nat.le_antisymm (before run other) (before other run),
    Nat.le_antisymm (beyond run other) (beyond other run)⟩

end Scan
