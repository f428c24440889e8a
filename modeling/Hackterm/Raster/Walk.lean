import Mathlib.Algebra.Order.Group.Abs
import Mathlib.Algebra.Order.Ring.Abs
import Mathlib.Algebra.Order.Ring.Int
import Mathlib.Tactic.Ring

/-! # Walking along a line on a grid

A walk leads from the origin along the straight line to a place `(dx, dy)` of the first
quadrant. Each step looks at the deviation from the line only and goes right, up or both
(`Raster.advance`). The coordinate of the larger extent grows at every step
(`Raster.walk_major`), so the walk arrives after as many steps
(`Raster.walk_arrives`), and it never leaves the line by more than half a step
(`Raster.walk_near`).
-/

namespace Raster

/-- How far a place lies above the line to `(dx, dy)`, along either axis and multiplied by
the extent of the other. -/
def deviation (dx dy : Int) (place : Int × Int) : Int := dx * place.2 - dy * place.1

/-- One step of a walk. -/
def advance (dx dy : Int) (place : Int × Int) : Int × Int :=
  let ahead := 2 * (deviation dx dy place + dx - dy)
  (if -dy < ahead then place.1 + 1 else place.1, if ahead < dx then place.2 + 1 else place.2)

/-- The place after so many steps. -/
def walk (dx dy : Int) : Nat → Int × Int
  | 0 => (0, 0)
  | steps + 1 => advance dx dy (walk dx dy steps)

/-- The place lies within half a step of the line, along the axis of the smaller extent. -/
def Near (dx dy : Int) (place : Int × Int) : Prop := 2 * |deviation dx dy place| ≤ max dx dy

/-- A step forward: the coordinate of the larger extent grows by one, and the other one
by one at most. -/
structure Strides (dx dy : Int) (place next : Int × Int) : Prop where
  first : next.1 = place.1 ∨ next.1 = place.1 + 1
  second : next.2 = place.2 ∨ next.2 = place.2 + 1
  wide : dy ≤ dx → next.1 = place.1 + 1
  steep : dx ≤ dy → next.2 = place.2 + 1

/-- A multiple of an extent that is shorter than the extent is zero. -/
theorem eq_zero_of_abs_mul_le {extent count : Int} (present : 0 < extent)
    (short : 2 * |extent * count| ≤ extent) : count = 0 := by
  by_contra other
  have multiple : extent ≤ |extent * count| := by
    rw [abs_mul, abs_of_pos present]
    exact le_mul_of_one_le_right present.le (Int.one_le_abs other)
  omega

section Steps

variable {dx dy : Int} {place next : Int × Int}

theorem deviation_swap (dx dy : Int) (place : Int × Int) :
    deviation dy dx place.swap = -deviation dx dy place := by
  unfold deviation
  rw [Prod.fst_swap, Prod.snd_swap]
  ring

theorem near_swap : Near dy dx place.swap ↔ Near dx dy place := by
  rw [Near, deviation_swap, abs_neg, max_comm, Near]

/-- The two axes are treated alike. -/
theorem advance_swap (dx dy : Int) (place : Int × Int) :
    advance dy dx place.swap = (advance dx dy place).swap := by
  unfold advance
  rw [deviation_swap]
  dsimp only [Prod.swap]
  congr 1
  · exact if_congr (by omega) rfl rfl
  · exact if_congr (by omega) rfl rfl

theorem Strides.swap (strides : Strides dx dy place next) :
    Strides dy dx place.swap next.swap :=
  ⟨strides.second, strides.first, strides.steep, strides.wide⟩

/-- A step along a line that is wider than high. -/
theorem advance_wide (wide : dy ≤ dx) (present : 0 < dx) (positive : 0 ≤ dy)
    (near : Near dx dy place) :
    Strides dx dy place (advance dx dy place) ∧ Near dx dy (advance dx dy place) := by
  obtain ⟨x, y⟩ := place
  have right : deviation dx dy (x + 1, y) = deviation dx dy (x, y) - dy := by
    unfold deviation
    ring
  have up : deviation dx dy (x + 1, y + 1) = deviation dx dy (x, y) - dy + dx := by
    unfold deviation
    ring
  -- on the diagonal the deviation is a multiple of the extent
  have diagonal : dx = dy → deviation dx dy (x, y) = dx * (y - x) := by
    rintro rfl
    unfold deviation
    ring
  have odd : dx = dy → 2 * deviation dx dy (x, y) ≠ -dx := by
    intro same half
    rw [diagonal same] at half
    have twice : dx * (2 * (y - x) + 1) = 0 := by
      rw [mul_add, mul_one, mul_left_comm]
      omega
    rcases mul_eq_zero.mp twice with none_ | none_ <;> omega
  rw [Near, max_eq_left wide] at near
  obtain ⟨below, above⟩ := abs_le.mp (show |deviation dx dy (x, y)| ≤ dx / 2 by omega)
  have goes : -dy < 2 * (deviation dx dy (x, y) + dx - dy) := by
    by_cases same : dx = dy
    · have other := odd same
      omega
    · omega
  unfold advance
  dsimp only
  rw [if_pos goes, Near, max_eq_left wide]
  split
  · refine ⟨⟨Or.inr rfl, Or.inr rfl, fun _ => rfl, fun _ => rfl⟩, ?_⟩
    have near' : |deviation dx dy (x + 1, y + 1)| ≤ dx / 2 := by
      rw [up, abs_le]
      omega
    omega
  · refine ⟨⟨Or.inr rfl, Or.inl rfl, fun _ => rfl, fun steep => ?_⟩, ?_⟩
    · -- on the diagonal every step goes up
      have same : dx = dy := le_antisymm steep wide
      rw [diagonal same] at near
      have onLine := diagonal same
      rw [eq_zero_of_abs_mul_le present near, mul_zero] at onLine
      omega
    · have near' : |deviation dx dy (x + 1, y)| ≤ dx / 2 := by
        rw [right, abs_le]
        omega
      omega

/-- **One step.** From a place near the line a step goes forward and stays near it. -/
theorem advance_strides (present : 0 < max dx dy) (first : 0 ≤ dx) (second : 0 ≤ dy)
    (near : Near dx dy place) :
    Strides dx dy place (advance dx dy place) ∧ Near dx dy (advance dx dy place) := by
  rcases le_total dy dx with wide | steep
  · rw [max_eq_left wide] at present
    exact advance_wide wide present second near
  · rw [max_eq_right steep] at present
    obtain ⟨strides, close⟩ := advance_wide steep present first (near_swap.mpr near)
    rw [advance_swap] at strides close
    exact ⟨strides.swap, near_swap.mp close⟩

end Steps

section Walks

variable {dx dy : Int} (present : 0 < max dx dy) (first : 0 ≤ dx) (second : 0 ≤ dy)

include present first second

/-- **The walk stays near the line.** -/
theorem walk_near (steps : Nat) : Near dx dy (walk dx dy steps) := by
  induction steps with
  | zero =>
      have onLine : deviation dx dy (walk dx dy 0) = 0 := by
        unfold deviation walk
        ring
      rw [Near, onLine, abs_zero, mul_zero]
      exact present.le
  | succ steps ih => exact (advance_strides present first second ih).2

theorem walk_strides (steps : Nat) :
    Strides dx dy (walk dx dy steps) (walk dx dy (steps + 1)) :=
  (advance_strides present first second (walk_near present first second steps)).1

/-- The coordinate of the larger extent counts the steps. -/
theorem walk_major (steps : Nat) :
    (dy ≤ dx → (walk dx dy steps).1 = steps) ∧ (dx ≤ dy → (walk dx dy steps).2 = steps) := by
  induction steps with
  | zero => exact ⟨fun _ => rfl, fun _ => rfl⟩
  | succ steps ih =>
      have strides := walk_strides present first second steps
      refine ⟨fun wide => ?_, fun steep => ?_⟩
      · rw [strides.wide wide, ih.1 wide, Nat.cast_succ]
      · rw [strides.steep steep, ih.2 steep, Nat.cast_succ]

/-- **The walk arrives** after as many steps as the larger extent is long. -/
theorem walk_arrives (steps : Nat) : walk dx dy steps = (dx, dy) ↔ (steps : Int) = max dx dy := by
  have major := walk_major present first second steps
  constructor
  · intro arrived
    rcases le_total dy dx with wide | steep
    · rw [max_eq_left wide, ← major.1 wide, arrived]
    · rw [max_eq_right steep, ← major.2 steep, arrived]
  · intro all
    have near := walk_near present first second steps
    unfold Near deviation at near
    rcases le_total dy dx with wide | steep
    · have column : (walk dx dy steps).1 = dx := by rw [major.1 wide, all, max_eq_left wide]
      rw [max_eq_left wide] at near present
      rw [column, mul_comm dy dx, ← mul_sub] at near
      have row := eq_zero_of_abs_mul_le present near
      exact Prod.ext column (by dsimp only; omega)
    · have row : (walk dx dy steps).2 = dy := by rw [major.2 steep, all, max_eq_right steep]
      rw [max_eq_right steep] at near present
      rw [row, mul_comm dx dy, ← mul_sub] at near
      have column := eq_zero_of_abs_mul_le present near
      exact Prod.ext (by dsimp only; omega) row

/-- The walk does not pass the end on either axis. -/
theorem walk_le (steps : Nat) (inside : (steps : Int) ≤ max dx dy) :
    (walk dx dy steps).1 ≤ dx ∧ (walk dx dy steps).2 ≤ dy := by
  obtain ⟨left, total⟩ := Int.le.dest inside
  induction left generalizing steps with
  | zero =>
      rw [Nat.cast_zero, add_zero] at total
      rw [(walk_arrives present first second steps).mpr total]
      exact ⟨le_rfl, le_rfl⟩
  | succ left ih =>
      have further := ih (steps + 1) (by rw [Nat.cast_succ] at *; omega)
        (by rw [Nat.cast_succ] at *; omega)
      have strides := walk_strides present first second steps
      have across := strides.first
      have upward := strides.second
      omega

end Walks

end Raster
