import Mathlib.Data.List.Basic
import Mathlib.Data.List.GetD
import Hackterm.Layout.Pages

/-! # Columns of cells

In a row of cells a piece of two columns stands in a cell, and a gap in the one behind it. Cells
are measured by the gaps behind them (`Layout.measured`), and a cell of two columns hides the one
behind it (`Layout.visible`). A row of pieces is seen as its pieces, each at its own column, and
blanks behind them (`Layout.visible_row`).
-/

namespace Layout

variable {α β : Type*}

/-- The cells that are seen from a column on; the first may be hidden. -/
def visibleFrom (hidden : Bool) (column : Nat) : List (β × Nat) → List (Nat × β)
  | [] => []
  | (cell, width) :: cells =>
      if hidden then visibleFrom false (column + 1) cells
      else (column, cell) :: visibleFrom (width = 2) (column + 1) cells

/-- The cells of a row that are seen, with their columns. -/
def visible (cells : List (β × Nat)) : List (Nat × β) := visibleFrom false 0 cells

section Measures

variable (isGap : β → Bool)

/-- The cells of a row with their widths. -/
def measured : List β → List (β × Nat)
  | [] => []
  | cell :: cells => (cell, if cells.head?.any isGap then 2 else 1) :: measured cells

theorem length_measured (cells : List β) : (measured isGap cells).length = cells.length := by
  induction cells with
  | nil => rfl
  | cons cell cells ih => rw [measured, List.length_cons, ih, List.length_cons]

/-- A cell is measured by the next one. -/
theorem getElem?_measured (cells : List β) (column : Nat) :
    (measured isGap cells)[column]? = cells[column]?.map fun cell =>
      (cell, if cells[column + 1]?.any isGap then 2 else 1) := by
  induction cells generalizing column with
  | nil => rfl
  | cons cell cells ih =>
      cases column with
      | zero =>
          rw [measured, List.getElem?_cons_zero, List.getElem?_cons_zero, Option.map_some,
            List.getElem?_cons_succ, ← List.head?_eq_getElem?]
      | succ column => rw [measured, List.getElem?_cons_succ, ih, List.getElem?_cons_succ,
          List.getElem?_cons_succ]

/-- Cells that are given by their columns. -/
theorem measured_range (cellAt : Nat → β) (width : Nat) :
    measured isGap ((List.range width).map cellAt) = (List.range width).map fun column =>
      (cellAt column,
        if column + 1 < width ∧ isGap (cellAt (column + 1)) = true then 2 else 1) := by
  refine List.ext_getElem? fun column => ?_
  rw [getElem?_measured, List.getElem?_map, List.getElem?_map, List.getElem?_map, Option.map_map]
  by_cases inside : column < width
  · rw [List.getElem?_range inside, Option.map_some, Option.map_some, Function.comp_apply]
    by_cases next : column + 1 < width
    · rw [List.getElem?_range next, Option.map_some, Option.any_some]
      simp only [next, true_and]
    · have none_ : (List.range width)[column + 1]? = none :=
        List.getElem?_eq_none (by rw [List.length_range]; exact Nat.not_lt.mp next)
      have last : ¬ (column + 1 < width ∧ isGap (cellAt (column + 1)) = true) :=
        fun both => next both.1
      rw [none_, if_neg last]
      rfl
  · have none_ : (List.range width)[column]? = none :=
      List.getElem?_eq_none (by rw [List.length_range]; exact Nat.not_lt.mp inside)
    rw [none_]
    rfl

end Measures

/-- A row with blanks behind it, up to a width. -/
theorem take_append_blanks (row : List β) (width : Nat) (blank : β) :
    (row ++ List.replicate width blank).take width =
      (List.range width).map fun column => row.getD column blank := by
  refine List.ext_getElem (by simp) fun column inRow inRange => ?_
  rw [List.length_map, List.length_range] at inRange
  rw [List.getElem_take, List.getElem_map, List.getElem_range]
  by_cases before : column < row.length
  · rw [List.getElem_append_left before, List.getD_eq_getElem _ _ before]
  · rw [List.getElem_append_right (Nat.not_lt.mp before), List.getElem_replicate,
      List.getD_eq_default _ _ (Nat.not_lt.mp before)]

variable (columns : α → Nat) (glyph : α → β) (gap : β)

/-- The cells of a piece: its glyph, and gaps behind it. -/
def cellsOf (piece : α) : List β := glyph piece :: List.replicate (columns piece - 1) gap

/-- Pieces with the columns they begin in. -/
def placed (column : Nat) : List α → List (Nat × β)
  | [] => []
  | piece :: pieces => (column, glyph piece) :: placed (column + columns piece) pieces

theorem placed_append (column : Nat) (front back : List α) :
    placed columns glyph column (front ++ back) =
      placed columns glyph column front ++
        placed columns glyph (column + filled columns front) back := by
  induction front generalizing column with
  | nil => rfl
  | cons piece front ih =>
      have size : filled columns (piece :: front) = columns piece + filled columns front :=
        List.sum_cons
      rw [List.cons_append, placed, ih, placed, List.cons_append, size, Nat.add_assoc]

/-- What is made of pieces in their columns. -/
theorem map_placed {γ δ : Type*} {other : α → γ} {f : Nat × β → δ} {g : Nat × γ → δ}
    (same : ∀ column piece, f (column, glyph piece) = g (column, other piece))
    (column : Nat) (row : List α) :
    (placed columns glyph column row).map f = (placed columns other column row).map g := by
  induction row generalizing column with
  | nil => rfl
  | cons piece row ih => rw [placed, List.map_cons, same, ih, placed, List.map_cons]

theorem length_cells (bounds : ∀ piece, 1 ≤ columns piece ∧ columns piece ≤ 2) (row : List α) :
    (row.flatMap (cellsOf columns glyph gap)).length = filled columns row := by
  unfold filled
  rw [List.length_flatMap]
  congr 1
  refine List.map_congr_left fun piece _ => ?_
  have one := (bounds piece).1
  rw [cellsOf, List.length_cons, List.length_replicate]
  omega

variable {isGap : β → Bool}

/-- **Pieces are seen where they begin**, in front of cells that begin with no gap. -/
theorem visibleFrom_cells (bounds : ∀ piece, 1 ≤ columns piece ∧ columns piece ≤ 2)
    (gaps : isGap gap = true) (glyphs : ∀ piece, isGap (glyph piece) = false)
    (row : List α) (behind : List β) (next : behind.head?.any isGap = false) (column : Nat) :
    visibleFrom false column (measured isGap (row.flatMap (cellsOf columns glyph gap) ++ behind)) =
      placed columns glyph column row ++
        visibleFrom false (column + filled columns row) (measured isGap behind) := by
  induction row generalizing column with
  | nil => rfl
  | cons piece row ih =>
      have size : filled columns (piece :: row) = columns piece + filled columns row :=
        List.sum_cons
      have first : (row.flatMap (cellsOf columns glyph gap) ++ behind).head?.any isGap = false := by
        cases row with
        | nil => exact next
        | cons other row => exact glyphs other
      rw [List.flatMap_cons, List.append_assoc, cellsOf, size, ← Nat.add_assoc, placed]
      obtain one | two : columns piece = 1 ∨ columns piece = 2 := by
        have both := bounds piece
        omega
      · rw [one, List.replicate_zero, List.singleton_append, measured, first, List.cons_append,
          ← ih]
        rfl
      · have shown : (List.replicate 1 gap ++ (row.flatMap (cellsOf columns glyph gap) ++
            behind)).head?.any isGap = true := gaps
        rw [two, List.cons_append, measured, shown, List.cons_append, ← ih]
        rfl

/-- Blanks are seen in all their columns. -/
theorem visibleFrom_blanks {blank : β} (noGap : isGap blank = false) (count column : Nat) :
    visibleFrom false column (measured isGap (List.replicate count blank)) =
      (List.range' column count).map (·, blank) := by
  induction count generalizing column with
  | zero => rfl
  | succ count ih =>
      have next : (List.replicate count blank).head?.any isGap = false := by
        cases count with
        | zero => rfl
        | succ count => exact noGap
      rw [List.replicate_succ, measured, next, List.range'_succ, List.map_cons, ← ih]
      rfl

/-- **A row of pieces** is seen as its pieces and blanks behind them, also where the last piece
is cut off at the right margin. -/
theorem visible_row (bounds : ∀ piece, 1 ≤ columns piece ∧ columns piece ≤ 2)
    (gaps : isGap gap = true) (glyphs : ∀ piece, isGap (glyph piece) = false) {blank : β}
    (noGap : isGap blank = false) {width : Nat} {row : List α} (begins : Begins columns width row) :
    visible (measured isGap ((row.flatMap (cellsOf columns glyph gap) ++
        List.replicate width blank).take width)) =
      placed columns glyph 0 row ++
        (List.range' (filled columns row) (width - filled columns row)).map (·, blank) := by
  have length := length_cells columns glyph gap bounds
  unfold visible
  by_cases fits : filled columns row ≤ width
  · have next : (List.replicate (width - filled columns row) blank).head?.any isGap = false := by
      cases width - filled columns row with
      | zero => rfl
      | succ count => exact noGap
    rw [List.take_append, length, List.take_of_length_le (by rw [length]; exact fits),
      List.take_replicate, Nat.min_eq_left (Nat.sub_le _ _),
      visibleFrom_cells columns glyph gap bounds gaps glyphs _ _ next, Nat.zero_add,
      visibleFrom_blanks noGap]
  · -- only the gap of the last piece is cut off
    rcases List.eq_nil_or_concat row with rfl | ⟨front, last, rfl⟩
    · exact absurd (Nat.zero_le width) fits
    rw [List.concat_eq_append] at begins fits ⊢
    have room := begins front last rfl
    have size := filled_concat columns front last
    have two := bounds last
    have shown : columns last = 2 ∧ width - filled columns front = 1 := by omega
    have single : (cellsOf columns glyph gap last ++ List.replicate width blank).take 1 =
        [glyph last] := rfl
    have next : [glyph last].head?.any isGap = false := glyphs last
    rw [List.flatMap_append, List.flatMap_singleton, List.append_assoc, List.take_append, length,
      List.take_of_length_le (by rw [length]; exact room.le), shown.2, single,
      visibleFrom_cells columns glyph gap bounds gaps glyphs _ _ next, placed_append,
      Nat.sub_eq_zero_of_le (by omega), List.range'_zero, List.map_nil, List.append_nil]
    rfl

end Layout
