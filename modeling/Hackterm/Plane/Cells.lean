import Mathlib.Data.List.Basic
import Mathlib.Data.List.GetD
import Mathlib.Order.Lattice
import Mathlib.Tactic.SplitIfs

/-! # Cells in the plane

A plane has cells at some of its places (`Planes.Plane`). The cells of a region are changed
where they are (`Planes.change`), or the region is shifted at once (`Planes.shift`). A plane
that shows rows of cells (`Planes.ofRows`) goes on showing rows: cells changed behind the end of
the last row are appended to it (`Planes.change_end`), and a shift by one row drops the first
(`Planes.shift_first`). The rows are read back from the plane (`Planes.readAll_ofRows`).
-/

namespace Planes

/-- Cells at some of the places of the plane. -/
abbrev Plane (α : Type*) := Int → Int → Option α

variable {α β : Type*} (region : Int → Int → Prop) [∀ row col, Decidable (region row col)]

/-- The cells of a region are changed. -/
def change (f : α → α) (plane : Plane α) : Plane α := fun row col =>
  if region row col then (plane row col).map f else plane row col

/-- The cells of a region are shifted, and blank where nothing is shifted to. -/
def shift (down right : Int) (blank : α) (plane : Plane α) : Plane α := fun row col =>
  if region row col then
    if region (row + down) (col + right) then plane (row + down) (col + right)
    else (plane row col).map fun _ => blank
  else plane row col

/-- What is seen of each cell. -/
def look (f : α → β) (plane : Plane α) : Plane β := fun row col => (plane row col).map f

section Rows

variable (height width : Nat) (blank : α)

/-- The places of a window. -/
def Window (row col : Int) : Prop := (0 ≤ row ∧ row < height) ∧ 0 ≤ col ∧ col < width

instance (row col : Int) : Decidable (Window height width row col) :=
  inferInstanceAs (Decidable (_ ∧ _))

/-- Rows of cells in a window, blank behind the end of each row and below the last one. -/
def ofRows (rows : List (List α)) : Plane α := fun row col =>
  if Window height width row col then some ((rows.getD row.toNat []).getD col.toNat blank)
  else none

/-- Rows with the same cells show the same. -/
theorem ofRows_congr {rows others : List (List α)}
    (same : ∀ row col, ((rows.getD row []).getD col blank) = (others.getD row []).getD col blank) :
    ofRows height width blank rows = ofRows height width blank others := by
  funext row col
  unfold ofRows
  rw [same]

/-- An empty row at the end is not seen. -/
theorem ofRows_concat_nil (rows : List (List α)) :
    ofRows height width blank (rows ++ [[]]) = ofRows height width blank rows := by
  apply ofRows_congr
  intro row col
  rcases Nat.lt_trichotomy row rows.length with above | rfl | below
  · rw [List.getD_append _ _ _ _ above]
  · rw [List.getD_append_right _ _ _ _ (Nat.le_refl _), Nat.sub_self,
      List.getD_eq_default rows _ (Nat.le_refl _)]
    rfl
  · have behind : (rows ++ [[]]).length ≤ row := by
      rw [List.length_append, List.length_singleton]
      exact below
    rw [List.getD_eq_default _ _ behind, List.getD_eq_default _ _ below.le]

/-- Cells that are changed behind the end of the last row are appended to it. -/
theorem change_end (front : List (List α)) (last : List α) (count : Nat) (f : α → α)
    (ends : ∀ row col, region row col ↔
      row = front.length ∧ (last.length : Int) ≤ col ∧ col < last.length + count) :
    change region f (ofRows height width blank (front ++ [last])) =
      ofRows height width blank (front ++ [last ++ List.replicate count (f blank)]) := by
  have row_last : ∀ row : List α, (front ++ [row]).getD front.length [] = row := by
    intro row
    rw [List.getD_append_right _ _ _ _ (Nat.le_refl _), Nat.sub_self]
    rfl
  funext row col
  unfold change ofRows
  simp only [ends]
  by_cases inside : Window height width row col
  swap
  · rw [if_neg inside, if_neg inside, Option.map_none, ite_self]
  rw [if_pos inside, if_pos inside, Option.map_some]
  obtain ⟨⟨top, -⟩, left, -⟩ := inside
  by_cases here : row = front.length
  · subst here
    rw [Int.toNat_natCast, row_last, row_last]
    by_cases before : col < last.length
    · rw [if_neg (by omega), List.getD_append _ _ _ _ (by omega)]
    · rw [List.getD_append_right _ _ _ _ (by omega)]
      by_cases within : col < last.length + count
      · rw [if_pos ⟨rfl, by omega, within⟩, List.getD_replicate _ (by omega),
          List.getD_eq_default _ _ (by omega)]
      · have behind : (List.replicate count (f blank)).length ≤ col.toNat - last.length := by
          rw [List.length_replicate]
          omega
        rw [if_neg fun both => within both.2.2, List.getD_eq_default _ _ behind,
          List.getD_eq_default _ _ (by omega)]
  · rw [if_neg fun both => here both.1]
    by_cases above : row < front.length
    · rw [List.getD_append _ _ _ _ (by omega), List.getD_append _ _ _ _ (by omega)]
    · rw [List.getD_eq_default (front ++ [last]) _ (by simp; omega),
        List.getD_eq_default (front ++ [last ++ List.replicate count (f blank)]) _ (by simp; omega)]

/-- A window that is shifted up by a row drops the first one. -/
theorem shift_first (first : List α) (rest : List (List α)) (fits : rest.length < height)
    (whole : ∀ row col, region row col ↔ Window height width row col) :
    shift region 1 0 blank (ofRows height width blank (first :: rest)) =
      ofRows height width blank rest := by
  funext row col
  unfold shift ofRows
  simp only [whole]
  by_cases inside : Window height width row col
  swap
  · rw [if_neg inside, if_neg inside, if_neg inside]
  have window := inside
  obtain ⟨⟨top, bottom⟩, left, right⟩ := inside
  rw [if_pos window, if_pos window, if_pos window, Int.add_zero]
  by_cases more : row + 1 < height
  · have below : Window height width (row + 1) col := ⟨⟨by omega, more⟩, left, right⟩
    rw [if_pos below, if_pos below]
    have next : (row + 1).toNat = row.toNat + 1 := by omega
    rw [next, List.getD_cons_succ]
  · have last : ¬ Window height width (row + 1) col := fun below => more below.1.2
    rw [if_neg last, List.getD_eq_default rest _ (by omega)]
    rfl

/-- A window whose cells all become one shows no rows. -/
theorem change_all (cell : α) (rows : List (List α))
    (whole : ∀ row col, region row col ↔ Window height width row col) :
    change region (fun _ => cell) (ofRows height width blank rows) =
      ofRows height width cell [] := by
  funext row col
  unfold change ofRows
  simp only [whole]
  split_ifs <;> rfl

/-- What is read of the first places of a list, where nothing is read behind its end. -/
theorem flatMap_range_getD {γ : Type*} (read : β → List γ) {blank : β} (skips : read blank = [])
    (list : List β) (count : Nat) :
    (List.range count).flatMap (fun i => read (list.getD i blank)) =
      (list.take count).flatMap read := by
  induction count generalizing list with
  | zero => rfl
  | succ count ih =>
      rw [List.range_succ_eq_map, List.flatMap_cons, List.flatMap_map]
      cases list with
      | nil => simp [skips]
      | cons first list =>
          rw [List.take_succ_cons, List.flatMap_cons, List.getD_cons_zero, ← ih list]
          rfl

variable {γ : Type*} (read : α → List γ)

/-- What is read of a row of a plane that shows rows. -/
theorem read_ofRows (skips : read blank = []) (rows : List (List α)) {row : Nat}
    (inside : row < height) :
    (List.range width).flatMap (fun col : Nat =>
        (ofRows height width blank rows row col).elim [] read) =
      ((rows.getD row []).take width).flatMap read := by
  rw [← flatMap_range_getD read skips]
  refine List.flatMap_congr fun col member => ?_
  have window : Window height width (row : Int) (col : Int) := by
    rw [List.mem_range] at member
    unfold Window
    omega
  unfold ofRows
  rw [if_pos window, Option.elim_some, Int.toNat_natCast, Int.toNat_natCast]

/-- What is read of a plane that shows rows, from top to bottom. -/
theorem readAll_ofRows (skips : read blank = []) (rows : List (List α))
    (fits : rows.length ≤ height) :
    (List.range height).flatMap (fun row : Nat => (List.range width).flatMap fun col : Nat =>
        (ofRows height width blank rows row col).elim [] read) =
      rows.flatMap fun row => (row.take width).flatMap read := by
  have each : ∀ row ∈ List.range height, (List.range width).flatMap (fun col : Nat =>
      (ofRows height width blank rows row col).elim [] read) =
        ((rows.getD row []).take width).flatMap read :=
    fun row member => read_ofRows height width blank read skips rows (List.mem_range.mp member)
  have nothing : (List.take width ([] : List α)).flatMap read = [] := by
    rw [List.take_nil]
    rfl
  have all := flatMap_range_getD (fun row : List α => (row.take width).flatMap read) nothing rows
    height
  rw [List.flatMap_congr each, all, List.take_of_length_le fits]

/-- The cells in a window, with blanks where there were none. -/
def crop (plane : Plane α) : Plane α := fun row col =>
  if Window height width row col then some ((plane row col).getD blank) else none

end Rows

end Planes
