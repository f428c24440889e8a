import Hackterm.Selection.Region
import Hackterm.Streaming.Lines
import Mathlib.Algebra.BigOperators.Group.List.Basic

/-! # The columns of a selection, row by row

The copy of a row depends on the rows before it only through the end of the selection,
which a row that is not longer moves to its own last column. So the columns that are
copied and their code units are determined row by row
(`Hackterm.rowRange`, `Hackterm.regionUnits`), and with them the number of code units
(`Hackterm.regionLength`).
-/

namespace Hackterm

open Streaming

variable {rows cols : Nat}

/-- The columns of a row that are copied. -/
def rowRange (behind : Int → UInt32) (cols : Nat) (startX endX : Int) (row : Line) : List Int :=
  Int.range startX (clippedEnd behind cols row endX)

/-- The code units that are copied from a row. -/
def rowUnits (behind : Int → UInt32) (cols : Nat) (startX endX : Int) (row : Line) :
    List UInt16 :=
  ((rowRange behind cols startX endX row).map fun x => (rowChar behind row x).toUInt16).filter
    isKept

theorem length_rowUnits_le (behind : Int → UInt32) (cols : Nat) (startX endX : Int) (row : Line) :
    (rowUnits behind cols startX endX row).length ≤ (endX - startX).toNat := by
  have clipped := clippedEnd_le behind cols row endX
  refine (List.length_filter_le _ _).trans ?_
  rw [List.length_map, rowRange, Int.range, List.length_map, List.length_range]
  omega

/-- Columns inside the row give the units of its cells. -/
theorem rowUnits_eq_keptUnits (behind : Int → UInt32) (cols a : Nat) (endX : Int) (row : Line)
    (inside : clippedEnd behind cols row endX ≤ row.length) :
    rowUnits behind cols a endX row =
      keptUnits (columns row a (clippedEnd behind cols row endX).toNat) := by
  have chars := congrArg (List.map UInt32.toUInt16) (map_range_rowChar behind row a _ inside)
  rw [List.map_map, List.map_map] at chars
  exact congrArg (List.filter isKept) chars

/-- The end of the selection after a row, of which some columns were copied. -/
def loweredEnd (range : List Int) (glen : Nat) (textEndX : Int) : Int :=
  if range ≠ [] ∧ (glen : Int) ≤ textEndX then glen - 1 else textEndX

section Columns

variable (screen : VTermScreen rows cols) (buffer : Option ScrollBuffer)
  (behind : Int → Int → UInt32) (startX startY endX endY : Int)

/-- The cells of a row, if it is defined and not missing. -/
def presentRow (y : Int) : Option Line := (grabRow screen buffer y).bind GrabbedRow.rowdata

/-- The first column that is copied from a row. -/
def firstColumn (y : Int) : Int := if y = startY then startX else 0

/-- The end of the selection after a row that is not the last one. -/
def lowerEnd (textEndX : Int) (y : Int) : Int :=
  match grabRow screen buffer y with
  | some ⟨some row, len⟩ =>
      loweredEnd (rowRange (behind y) cols (firstColumn startX startY y) cols row) len textEndX
  | _ => textEndX

/-- The end of the selection when a row is reached. -/
def regionEnd (y : Int) : Int :=
  (Int.range startY y).foldl (lowerEnd screen buffer behind startX startY) endX

/-- The end of what is copied from a row, before it is clipped. -/
def rowEnd (y : Int) : Int :=
  if y = endY then regionEnd screen buffer behind startX startY endX y else cols

/-- The code units that are copied from a row. -/
def regionUnits (y : Int) : List UInt16 :=
  (presentRow screen buffer y).elim []
    (rowUnits (behind y) cols (firstColumn startX startY y)
      (rowEnd screen buffer behind startX startY endX endY y))

/-- The number of code units: those of the rows and the line breaks between them. -/
def regionLength : Nat :=
  ((Int.range startY (endY + 1)).map fun y =>
    (regionUnits screen buffer behind startX startY endX endY y).length).sum +
      (endY - startY).toNat

end Columns

/-- What the loop over the columns does to the end of the selection. -/
theorem foldl_copyCell_textEndX (behind : Int → UInt32) (row : Line) (glen : Nat) (xs : List Int)
    (st : TextRegion) :
    (xs.foldl (copyCell behind row glen) st).textEndX = loweredEnd xs glen st.textEndX := by
  induction xs generalizing st with
  | nil => simp [loweredEnd]
  | cons x xs ih =>
      have here : (copyCell behind row glen st x).textEndX =
          if (glen : Int) ≤ st.textEndX then (glen : Int) - 1 else st.textEndX := rfl
      rw [List.foldl_cons, ih, here]
      unfold loweredEnd
      split_ifs <;> simp_all

/-- What a row adds to the text, and the end of the selection after it. -/
theorem copyRow_adds (behind : Int → UInt32) (cols : Nat) (startX endX : Int) (row : Line)
    (glen : Nat) (st : TextRegion) :
    let next := copyRow behind cols startX endX row glen st
    next.text = st.text ++ rowUnits behind cols startX endX row ∧
      next.textEndX = loweredEnd (rowRange behind cols startX endX row) glen st.textEndX :=
  ⟨(foldl_copyCell behind row glen _ _).1, foldl_copyCell_textEndX behind row glen _ _⟩

section Rows

variable {screen : VTermScreen rows cols} {buffer : Option ScrollBuffer}
  {behind : Int → Int → UInt32} {startX startY endX endY : Int}

/-- The state when a row is reached. A missing row writes a zero over the first code unit,
if there is one. -/
structure RowReached (screen : VTermScreen rows cols) (buffer : Option ScrollBuffer)
    (behind : Int → Int → UInt32) (startX startY endX endY y : Int) (st : TextRegion) : Prop where
  ends : st.textEndX = regionEnd screen buffer behind startX startY endX y
  length : st.text.length = ((Int.range startY y).map fun y =>
    (regionUnits screen buffer behind startX startY endX endY y).length + 1).sum
  text : (∀ y' len, startY < y' → y' < y → grabRow screen buffer y' ≠ some ⟨none, len⟩) →
    st.text = (Int.range startY y).flatMap fun y =>
      regionUnits screen buffer behind startX startY endX endY y ++ [0x0A]

/-- What a row adds to the text when it is reached. -/
theorem RowReached.step {y : Int} {st : TextRegion}
    (reached : RowReached screen buffer behind startX startY endX endY y st) {grabbed : GrabbedRow}
    (has : grabRow screen buffer y = some grabbed) :
    ∃ next, regionRow screen buffer behind startX startY endY st y = some next ∧
      (y ≠ endY → next.textEndX = lowerEnd screen buffer behind startX startY st.textEndX y) ∧
      next.text.length = st.text.length +
        (regionUnits screen buffer behind startX startY endX endY y).length +
          (if y ≠ endY then 1 else 0) ∧
      (grabbed.rowdata ≠ none ∨ st.text = [] → next.text = st.text ++
        (regionUnits screen buffer behind startX startY endX endY y ++
          if y ≠ endY then [0x0A] else [])) := by
  obtain ⟨rowdata, len⟩ := grabbed
  cases rowdata with
  | none =>
      have nothing : regionUnits screen buffer behind startX startY endX endY y = [] := by
        rw [regionUnits, presentRow, has]
        rfl
      have same (textEndX : Int) :
          lowerEnd screen buffer behind startX startY textEndX y = textEndX := by
        rw [lowerEnd, has]
      refine ⟨_, regionRow_missing screen buffer behind startX startY endY st y len has, ?_⟩
      rw [nothing, same]
      refine ⟨fun notLast => by rw [if_pos notLast], by split <;> simp, ?_⟩
      rintro (present | empty)
      · exact absurd rfl present
      · rw [empty]
        split <;> rfl
  | some row =>
      have units : regionUnits screen buffer behind startX startY endX endY y =
          rowUnits (behind y) cols (firstColumn startX startY y)
            (if y = endY then st.textEndX else cols) row := by
        rw [regionUnits, presentRow, has, rowEnd, reached.ends]
        rfl
      have lowered : y ≠ endY → lowerEnd screen buffer behind startX startY st.textEndX y =
          loweredEnd (rowRange (behind y) cols (firstColumn startX startY y)
            (if y = endY then st.textEndX else cols) row) len st.textEndX := by
        intro notLast
        rw [lowerEnd, has, if_neg notLast]
      obtain ⟨text, ends⟩ := copyRow_adds (behind y) cols (firstColumn startX startY y)
        (if y = endY then st.textEndX else cols) row len st
      refine ⟨_, regionRow_present screen buffer behind startX startY endY st y row len has, ?_⟩
      rw [units]
      rw [firstColumn] at text ends lowered ⊢
      generalize copyRow (behind y) cols _ _ row len st = copied at text ends ⊢
      refine ⟨fun notLast => ?_, ?_, fun _ => ?_⟩
      · rw [lowered notLast, if_pos notLast, ← ends]
      · by_cases notLast : y ≠ endY
        · simp only [if_pos notLast]
          rw [List.length_append, text, List.length_append, List.length_singleton]
        · simp only [if_neg notLast]
          rw [text, List.length_append, Nat.add_zero]
      · by_cases notLast : y ≠ endY
        · simp only [if_pos notLast]
          rw [text, List.append_assoc]
        · simp only [if_neg notLast]
          rw [text, List.append_nil]

/-- **The rows before a row.** They are copied as long as there is memory for them. -/
theorem regionRows_reach {y : Int} (ordered : startY ≤ y) (below : y ≤ endY)
    (defined : ∀ y', startY ≤ y' → y' < y → (grabRow screen buffer y').isSome) :
    ∃ st, (Int.range startY y).foldlM
        (regionRow screen buffer behind startX startY endY) ⟨[], endX, []⟩ = some st ∧
      RowReached screen buffer behind startX startY endX endY y st := by
  induction y, ordered using Int.leInduction with
  | base =>
      refine ⟨⟨[], endX, []⟩, ?_, ?_, ?_, fun _ => ?_⟩
      all_goals first | rw [intRange_of_le _ _ le_rfl] | rw [regionEnd, intRange_of_le _ _ le_rfl]
      all_goals rfl
  | succ y ordered ih =>
      obtain ⟨st, run, reached⟩ := ih (by omega) fun y' above before =>
        defined y' above (by omega)
      obtain ⟨grabbed, has⟩ := Option.isSome_iff_exists.mp (defined y ordered (by omega))
      obtain ⟨next, stepped, ends, length, text⟩ := reached.step has
      have notLast : y ≠ endY := by omega
      refine ⟨next, regionRows_succ ordered run stepped, ?_, ?_, fun present => ?_⟩
      · rw [ends notLast, reached.ends, regionEnd, regionEnd, intRange_concat _ _ ordered,
          List.foldl_append, List.foldl_cons, List.foldl_nil]
      · rw [length, if_pos notLast, reached.length, intRange_concat _ _ ordered, List.map_append,
          List.sum_append, List.map_singleton, List.sum_singleton, Nat.add_assoc]
      · have earlier := reached.text fun y' len above before => present y' len above (by omega)
        rw [text, if_pos notLast, earlier, intRange_concat _ _ ordered, List.flatMap_append,
          List.flatMap_singleton]
        by_cases first : y = startY
        · refine Or.inr ?_
          rw [earlier, first, intRange_of_le _ _ le_rfl, List.flatMap_nil]
        · refine Or.inl fun missing => present y grabbed.len (by omega) (by omega) ?_
          rw [has, ← missing]

/-- **All rows.** They are copied as long as there is memory for them. -/
theorem regionRows_finish (ordered : startY ≤ endY)
    (defined : ∀ y, startY ≤ y → y ≤ endY → (grabRow screen buffer y).isSome) :
    ∃ final, (Int.range startY (endY + 1)).foldlM
        (regionRow screen buffer behind startX startY endY) ⟨[], endX, []⟩ = some final ∧
      final.text.length = regionLength screen buffer behind startX startY endX endY ∧
      ((∀ y len, startY < y → y ≤ endY → grabRow screen buffer y ≠ some ⟨none, len⟩) →
        final.text = [0x0A].intercalate ((Int.range startY (endY + 1)).map
          (regionUnits screen buffer behind startX startY endX endY))) := by
  obtain ⟨st, run, reached⟩ := @regionRows_reach rows cols screen buffer behind startX startY endX
    endY endY ordered le_rfl fun y above before => defined y above before.le
  obtain ⟨grabbed, has⟩ := Option.isSome_iff_exists.mp (defined endY ordered le_rfl)
  obtain ⟨final, stepped, -, length, text⟩ := reached.step has
  refine ⟨final, regionRows_succ ordered run stepped, ?_, fun present => ?_⟩
  · have breaks : (Int.range startY endY).length = (endY - startY).toNat := by simp [Int.range]
    rw [length, if_neg (not_not.mpr rfl), reached.length, regionLength, intRange_concat _ _ ordered,
      List.map_append, List.sum_append, List.map_singleton, List.sum_singleton, List.sum_map_add,
      List.map_const', List.sum_replicate_nat, breaks]
    omega
  · have earlier := reached.text fun y len above before => present y len above before.le
    rw [intRange_concat _ _ ordered, List.map_append, List.map_singleton, intercalate_concat,
      List.flatMap_map, ← earlier]
    rw [text, if_neg (not_not.mpr rfl), List.append_nil]
    by_cases first : endY = startY
    · refine Or.inr ?_
      rw [earlier, first, intRange_of_le _ _ le_rfl, List.flatMap_nil]
    · refine Or.inl fun missing => present endY grabbed.len (by omega) le_rfl ?_
      rw [has, ← missing]

end Rows

end Hackterm
