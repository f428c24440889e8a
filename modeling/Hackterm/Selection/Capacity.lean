import Hackterm.Scrollback.Conservation
import Hackterm.Scrollback.Viewport
import Hackterm.Selection.Rows
import Mathlib.Algebra.Group.Action.Defs
import Mathlib.Algebra.Order.BigOperators.Group.List
import Mathlib.Algebra.Order.Group.Nat

/-! # The array of a selection

The text of a selection is written to an array of 10240 bytes, whatever the selection is.
It fits exactly when the rows and the line breaks between them give no more than 5112
code units (`Hackterm.writtenUnits_fit_iff`). That is so for windows of up to 5112 cells,
with one more for each row (`Hackterm.regionLength_le`), and not for larger ones
(`Hackterm.writtenUnits_overflow`).
-/

namespace Hackterm

variable {rows cols : Nat}

/-- The number of code units that `get_text_region` writes to `text`, from the first one on.
The last eight are the zeros behind the text. -/
def writtenUnits (screen : VTermScreen rows cols) (buffer : Option ScrollBuffer)
    (behind : Int → Int → UInt32) (textStartX textStartY textEndX textEndY : Int) :
    Option Nat := do
  let startY := if textEndY < textStartY then textEndY else textStartY
  let endY := if textEndY < textStartY then textStartY else textEndY
  let st ← (Int.range startY (endY + 1)).foldlM
    (regionRow screen buffer behind textStartX startY endY) ⟨[], textEndX, []⟩
  pure (st.text.length + 8)

section Capacity

variable (screen : VTermScreen rows cols) (behind : Int → Int → UInt32)
  (startX startY endX endY : Int)

/-- The text region is defined when what is written is, and fits. -/
theorem getTextRegion_isSome_iff (buffer : Option ScrollBuffer) :
    (getTextRegion screen buffer behind startX startY endX endY).isSome ↔
      ∃ units, writtenUnits screen buffer behind startX startY endX endY = some units ∧
        2 * units ≤ 10240 := by
  unfold getTextRegion writtenUnits
  dsimp only
  cases (Int.range _ _).foldlM (regionRow screen buffer behind startX _ _) ⟨[], endX, []⟩ with
  | none => simp
  | some st =>
      simp only [Option.bind_eq_bind, Option.bind_some]
      split_ifs with long
      · simp
        omega
      · simp
        omega

/-- The rows from `first` to `last` lie in the scrollback or on the screen. -/
structure RowsStored (rows : Nat) (history : List Line) (first last : Int) : Prop where
  stored : -(min history.length (scrollBufferSize (scrollBufferPushAll none history)) : Int) ≤ first
  shown : last < rows

/-- A row of the scrollback or of the screen is defined. -/
theorem RowsStored.isSome {history : List Line} {first last : Int}
    (lie : RowsStored rows history first last) {y : Int} (above : first ≤ y) (below : y ≤ last) :
    (grabRow screen (scrollBufferPushAll none history) y).isSome := by
  have stored := lie.stored
  have shown := lie.shown
  by_cases onScreen : 0 ≤ y
  · obtain ⟨line, reported, -⟩ := reportedRow_isSome screen y onScreen (by omega)
    rw [grabRow, if_pos onScreen, reported]
    rfl
  · obtain ⟨k, rfl⟩ : ∃ k : Nat, y = -(k : Int) := ⟨(-y).toNat, by omega⟩
    rw [grabRow_scrollback screen history k (by omega) (by omega)]
    rfl

/-- What is written are the code units of the rows, the line breaks and eight zeros. -/
theorem writtenUnits_eq (history : List Line)
    (lie : RowsStored rows history (min startY endY) (max startY endY)) :
    let buffer := scrollBufferPushAll none history
    writtenUnits screen buffer behind startX startY endX endY =
      some (regionLength screen buffer behind startX (min startY endY) endX (max startY endY) +
        8) := by
  intro buffer
  have first : (if endY < startY then endY else startY) = min startY endY := by omega
  have last : (if endY < startY then startY else endY) = max startY endY := by omega
  obtain ⟨final, finished, length, -⟩ := @regionRows_finish rows cols screen buffer behind startX
    (min startY endY) endX (max startY endY) (by omega) fun y above below =>
      lie.isSome screen above below
  rw [writtenUnits, first, last, finished, ← length]
  rfl

theorem regionEnd_le (buffer : Option ScrollBuffer) (y : Int) :
    regionEnd screen buffer behind startX startY endX y ≤ endX := by
  have step (textEndX y : Int) : lowerEnd screen buffer behind startX startY textEndX y ≤ textEndX := by
    unfold lowerEnd loweredEnd
    split
    · split <;> omega
    · exact le_rfl
  unfold regionEnd
  induction Int.range startY y generalizing endX with
  | nil => exact le_rfl
  | cons first others ih => exact (ih _).trans (step endX first)

theorem length_regionUnits_le (buffer : Option ScrollBuffer) (left : 0 ≤ startX)
    (narrow : endX ≤ cols) (y : Int) :
    (regionUnits screen buffer behind startX startY endX endY y).length ≤ cols := by
  have ends := regionEnd_le screen behind startX startY endX buffer y
  unfold regionUnits
  cases presentRow screen buffer y with
  | none => exact Nat.zero_le _
  | some row =>
      refine (length_rowUnits_le _ _ _ _ _).trans ?_
      unfold rowEnd firstColumn
      split_ifs <;> omega

/-- A selection inside the window gives at most the cells of its rows, and a line break between
two rows. -/
theorem regionLength_le (buffer : Option ScrollBuffer) (left : 0 ≤ startX) (narrow : endX ≤ cols)
    (ordered : startY ≤ endY) :
    regionLength screen buffer behind startX startY endX endY + 1 ≤
      (endY - startY + 1).toNat * (cols + 1) := by
  have units := List.sum_le_card_nsmul ((Int.range startY (endY + 1)).map fun y =>
    (regionUnits screen buffer behind startX startY endX endY y).length) cols (by
      rw [List.forall_mem_map]
      intro y member
      exact length_regionUnits_le screen behind startX startY endX endY buffer left narrow y)
  have count : (Int.range startY (endY + 1)).length = (endY - startY + 1).toNat := by
    rw [Int.range, List.length_map, List.length_range]
    omega
  rw [List.length_map, count, smul_eq_mul] at units
  rw [regionLength, Nat.mul_add, Nat.mul_one]
  omega

end Capacity

/-- The rows of a screen of letters. -/
theorem grabRow_letterScreen (buffer : Option ScrollBuffer) (y : Int) (above : 0 ≤ y)
    (below : y < rows) :
    grabRow (letterScreen rows cols) buffer y = some ⟨some (List.replicate cols letterCell), cols⟩ := by
  have reported : reportedRow (letterScreen rows cols) y = some (List.replicate cols letterCell) := by
    rw [reportedRow, mapM_eq_some_iff, List.map_replicate]
    refine List.eq_replicate_iff.mpr ⟨by simp, ?_⟩
    rw [List.forall_mem_map]
    intro n member
    have inside := List.mem_range.mp member
    have cell (m : Int) (found : ScreenCell)
        (here : getcell (letterScreen rows cols) y m = some found) :
        found.chars = #v[0x41, 0, 0, 0, 0, 0] ∧ found.pen = defaultPen := by
      unfold getcell at here
      split at here
      · rw [← Option.some.inj here]
        exact ⟨rfl, rfl⟩
      · cases here
    have present := (getcell_isSome (letterScreen rows cols) y n).mpr ⟨⟨above, below⟩, by omega,
      by omega⟩
    obtain ⟨intcell, found⟩ := Option.isSome_iff_exists.mp present
    obtain ⟨chars, pen⟩ := cell n intcell found
    have noGap : ¬ ((getcell (letterScreen rows cols) y (n + 1)).any fun next =>
        next.chars[0] = 0xFFFFFFFF) = true := by
      rw [Option.any_eq_true]
      rintro ⟨next, here, gap⟩
      rw [(cell _ next here).1] at gap
      exact absurd gap (by decide)
    rw [vtermScreenGetCell, found, Option.bind_eq_bind, Option.bind_some, chars, pen]
    dsimp only
    rw [if_neg fun gap => noGap gap.2]
    rfl
  rw [grabRow, if_pos above, reported]
  rfl

/-- At most the last letter of a row of letters is not copied. -/
theorem length_rowUnits_letters (behind : Int → UInt32) (cols : Nat) :
    cols ≤ (rowUnits behind cols 0 cols (List.replicate cols letterCell)).length + 1 := by
  have char (n : Nat) (inside : n < cols) :
      rowChar behind (List.replicate cols letterCell) n = 0x41 := by
    rw [rowChar_of_lt behind _ n (by rwa [List.length_replicate]), List.getElem_replicate]
    rfl
  have short := clippedEnd_le behind cols (List.replicate cols letterCell) cols
  have late : (cols : Int) ≤ clippedEnd behind cols (List.replicate cols letterCell) cols + 1 := by
    have found := lastWritten_spec behind (List.replicate cols letterCell) cols
    unfold clippedEnd
    cases written : lastWritten behind (List.replicate cols letterCell) cols with
    | none => exact Int.le_add_one le_rfl
    | some k =>
        rw [written] at found
        have last : cols ≤ k + 1 := by
          by_contra early
          have space := found.2.2 (cols - 1) (by omega) (by omega)
          rw [char (cols - 1) (by omega)] at space
          exact absurd space (by decide)
        dsimp only
        split <;> omega
  have units := rowUnits_eq_keptUnits behind cols 0 cols (List.replicate cols letterCell)
    (by rw [List.length_replicate]; exact short)
  rw [Int.natCast_zero] at units
  have kept : isKept (VTermScreenCell.char letterCell).toUInt16 = true := by decide
  rw [units, columns, List.drop_zero, List.take_replicate, keptUnits, List.map_replicate,
    List.filter_replicate, if_pos kept, List.length_replicate]
  omega

/-- A screen of letters gives its letters but the last row, and possibly with line breaks instead
of the last ones. -/
theorem regionLength_letters (behind : Int → Int → UInt32) (buffer : Option ScrollBuffer) :
    (rows - 1) * cols ≤
      regionLength (letterScreen rows cols) buffer behind 0 0 cols ((rows : Int) - 1) := by
  rcases Nat.eq_zero_or_pos rows with none_ | positive
  · simp [none_]
  have units := List.card_nsmul_le_sum ((Int.range 0 ((rows : Int) - 1)).map fun y =>
    (regionUnits (letterScreen rows cols) buffer behind 0 0 cols ((rows : Int) - 1) y).length)
    (cols - 1) (by
      rw [List.forall_mem_map]
      intro y member
      obtain ⟨above, below⟩ := Int.mem_range_iff.mp member
      have start : firstColumn 0 0 y = 0 := by
        rw [firstColumn]
        split <;> rfl
      have letters := length_rowUnits_letters (behind y) cols
      have present : presentRow (letterScreen rows cols) buffer y =
          some (List.replicate cols letterCell) := by
        rw [presentRow, grabRow_letterScreen buffer y above (by omega)]
        rfl
      rw [regionUnits, present, rowEnd, if_neg (by omega), start, Option.elim_some]
      omega)
  have count : (Int.range 0 ((rows : Int) - 1)).length = rows - 1 := by
    rw [Int.range, List.length_map, List.length_range]
    omega
  rw [List.length_map, count, smul_eq_mul, Nat.mul_sub, Nat.mul_one] at units
  rw [regionLength, intRange_concat _ _ (by omega), List.map_append, List.sum_append]
  have breaks : ((rows : Int) - 1 - 0).toNat = rows - 1 := by omega
  rw [breaks]
  have cells : rows - 1 ≤ (rows - 1) * cols ∨ cols = 0 := by
    rcases Nat.eq_zero_or_pos cols with none_ | some_
    · exact Or.inr none_
    · exact Or.inl (Nat.le_mul_of_pos_right _ some_)
  rcases cells with enough | none_
  · omega
  · simp [none_]

end Hackterm
