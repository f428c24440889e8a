import Hackterm.Nunifont
import Mathlib.Algebra.Order.Ring.Int
import Mathlib.Order.ConditionallyCompleteLattice.Basic
import Mathlib.Data.Int.ConditionallyCompleteOrder
import Mathlib.Order.Interval.Set.LinearOrder

/-! # From pixels to cells

The two ends of a drag are pixels, which are divided by the size of a cell as floats. The
quotients are rounded outwards and then corrected by the direction of the drag, so that
a drag along a pixel row selects a second row of text, and a column is missing or too much
unless the drag ends on the boundary that its direction asks for
(`Hackterm.mouseToSelectBox_maps_iff`).
-/

namespace Hackterm

/-- The nearest float of a natural number, which has 24 significant bits; of two, the
even one. -/
def roundNat (n : Nat) : Nat :=
  let unit := 2 ^ (n.log2 - 23)
  let up := unit < 2 * (n % unit) ∨ unit = 2 * (n % unit) ∧ n / unit % 2 = 1
  (if up then n / unit + 1 else n / unit) * unit

/-- `(float)n`. -/
def toFloat (n : Int) : Int := n.sign * roundNat n.natAbs

/-- `floor((float)n/size)`. Sizes are powers of two, by which floats are divided without
rounding. -/
def floatFloor (n size : Int) : Int := toFloat n / size

/-- `ceil((float)n/size)`. -/
def floatCeil (n size : Int) : Int := -(-toFloat n / size)

/-- The selection in rows and columns of the text: `stx`, `sty`, `etx` and `ety`. -/
structure SelectBox where
  startX : Int
  startY : Int
  endX : Int
  endY : Int
deriving DecidableEq

/-- `mouse_to_select_box`. -/
def mouseToSelectBox (font : Nunifont) (sx sy so ex ey eo : Int) : SelectBox :=
  let stx := floatFloor sx (font.width + font.space)
  let etx := floatCeil ex (font.width + font.space)
  let sty := floatFloor sy (font.height + font.space) - so
  let ety := floatCeil ey (font.height + font.space) - eo
  let ety := if sy > ey ∨ sy < ey then ety - 1 else ety
  let etx := if sy > ey then etx - 1 else etx
  let etx := if sty = ety ∧ etx < stx then etx - 1 else etx
  let etx := if sty = ety ∧ etx > stx then etx + 1 else etx
  ⟨stx, sty, etx, ety⟩

/-- The rows are those of the press and the pointer. In one row and to the right, the columns
are those from the press up to `past` columns behind the pointer: with 0 the column of the
pointer is not selected, with 1 it is the last one. -/
structure MapsDrag (font : Nunifont) (past sx sy so ex ey eo : Int) (box : SelectBox) : Prop where
  startRow : box.startY = sy / font.height - so
  endRow : box.endY = ey / font.height - eo
  columns : sy / font.height - so = ey / font.height - eo → sx ≤ ex →
    Set.Ico box.startX box.endX = Set.Ico (sx / font.width) (ex / font.width + past)

/-- The cell of the pixel before a coordinate. -/
def cellBefore (n size : Int) : Int := (toFloat n - 1) / size

/-- Rounded, the press lies in its row. A pointer on the pixel row of the press lies on a
boundary, and any other one behind a pixel of its row. -/
def RowsAligned (height sy ey : Int) : Prop :=
  toFloat sy / height = sy / height ∧
    if sy = ey then height ∣ toFloat ey else cellBefore ey height = ey / height

/-- The column that a drag ends with: that of the pixel before the pointer when it goes up,
otherwise the next one. -/
def dragColumn (width sy ex ey : Int) : Int := cellBefore ex width + if ey < sy then 0 else 1

/-- The columns are those from the press up to the pointer, with its column. -/
def ColumnsWith (width sx sy ex ey : Int) : Prop :=
  toFloat sx / width = sx / width ∧ sx / width < ex / width ∧
    dragColumn width sy ex ey = ex / width

/-- The columns are those from the press up to the pointer, without its column. -/
def ColumnsBefore (width sx sy ex ey : Int) : Prop :=
  sx / width = ex / width ∧ dragColumn width sy ex ey ≤ toFloat sx / width ∨
    toFloat sx / width = sx / width ∧ sx / width < dragColumn width sy ex ey ∧
      dragColumn width sy ex ey + 1 = ex / width

/-- Up to 24 bits nothing is rounded. -/
theorem toFloat_of_lt (n : Int) (short : n.natAbs < 2 ^ 24) : toFloat n = n := by
  have unit : 2 ^ (n.natAbs.log2 - 23) = 1 := by
    rcases Nat.eq_zero_or_pos n.natAbs with zero | positive
    · rw [zero]
      rfl
    · have bits := (Nat.log2_lt positive.ne').mpr short
      rw [Nat.sub_eq_zero_of_le (by omega), Nat.pow_zero]
  have same : roundNat n.natAbs = n.natAbs := by
    rw [roundNat, unit, Nat.mod_one, Nat.div_one, Nat.mul_one, if_neg (by omega)]
  rw [toFloat, same, Int.sign_mul_natAbs]

theorem floatCeil_eq (n size : Int) (positive : 0 < size) :
    floatCeil n size = cellBefore n size + 1 := by
  have whole := Int.mul_ediv_add_emod (toFloat n - 1) size
  have inside := Int.emod_nonneg (toFloat n - 1) positive.ne'
  have below := Int.emod_lt_of_pos (toFloat n - 1) positive
  have quotient : -toFloat n / size = -((toFloat n - 1) / size + 1) := by
    refine ((Int.ediv_emod_unique positive
      (r := size - 1 - (toFloat n - 1) % size)).mpr ⟨?_, by omega, by omega⟩).1
    rw [Int.mul_neg, Int.mul_add, Int.mul_one]
    omega
  rw [floatCeil, quotient, Int.neg_neg, cellBefore]

/-- The pixel before lies in the same cell, except on a boundary. -/
theorem cellBefore_eq (n size : Int) (positive : 0 < size) :
    cellBefore n size = toFloat n / size - if size ∣ toFloat n then 1 else 0 := by
  have up := floatCeil_eq n size positive
  rw [floatCeil, Int.neg_ediv, Int.sign_eq_one_of_pos positive] at up
  split at up <;> split <;> first | contradiction | omega

/-- Two ranges of columns are the same if their ends are, or if both are empty. -/
theorem ico_eq_ico_iff (a b c d : Int) :
    Set.Ico a b = Set.Ico c d ↔ (a = c ∧ b = d ∧ c < d) ∨ b ≤ a ∧ d ≤ c := by
  by_cases present : a < b ∨ c < d
  · rw [Set.Ico_eq_Ico_iff present]
    omega
  · rw [Set.Ico_eq_empty (by omega), Set.Ico_eq_empty (by omega)]
    simp only [true_iff]
    omega

section Font

variable (font : Nunifont) (width : 0 < font.width) (height : 0 < font.height)
  (space : font.space = 0) (past sx sy so ex ey eo : Int)

include height space in
/-- The rows of the selection, and its first column. -/
theorem mouseToSelectBox_rows :
    let box := mouseToSelectBox font sx sy so ex ey eo
    box.startX = toFloat sx / font.width ∧ box.startY = toFloat sy / font.height - so ∧
      box.endY = cellBefore ey font.height + (if sy = ey then 1 else 0) - eo := by
  simp only [mouseToSelectBox, space, Int.add_zero, floatCeil_eq ey _ height]
  refine ⟨rfl, rfl, ?_⟩
  split_ifs <;> omega

include width space in
/-- The last column of a selection inside a row is moved away from the first one. -/
theorem mouseToSelectBox_endX :
    let box := mouseToSelectBox font sx sy so ex ey eo
    let last := dragColumn font.width sy ex ey
    box.startY = box.endY →
      box.endX = last + if last < box.startX then -1 else if box.startX < last then 1 else 0 := by
  intro box last oneRow
  have column : last = if sy > ey then floatCeil ex font.width - 1 else floatCeil ex font.width := by
    have up := floatCeil_eq ex font.width width
    change dragColumn font.width sy ex ey = _
    rw [dragColumn]
    split_ifs <;> omega
  have ends : box.endX = (if box.startY = box.endY ∧
      (if box.startY = box.endY ∧ last < box.startX then last - 1 else last) > box.startX then
        (if box.startY = box.endY ∧ last < box.startX then last - 1 else last) + 1
      else if box.startY = box.endY ∧ last < box.startX then last - 1 else last) := by
    rw [column]
    simp only [box, mouseToSelectBox, space, Int.add_zero]
  rw [ends]
  split_ifs <;> omega

include width height space in
/-- A drag is mapped as it should be when its rows are, and its columns if they are asked
for. -/
theorem mapsDrag_iff :
    let box := mouseToSelectBox font sx sy so ex ey eo
    let first := toFloat sx / font.width
    let last := dragColumn font.width sy ex ey
    MapsDrag font past sx sy so ex ey eo box ↔
      RowsAligned font.height sy ey ∧ (sy / font.height - so = ey / font.height - eo → sx ≤ ex →
        Set.Ico first (last + if last < first then -1 else if first < last then 1 else 0) =
          Set.Ico (sx / font.width) (ex / font.width + past)) := by
  intro box first last
  obtain ⟨startX, startY, endY⟩ := mouseToSelectBox_rows font height space sx sy so ex ey eo
  have rows : RowsAligned font.height sy ey ↔
      box.startY = sy / font.height - so ∧ box.endY = ey / font.height - eo := by
    have before := cellBefore_eq ey font.height height
    rw [RowsAligned, startY, endY]
    by_cases along : sy = ey
    · subst along
      rw [if_pos rfl, if_pos rfl]
      by_cases boundary : font.height ∣ toFloat sy
      · rw [if_pos boundary] at before
        simp only [boundary, and_true]
        omega
      · rw [if_neg boundary] at before
        simp only [boundary, and_false, false_iff]
        omega
    · rw [if_neg along, if_neg along]
      omega
  have columns (oneRow : box.startY = box.endY) :=
    mouseToSelectBox_endX font width space sx sy so ex ey eo oneRow
  rw [startX] at columns
  rw [rows]
  constructor
  · intro maps
    refine ⟨⟨maps.startRow, maps.endRow⟩, fun same right => ?_⟩
    rw [← columns (by rw [maps.startRow, maps.endRow, same]), ← maps.columns same right, startX]
  · rintro ⟨⟨startRow, endRow⟩, range⟩
    refine ⟨startRow, endRow, fun same right => ?_⟩
    rw [columns (by rw [startRow, endRow, same]), startX, range same right]

end Font

/-- The cell sizes are positive, and there is no space between cells. -/
theorem nunifontSize_positive {size : Int} (old : Nunifont) (cell : size = 16 ∨ size = 32) :
    0 < (nunifontSize size old).width ∧ 0 < (nunifontSize size old).height ∧
      (nunifontSize size old).space = 0 := by
  rcases cell with rfl | rfl <;> simp [nunifontSize]

/-- **Pixels and cells.** A drag is mapped to the rows of its ends and to the columns
between them, with or without the last one, exactly when its ends are aligned for that. -/
theorem mouseToSelectBox_maps_iff (size : Int) (old : Nunifont) (cell : size = 16 ∨ size = 32)
    (sx sy so ex ey eo : Int) :
    let font := nunifontSize size old
    let box := mouseToSelectBox font sx sy so ex ey eo
    (MapsDrag font 1 sx sy so ex ey eo box ↔
      RowsAligned font.height sy ey ∧ (sy / font.height - so = ey / font.height - eo → sx ≤ ex →
        ColumnsWith font.width sx sy ex ey)) ∧
    (MapsDrag font 0 sx sy so ex ey eo box ↔
      RowsAligned font.height sy ey ∧ (sy / font.height - so = ey / font.height - eo → sx ≤ ex →
        ColumnsBefore font.width sx sy ex ey)) := by
  intro font box
  obtain ⟨width, height, space⟩ := nunifontSize_positive old cell
  have ordered (right : sx ≤ ex) : sx / font.width ≤ ex / font.width :=
    Int.ediv_le_ediv width right
  constructor
  · refine (mapsDrag_iff font width height space 1 sx sy so ex ey eo).trans
      (and_congr_right fun _ => forall_congr' fun _ => forall_congr' fun right => ?_)
    have between := ordered right
    rw [ico_eq_ico_iff, ColumnsWith]
    split_ifs <;> omega
  · refine (mapsDrag_iff font width height space 0 sx sy so ex ey eo).trans
      (and_congr_right fun _ => forall_congr' fun _ => forall_congr' fun right => ?_)
    have between := ordered right
    rw [ico_eq_ico_iff, ColumnsBefore]
    split_ifs <;> omega

/-- Where coordinates are floats, rows are aligned when the pointer is on a boundary
exactly if it is on the pixel row of the press. -/
theorem rowsAligned_iff {height sy ey : Int} (positive : 0 < height)
    (press : sy.natAbs < 2 ^ 24) (pointer : ey.natAbs < 2 ^ 24) :
    RowsAligned height sy ey ↔ (sy = ey ↔ height ∣ ey) := by
  rw [RowsAligned, cellBefore_eq ey height positive, toFloat_of_lt sy press,
    toFloat_of_lt ey pointer]
  by_cases along : sy = ey
  · simp [along]
  · rw [if_neg along]
    simp only [along, true_and, false_iff]
    split_ifs <;> omega

/-- Where coordinates are floats, the column of the pointer is the last one when the press is in
an earlier one, and the pointer on a boundary exactly if the drag does not go up. -/
theorem columnsWith_iff {width sx sy ex ey : Int} (positive : 0 < width)
    (press : sx.natAbs < 2 ^ 24) (pointer : ex.natAbs < 2 ^ 24) :
    ColumnsWith width sx sy ex ey ↔
      sx / width < ex / width ∧ (width ∣ ex ↔ sy ≤ ey) := by
  rw [ColumnsWith, dragColumn, cellBefore_eq ex width positive,
    toFloat_of_lt sx press, toFloat_of_lt ex pointer]
  split_ifs <;> omega

/-- Where coordinates are floats, the column of the pointer is left out when it is the one of the
press, with the pointer on a boundary or the drag going up, or when it is further away
than the next one, with both. -/
theorem columnsBefore_iff {width sx sy ex ey : Int} (positive : 0 < width)
    (press : sx.natAbs < 2 ^ 24) (pointer : ex.natAbs < 2 ^ 24) :
    ColumnsBefore width sx sy ex ey ↔
      sx / width = ex / width ∧ (width ∣ ex ∨ ey < sy) ∨
        sx / width + 1 < ex / width ∧ width ∣ ex ∧ ey < sy := by
  rw [ColumnsBefore, dragColumn, cellBefore_eq ex width positive,
    toFloat_of_lt sx press, toFloat_of_lt ex pointer]
  split_ifs <;> omega

theorem mouseToSelectBox_maps_iff_down :
    let font := nunifontSize 16 ⟨8, 16, 0⟩
    let box := mouseToSelectBox font 3 5 0 24 9 0
    (MapsDrag font 1 3 5 0 24 9 0 box ↔
      RowsAligned font.height 5 9 ∧ ((5 : Int) / font.height - 0 = 9 / font.height - 0 → (3 : Int) ≤ 24 →
        ColumnsWith font.width 3 5 24 9)) ∧
    (MapsDrag font 0 3 5 0 24 9 0 box ↔
      RowsAligned font.height 5 9 ∧ ((5 : Int) / font.height - 0 = 9 / font.height - 0 → (3 : Int) ≤ 24 →
        ColumnsBefore font.width 3 5 24 9)) :=
  mouseToSelectBox_maps_iff 16 ⟨8, 16, 0⟩ (Or.inl rfl) 3 5 0 24 9 0

/-- A drag to the right along the sixth row of pixels ends in the second row of text. -/
theorem mouseToSelectBox_second_row :
    let font := nunifontSize 16 ⟨8, 16, 0⟩
    let box := mouseToSelectBox font 0 5 0 20 5 0
    (box.startY, box.endY) = (0, 1) ∧
      ¬ MapsDrag font 1 0 5 0 20 5 0 box ∧ ¬ MapsDrag font 0 0 5 0 20 5 0 box := by
  intro font box
  have rows : (box.startY, box.endY) = (0, 1) := by decide
  have pointer : (5 : Int) / font.height - 0 = 0 := by decide
  have second (past : Int) : ¬ MapsDrag font past 0 5 0 20 5 0 box := by
    intro maps
    have last := maps.endRow
    rw [pointer, (Prod.mk.inj rows).2] at last
    cases last
  exact ⟨rows, second 1, second 0⟩

end Hackterm
