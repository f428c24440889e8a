import Hackterm.Selection.Extraction
import Hackterm.Selection.Mouse
import Hackterm.Selection.Rows
import Mathlib.Data.List.Sort

/-! # Dragging in both directions

A drag over several rows should select, in reading order, the rest of the first row, the rows
between and the beginning of the last row, each up to its last cell that is not a space
(`Hackterm.areaText`). The columns of its two ends are put in order independently of their
rows, and a row is copied up to its last non-whitespace instead of behind it. So both
directions give the same text, but it is the one of the area only where what is copied in front
of the area, behind it or not at all leaves no trace (`Hackterm.releaseDrag_covers_iff`).
-/

namespace Hackterm

open Streaming

variable {rows cols : Nat}

/-- A column of a row leaves a code unit in a text it is copied to. -/
def keepsColumn (behind : Int → UInt32) (row : Line) (x : Int) : Bool :=
  isKept (rowChar behind row x).toUInt16

/-- The columns that the loop of `get_text_region` copies from a row when it is reached, and that
leave a code unit. -/
def copiedColumns (view : TextView rows cols) (box : SelectBox) (y : Int) : Option (List Int) := do
  let st ← (Int.range box.startY y).foldlM
    (regionRow view.screen view.buffer view.behind box.startX box.startY box.endY) ⟨[], box.endX, []⟩
  let grabbed ← grabRow view.screen view.buffer y
  match grabbed.rowdata with
  | none => pure []
  | some row => pure ((rowRange (view.behind y) cols (if y = box.startY then box.startX else 0)
      (if y = box.endY then st.textEndX else cols) row).filter (keepsColumn (view.behind y) row))

section Area

variable (view : TextView rows cols) (x1 y1 x2 y2 : Int)

/-- The first column of the area in a row. -/
def areaStart (y : Int) : Int := max 0 (firstColumn x1 y1 y)

/-- The end of the area in a row: the end of the selection or of the row, or one past the last
cell that is not a space if that is nearer. -/
def areaEnd (row : Line) (y : Int) : Int :=
  min (if y = y2 then x2 else row.length) (writtenLength row)

/-- The columns of the area in a row that leave a code unit. -/
def areaColumns (y : Int) : List Int :=
  (presentRow view.screen view.buffer y).elim [] fun row =>
    (Int.range (areaStart x1 y1 y) (areaEnd x2 y2 row y)).filter (keepsColumn (view.behind y) row)

/-- The code units of the area in a row. -/
def areaUnits (y : Int) : List UInt16 :=
  (presentRow view.screen view.buffer y).elim [] fun row =>
    keptUnits (Hackterm.columns row (areaStart x1 y1 y).toNat (areaEnd x2 y2 row y).toNat)

/-- The text of the area in reading order. -/
def areaText : List UInt16 :=
  [0x0A].intercalate ((Int.range y1 (y2 + 1)).map (areaUnits view x1 y1 x2 y2))

/-- The text that is copied at the release is the one of the area, from the columns of
the area. -/
structure CoversArea (mouse : Mouse) : Prop where
  text : ∃ after, processMouseEvent view mouse .up = some (after,
    if (areaText view x1 y1 x2 y2).length ≠ 0 then some (areaText view x1 y1 x2 y2) else none)
  columns : ∀ y, y1 ≤ y → y ≤ y2 →
    copiedColumns view (mouse.released view.font).ordered y = some (areaColumns view x1 y1 x2 y2 y)

/-- How many of the characters from the start of a row up to the column behind the window there
are up to the last one that is not a space. The memory behind the row is looked at, too. -/
def lookedLength (behind : Int → UInt32) (cols : Nat) (row : Line) : Nat :=
  (((List.range (cols + 1)).map fun n : Nat => rowChar behind row n).rdropWhile (· = 0x20)).length

/-- Where the copy of a row stops: in front of the last of these, or at a given end if that is
nearer or if all of them are spaces. -/
def copyStop (behind : Int → UInt32) (cols : Nat) (row : Line) (endX : Int) : Int :=
  if lookedLength behind cols row = 0 then endX else min endX (lookedLength behind cols row - 1 : Nat)

/-- The last column of a row from which something is copied, apart from the last row. -/
def lastColumn (y : Int) : Option Int :=
  match grabRow view.screen view.buffer y with
  | some ⟨some row, len⟩ =>
      if firstColumn x1 y1 y < copyStop (view.behind y) cols row cols then some (len - 1) else none
  | _ => none

/-- The end of the selection in the last row: the right one of the two ends, or the least of the
last columns of the rows before if that is nearer. -/
def lastRowEnd : Int :=
  ((Int.range y1 y2).filterMap (lastColumn view (min x1 x2) y1)).foldl min (max x1 x2)

/-- Where the copy of a row of the drag stops. -/
def dragStop (row : Line) (y : Int) : Int :=
  copyStop (view.behind y) cols row (if y = y2 then lastRowEnd view x1 y1 x2 y2 else cols)

/-- Rows are defined, and only the first one may be missing. What is copied of the first row in
front of the area leaves no trace. Between the end of the area in a row and the column where
the copy stops there is nothing that leaves one either. The text fits its array. -/
structure KeepsArea : Prop where
  defined : ∀ y, y1 ≤ y → y ≤ y2 → (grabRow view.screen view.buffer y).isSome
  present : ∀ y len, y1 < y → y ≤ y2 → grabRow view.screen view.buffer y ≠ some ⟨none, len⟩
  front : ∀ row, presentRow view.screen view.buffer y1 = some row →
    ∀ x, min x1 x2 ≤ x → x < max 0 x1 → x < dragStop view x1 y1 x2 y2 row y1 →
      keepsColumn (view.behind y1) row x = false
  stop : ∀ y row, y1 ≤ y → y ≤ y2 → presentRow view.screen view.buffer y = some row →
    ∀ x, areaStart x1 y1 y ≤ x → min (dragStop view x1 y1 x2 y2 row y) (areaEnd x2 y2 row y) ≤ x →
      x < max (dragStop view x1 y1 x2 y2 row y) (areaEnd x2 y2 row y) →
        keepsColumn (view.behind y) row x = false
  short : (areaText view x1 y1 x2 y2).length ≤ 5112

end Area

variable {view : TextView rows cols} {x1 y1 x2 y2 : Int}

/-- Two ranges of columns hold the same columns of a kind exactly when those in one of them only
are of another kind. -/
theorem filter_intRange_eq_iff (keeps : Int → Bool) {a b c d : Int} (left : a ≤ c) :
    (Int.range a b).filter keeps = (Int.range c d).filter keeps ↔
      (∀ x, a ≤ x → x < c → x < b → keeps x = false) ∧
        ∀ x, c ≤ x → min b d ≤ x → x < max b d → keeps x = false := by
  have members (x : Int) : (x ∈ (Int.range a b).filter keeps ↔ x ∈ (Int.range c d).filter keeps) ↔
      ((a ≤ x ∧ x < b) ∧ keeps x = true ↔ (c ≤ x ∧ x < d) ∧ keeps x = true) := by
    rw [List.mem_filter, List.mem_filter, Int.mem_range_iff, Int.mem_range_iff]
  constructor
  · intro same
    have columns (x : Int) := (members x).mp (by rw [same])
    refine ⟨fun x first before inside => ?_, fun x behind above below => ?_⟩
    · by_contra kept
      have both := columns x
      rw [Bool.not_eq_false] at kept
      simp only [kept, and_true] at both
      omega
    · by_contra kept
      have both := columns x
      rw [Bool.not_eq_false] at kept
      simp only [kept, and_true] at both
      omega
  · rintro ⟨front, stop⟩
    have ordered (m n : Int) : (Int.range m n).Pairwise (· < ·) := by
      rw [Int.range, List.pairwise_map]
      exact List.pairwise_lt_range.imp fun less => by omega
    refine ((ordered a b).filter keeps).eq_of_mem_iff ((ordered c d).filter keeps) fun {x} =>
      (members x).mpr ?_
    cases kept : keeps x with
    | false => simp
    | true =>
        have before : ¬ (a ≤ x ∧ x < c ∧ x < b) := by
          rintro ⟨first, inside, below⟩
          exact Bool.noConfusion ((front x first inside below).symm.trans kept)
        have behind : ¬ (c ≤ x ∧ min b d ≤ x ∧ x < max b d) := by
          rintro ⟨first, above, below⟩
          exact Bool.noConfusion ((stop x first above below).symm.trans kept)
        simp only [and_true]
        omega

theorem lookedLength_eq (behind : Int → UInt32) (row : Line) (n : Nat) :
    lookedLength behind n row =
      if rowChar behind row n = 0x20 then
        (((List.range n).map fun n : Nat => rowChar behind row n).rdropWhile (· = 0x20)).length
      else n + 1 := by
  rw [lookedLength, List.range_succ, List.map_append, List.map_singleton, List.rdropWhile_concat]
  by_cases space : rowChar behind row n = 0x20 <;> simp [space]

/-- The search for the last non-whitespace, by the characters that are looked at. -/
theorem lastWritten_looked (behind : Int → UInt32) (row : Line) (n : Nat) :
    lastWritten behind row n =
      if lookedLength behind n row = 0 then none else some (lookedLength behind n row - 1) := by
  induction n with
  | zero =>
      have here : rowChar behind row ((0 : Nat) : Int) = rowChar behind row 0 := rfl
      rw [lastWritten, lookedLength_eq, here]
      by_cases space : rowChar behind row 0 = 0x20
      · rw [if_neg (not_not.mpr space), if_pos space]
        rfl
      · rw [if_pos space, if_neg space]
        rfl
  | succ n ih =>
      rw [lastWritten, lookedLength_eq behind row (n + 1), ih]
      by_cases space : rowChar behind row ((n + 1 : Nat) : Int) = 0x20
      · rw [if_neg (not_not.mpr space), if_pos space]
        rfl
      · rw [if_pos space, if_neg space]
        rfl

theorem clippedEnd_eq_copyStop (behind : Int → UInt32) (cols : Nat) (row : Line) (endX : Int) :
    clippedEnd behind cols row endX = copyStop behind cols row endX := by
  rw [clippedEnd, copyStop, lastWritten_looked]
  split_ifs with blank
  · rfl
  · dsimp only
    split_ifs <;> omega

/-- What a row makes of the end of the selection. -/
theorem lowerEnd_eq_lastColumn (startX endX y : Int) :
    lowerEnd view.screen view.buffer view.behind startX y1 endX y =
      (lastColumn view startX y1 y).elim endX (min endX) := by
  unfold lowerEnd lastColumn
  rcases grabRow view.screen view.buffer y with - | ⟨- | row, len⟩
  · rfl
  · rfl
  · dsimp only
    rw [loweredEnd, rowRange, clippedEnd_eq_copyStop]
    by_cases copied : firstColumn startX y1 y < copyStop (view.behind y) cols row cols
    · have present : Int.range (firstColumn startX y1 y) (copyStop (view.behind y) cols row cols) ≠
          [] := by
        rw [intRange_cons _ _ copied]
        exact List.cons_ne_nil _ _
      rw [if_pos copied, Option.elim_some]
      by_cases late : (len : Int) ≤ endX
      · rw [if_pos ⟨present, late⟩]
        omega
      · rw [if_neg fun lowered => late lowered.2]
        omega
    · rw [if_neg copied, Option.elim_none, intRange_of_le _ _ (by omega)]
      exact if_neg fun lowered => lowered.1 rfl

/-- The rows before the last one lower the end of the selection to the least of their last
columns. -/
theorem regionEnd_eq_lastRowEnd :
    regionEnd view.screen view.buffer view.behind (min x1 x2) y1 (max x1 x2) y2 =
      lastRowEnd view x1 y1 x2 y2 := by
  rw [regionEnd, lastRowEnd, List.foldl_filterMap]
  congr 1
  funext endX y
  rw [lowerEnd_eq_lastColumn]
  cases lastColumn view (min x1 x2) y1 y <;> rfl

/-- The columns that are copied from a row of the drag. -/
theorem rowRange_drag (row : Line) (y : Int) :
    rowRange (view.behind y) cols (firstColumn (min x1 x2) y1 y)
        (rowEnd view.screen view.buffer view.behind (min x1 x2) y1 (max x1 x2) y2 y) row =
      Int.range (firstColumn (min x1 x2) y1 y) (dragStop view x1 y1 x2 y2 row y) := by
  rw [rowRange, clippedEnd_eq_copyStop, dragStop, rowEnd]
  split_ifs with last
  · rw [last, regionEnd_eq_lastRowEnd]
  · rfl

/-- The loop copies the columns of the closed form. -/
theorem copiedColumns_eq (y : Int) (above : y1 ≤ y) (below : y ≤ y2)
    (defined : ∀ y', y1 ≤ y' → y' ≤ y → (grabRow view.screen view.buffer y').isSome) :
    copiedColumns view ⟨min x1 x2, y1, max x1 x2, y2⟩ y =
      some ((presentRow view.screen view.buffer y).elim [] fun row =>
        (Int.range (firstColumn (min x1 x2) y1 y) (dragStop view x1 y1 x2 y2 row y)).filter
          (keepsColumn (view.behind y) row)) := by
  obtain ⟨st, run, reached⟩ := @regionRows_reach rows cols view.screen view.buffer view.behind
    (min x1 x2) y1 (max x1 x2) y2 y above below fun y' first before =>
      defined y' first before.le
  obtain ⟨⟨rowdata, len⟩, has⟩ := Option.isSome_iff_exists.mp (defined y above le_rfl)
  rw [copiedColumns, run, Option.bind_eq_bind, Option.bind_some, has, Option.bind_eq_bind,
    Option.bind_some, presentRow, has]
  cases rowdata with
  | none => rfl
  | some row =>
      dsimp only [Option.bind_some, Option.elim_some]
      rw [← rowRange_drag, rowEnd, ← reached.ends]
      rfl

/-- The columns that are copied from a row are those of the area exactly when what lies in only
one of them leaves no trace. -/
theorem dragColumns_iff (row : Line) (y : Int) :
    (Int.range (firstColumn (min x1 x2) y1 y) (dragStop view x1 y1 x2 y2 row y)).filter
          (keepsColumn (view.behind y) row) =
        (Int.range (areaStart x1 y1 y) (areaEnd x2 y2 row y)).filter
          (keepsColumn (view.behind y) row) ↔
      (y = y1 → ∀ x, min x1 x2 ≤ x → x < max 0 x1 → x < dragStop view x1 y1 x2 y2 row y1 →
        keepsColumn (view.behind y1) row x = false) ∧
      ∀ x, areaStart x1 y1 y ≤ x → min (dragStop view x1 y1 x2 y2 row y) (areaEnd x2 y2 row y) ≤ x →
        x < max (dragStop view x1 y1 x2 y2 row y) (areaEnd x2 y2 row y) →
          keepsColumn (view.behind y) row x = false := by
  by_cases first : y = y1
  · subst first
    have starts : firstColumn (min x1 x2) y y = min x1 x2 ∧ areaStart x1 y y = max 0 x1 := by
      rw [areaStart, firstColumn, firstColumn, if_pos rfl, if_pos rfl]
      exact ⟨rfl, rfl⟩
    rw [filter_intRange_eq_iff _ (by rw [starts.1, starts.2]; omega), starts.1, starts.2]
    exact and_congr_left fun _ => ⟨fun front _ => front, fun front => front rfl⟩
  · have starts : firstColumn (min x1 x2) y1 y = 0 ∧ areaStart x1 y1 y = 0 := by
      rw [areaStart, firstColumn, firstColumn, if_neg first, if_neg first]
      exact ⟨rfl, rfl⟩
    rw [filter_intRange_eq_iff _ (by rw [starts.1, starts.2]), starts.1, starts.2]
    exact and_congr_left fun _ =>
      ⟨fun _ same => absurd same first, fun _ x above below => absurd above (by omega)⟩

/-- The area lies in its rows. -/
theorem areaEnd_le_length (row : Line) (y : Int) : areaEnd x2 y2 row y ≤ row.length := by
  have written := writtenLength_le row
  unfold areaEnd
  omega

/-- The columns of the area determine its units. -/
theorem areaUnits_eq_map {y : Int} {row : Line}
    (present : presentRow view.screen view.buffer y = some row) :
    areaUnits view x1 y1 x2 y2 y =
      ((Int.range (areaStart x1 y1 y) (areaEnd x2 y2 row y)).filter
        (keepsColumn (view.behind y) row)).map fun x => (rowChar (view.behind y) row x).toUInt16 := by
  have start : ((areaStart x1 y1 y).toNat : Int) = areaStart x1 y1 y :=
    Int.toNat_of_nonneg (le_max_left 0 _)
  have chars := map_range_rowChar (view.behind y) row (areaStart x1 y1 y).toNat
    (areaEnd x2 y2 row y) (areaEnd_le_length row y)
  rw [start] at chars
  have units := congrArg (List.map UInt32.toUInt16) chars
  rw [List.map_map, List.map_map] at units
  rw [areaUnits, present, Option.elim_some]
  refine (congrArg (List.filter isKept) units).symm.trans ?_
  rw [List.filter_map]
  rfl

/-- What is copied from a row are the units of the area when the columns are. -/
theorem regionUnits_eq_areaUnits {y : Int} {row : Line}
    (present : presentRow view.screen view.buffer y = some row)
    (same : (Int.range (firstColumn (min x1 x2) y1 y) (dragStop view x1 y1 x2 y2 row y)).filter
          (keepsColumn (view.behind y) row) =
        (Int.range (areaStart x1 y1 y) (areaEnd x2 y2 row y)).filter
          (keepsColumn (view.behind y) row)) :
    regionUnits view.screen view.buffer view.behind (min x1 x2) y1 (max x1 x2) y2 y =
      areaUnits view x1 y1 x2 y2 y := by
  rw [areaUnits_eq_map present, ← same, regionUnits, present, Option.elim_some, rowUnits,
    rowRange_drag, List.filter_map]
  rfl

/-- The corners of a selection whose ends are given in either order. -/
theorem ordered_ends (rowsOrdered : y1 < y2) :
    (⟨x1, y1, x2, y2⟩ : SelectBox).ordered = ⟨min x1 x2, y1, max x1 x2, y2⟩ ∧
      (⟨x2, y2, x1, y1⟩ : SelectBox).ordered = ⟨min x1 x2, y1, max x1 x2, y2⟩ := by
  unfold SelectBox.ordered
  dsimp only
  rw [if_neg (by omega : ¬ y2 < y1), if_pos rowsOrdered]
  refine ⟨?_, ?_⟩
  · by_cases left : x2 < x1
    · rw [if_pos left, min_eq_right left.le, max_eq_left left.le]
    · rw [if_neg left, min_eq_left (by omega), max_eq_right (by omega)]
  · by_cases left : x1 < x2
    · rw [if_pos left, min_eq_left left.le, max_eq_right left.le]
    · rw [if_neg left, min_eq_right (by omega), max_eq_left (by omega)]

/-- What is copied when a drag is released. -/
theorem processMouseEvent_up {mouse : Mouse} (dragged : mouse.isClick = false)
    (copied : Option (List UInt16)) :
    (∃ after, processMouseEvent view mouse .up = some (after, copied)) ↔
      ∃ region, view.getTextRegion (mouse.released view.font).ordered = some region ∧
        copied = if region.text.length ≠ 0 then some region.text else none := by
  have released : processMouseEvent view mouse .up =
      (view.getTextRegion (mouse.released view.font).ordered).bind fun region =>
        some ({ mouse with
          drawSelection := false
          selectEndScrollOffset := mouse.scrollOffset
          selectText := mouse.released view.font
          drawFadeSelection := 50 },
          if region.text.length ≠ 0 then some region.text else none) := by
    have same : { mouse with drawSelection := false }.isClick = false := dragged
    rw [processMouseEvent, same, if_neg Bool.false_ne_true]
    rfl
  rw [released]
  constructor
  · rintro ⟨after, finished⟩
    obtain ⟨region, extracted, same⟩ := Option.bind_eq_some_iff.mp finished
    exact ⟨region, extracted, (congrArg Prod.snd (Option.some.inj same)).symm⟩
  · rintro ⟨region, extracted, rfl⟩
    exact ⟨_, by rw [extracted, Option.bind_some]⟩

/-- Both directions copy the same text. -/
theorem releaseDrag_symmetric (rowsOrdered : y1 < y2) {first second : Mouse}
    (firstDragged : first.isClick = false) (secondDragged : second.isClick = false)
    (forward : first.released view.font = ⟨x1, y1, x2, y2⟩)
    (backward : second.released view.font = ⟨x2, y2, x1, y1⟩) (copied : Option (List UInt16)) :
    (∃ after, processMouseEvent view first .up = some (after, copied)) ↔
      ∃ after, processMouseEvent view second .up = some (after, copied) := by
  obtain ⟨corners, others⟩ := @ordered_ends x1 y1 x2 y2 rowsOrdered
  rw [processMouseEvent_up firstDragged, processMouseEvent_up secondDragged, forward, backward,
    corners, others]

theorem zero_not_mem_areaText : 0 ∉ areaText view x1 y1 x2 y2 := by
  intro zero
  rcases mem_intercalate zero with same | ⟨line, member, here⟩
  · exact absurd same (by decide)
  · obtain ⟨y, -, rfl⟩ := List.mem_map.mp member
    unfold areaUnits at here
    cases present : presentRow view.screen view.buffer y with
    | none => simp [present] at here
    | some row =>
        rw [present] at here
        exact absurd (List.of_mem_filter here) (by decide)

/-- The columns of the rows are copied where the area is kept. -/
theorem KeepsArea.columns (kept : KeepsArea view x1 y1 x2 y2) {y : Int} {row : Line}
    (above : y1 ≤ y) (below : y ≤ y2) (present : presentRow view.screen view.buffer y = some row) :
    (Int.range (firstColumn (min x1 x2) y1 y) (dragStop view x1 y1 x2 y2 row y)).filter
        (keepsColumn (view.behind y) row) =
      (Int.range (areaStart x1 y1 y) (areaEnd x2 y2 row y)).filter
        (keepsColumn (view.behind y) row) := by
  refine (dragColumns_iff row y).mpr ⟨?_, kept.stop y row above below present⟩
  rintro rfl
  exact kept.front row present

/-- What is copied determines the text. -/
theorem copied_inj {first second : List UInt16}
    (same : (if first.length ≠ 0 then some first else none) =
      if second.length ≠ 0 then some second else none) : first = second := by
  cases first <;> cases second <;> simp_all

/-- **One drag** covers the area exactly when the area is kept. -/
theorem coversArea_iff (rowsOrdered : y1 < y2) {mouse : Mouse} (dragged : mouse.isClick = false)
    (released : (mouse.released view.font).ordered = ⟨min x1 x2, y1, max x1 x2, y2⟩) :
    CoversArea view x1 y1 x2 y2 mouse ↔ KeepsArea view x1 y1 x2 y2 := by
  have region (final : TextRegion) : view.getTextRegion ⟨min x1 x2, y1, max x1 x2, y2⟩ = some final ↔
      _ := getTextRegion_ordered view.screen view.buffer view.behind (min x1 x2) y1 (max x1 x2) y2
    rowsOrdered.le final
  constructor
  · rintro ⟨copied, columns⟩
    obtain ⟨final, extracted, same⟩ := (processMouseEvent_up dragged _).mp copied
    rw [released] at extracted columns
    obtain ⟨finished, fits⟩ := (region final).mp extracted
    have text := copied_inj same
    have defined (y : Int) (above : y1 ≤ y) (below : y ≤ y2) :=
      grabRow_isSome_of_finished finished above below
    have area (y : Int) (row : Line) (above : y1 ≤ y) (below : y ≤ y2)
        (present : presentRow view.screen view.buffer y = some row) := by
      have both := (copiedColumns_eq y above below fun y' first before =>
        defined y' first (before.trans below)).symm.trans (columns y above below)
      rw [areaColumns, present, Option.elim_some, Option.elim_some] at both
      exact (dragColumns_iff row y).mp (Option.some.inj both)
    refine ⟨defined, fun y len above below missing => ?_, fun row present => ?_,
      fun y row above below present => (area y row above below present).2, by rw [text]; exact fits⟩
    · exact zero_not_mem_areaText (text ▸ zero_mem_of_missing finished above below missing)
    · exact (area y1 row le_rfl rowsOrdered.le present).1 rfl
  · intro kept
    obtain ⟨final, finished, -, text⟩ := @regionRows_finish rows cols view.screen view.buffer
      view.behind (min x1 x2) y1 (max x1 x2) y2 rowsOrdered.le kept.defined
    have whole : final.text = areaText view x1 y1 x2 y2 := by
      rw [text kept.present, areaText]
      refine congrArg _ (List.map_congr_left fun y member => ?_)
      obtain ⟨above, below⟩ := Int.mem_range_iff.mp member
      cases present : presentRow view.screen view.buffer y with
      | none => rw [regionUnits, areaUnits, present, Option.elim_none, Option.elim_none]
      | some row =>
          exact regionUnits_eq_areaUnits present (kept.columns above (by omega) present)
    refine ⟨(processMouseEvent_up dragged _).mpr ⟨final, ?_, by rw [whole]⟩, fun y above below => ?_⟩
    · rw [released]
      exact (region final).mpr ⟨finished, by rw [whole]; exact kept.short⟩
    · rw [released, copiedColumns_eq y above below fun y' first before =>
        kept.defined y' first (before.trans below), areaColumns]
      cases present : presentRow view.screen view.buffer y with
      | none => rfl
      | some row => exact congrArg some (kept.columns above below present)

/-- An area whose columns are in order is kept if its rows are as long as the window is wide, end
in cells that are no spaces, and are followed by no spaces in memory. -/
theorem keepsArea_of_full (left : 0 ≤ x1) (columnsOrdered : x1 ≤ x2) (right : x2 < cols)
    (full : ∀ y, y1 ≤ y → y ≤ y2 → ∃ row : Line,
      grabRow view.screen view.buffer y = some ⟨some row, cols⟩ ∧ row.length = cols ∧
        writtenLength row = cols ∧ rowChar (view.behind y) row cols ≠ 0x20)
    (short : (areaText view x1 y1 x2 y2).length ≤ 5112) : KeepsArea view x1 y1 x2 y2 := by
  have stops (y : Int) (row : Line) (written : rowChar (view.behind y) row cols ≠ 0x20)
      (endX : Int) : copyStop (view.behind y) cols row endX = min endX cols := by
    rw [copyStop, lookedLength_eq, if_neg written]
    rfl
  have lowered : lastRowEnd view x1 y1 x2 y2 = x2 := by
    have kept : ∀ ends : List Int, (∀ last ∈ ends, last = cols - 1) → ends.foldl min x2 = x2 := by
      intro ends
      induction ends with
      | nil => exact fun _ => rfl
      | cons last ends ih =>
          intro same
          obtain ⟨here, others⟩ := List.forall_mem_cons.mp same
          rw [List.foldl_cons, here, min_eq_left (by omega)]
          exact ih others
    rw [lastRowEnd, max_eq_right columnsOrdered]
    refine kept _ fun last member => ?_
    obtain ⟨y, between, found⟩ := List.mem_filterMap.mp member
    obtain ⟨above, below⟩ := Int.mem_range_iff.mp between
    obtain ⟨row, has, -⟩ := full y above (by omega)
    simp only [lastColumn, has, Option.ite_none_right_eq_some, Option.some.injEq] at found
    omega
  refine ⟨fun y above below => ?_, fun y len above below missing => ?_, ?_, ?_, short⟩
  · obtain ⟨row, has, -⟩ := full y above below
    rw [has]
    rfl
  · obtain ⟨row, has, -⟩ := full y above.le below
    rw [has] at missing
    cases missing
  · intro row present x first before
    omega
  · intro y row above below present x first
    obtain ⟨found, has, length, written, behind⟩ := full y above below
    obtain rfl : found = row := by
      rw [presentRow, has] at present
      exact Option.some.inj present
    have same : dragStop view x1 y1 x2 y2 found y = areaEnd x2 y2 found y := by
      rw [dragStop, stops y found behind, areaEnd, lowered, length, written]
    rw [same, min_self, max_self]
    omega

/-- The release of a drag between two pixels. -/
def draggedMouse (startX startY endX endY : Int) : Mouse :=
  ⟨true, startX, startY, 0, endX, endY, 0, ⟨-1, -1, -1, -1⟩, (-1, -1), 0, 0⟩

/-- A window full of letters, with letters in the memory behind its rows. -/
def lettersView (rows cols : Nat) : TextView rows cols :=
  ⟨letterScreen rows cols, none, ⟨8, 16, 0⟩, fun _ _ => 0x41, fun _ => 0⟩

/-- Where a space lies in memory behind a row, the last letter of the row is lost. -/
example :
    let view : TextView 2 3 := ⟨letterScreen 2 3, none, ⟨8, 16, 0⟩, fun _ _ => 0x20, fun _ => 0⟩
    (processMouseEvent view (draggedMouse 0 0 16 20) .up).map Prod.snd =
        some (some [0x41, 0x41, 0x0A, 0x41, 0x41]) ∧
      areaText view 0 0 2 1 = [0x41, 0x41, 0x41, 0x0A, 0x41, 0x41] := by
  decide

end Hackterm
