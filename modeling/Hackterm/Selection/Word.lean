import Hackterm.Scan.Run
import Hackterm.Selection.Drag

/-! # Words

The second short click at a cell should copy the word around the cell, a maximal run of cells
that are not blank. The code takes the column of the cell for an index into the text of the
row, which erased cells and the second cells of wide glyphs have been left out of, and where
a row begins with a word or holds no space it finds no bounds. So it copies the word exactly
if the cells of the run are found at their own columns when only the cells that leave a unit
are counted, with a space before them and a space or the end behind them
(`Hackterm.releaseClick_selects_iff`).
-/

namespace Hackterm

open Scan

variable {rows cols : Nat}

/-- The code point of a cell. An erased cell has none, as have the columns behind a row. -/
def cellChar (row : Line) (x : Nat) : UInt32 := (row[x]?.map VTermScreenCell.char).getD 0

/-- The cell is one of a word: it holds a code point that is not a space, or it is the second
cell of a wide glyph. -/
def isWordCell (row : Line) (x : Nat) : Bool :=
  cellChar row x ≠ 0 && cellChar row x ≠ 0x20 && cellChar row x ≠ 0x0A

/-- The code points of the columns from `a` up to `b`, without the second cells of wide glyphs. -/
def runChars (row : Line) (a b : Nat) : List UInt32 :=
  ((List.range (b - a)).map fun i => cellChar row (a + i)).filter (· ≠ 0xFFFFFFFF)

/-- The bounds are those of the run, its code points are copied, and only units of the text
are used. -/
structure WordSelection.Selects (word : WordSelection) (text : List UInt16) (row : Line)
    (a b : Nat) : Prop where
  startX : word.startX = a
  endX : word.endX + 1 = b
  copied : word.copied.map (List.map UInt16.toUInt32) = some (runChars row a b)
  reads : ∀ n ∈ word.reads, 0 ≤ n ∧ n < text.length

/-- The text agrees with the row on the run. A space stands before it, and the text ends
behind it, or there is a space. -/
structure TextAgrees (text : List UInt16) (row : Line) (a b : Nat) : Prop where
  left : a ≠ 0 ∧ text[a - 1]?.any isBreak = true
  same : ∀ x, a ≤ x → x < b → text[x]?.map UInt16.toUInt32 = some (cellChar row x)
  right : text.length = b ∨ text[b]?.any isBreak = true

section Cells

variable (behind : Int → UInt32) (cols : Nat) (row : Line)

/-- The columns of a row whose cells leave a unit in the text that is extracted at a click. -/
def textColumns : List Int :=
  (Int.range 0 (copyStop behind cols row cols)).filter (keepsColumn behind row)

/-- The cell of a column leaves a break. -/
def breaksAt (x : Int) : Bool := isBreak (rowChar behind row x).toUInt16

/-- Where only the cells that leave a unit are counted, the cells of the run are followed by the
end or a break and preceded by a break, and at each place of the run stands a cell that leaves
the code point of the cell at that column. -/
structure KeepsRun (a b : Nat) : Prop where
  left : a ≠ 0 ∧ ∃ x, (textColumns behind cols row)[a - 1]? = some x ∧ breaksAt behind row x = true
  same : ∀ n, a ≤ n → n < b → ∃ x, (textColumns behind cols row)[n]? = some x ∧
    (rowChar behind row x).toUInt16.toUInt32 = cellChar row n
  right : (textColumns behind cols row).length = b ∨
    ∃ x, (textColumns behind cols row)[b]? = some x ∧ breaksAt behind row x = true

/-- In a run of word cells, what the cells leave fits the array, and the cells keep the run.
Elsewhere no cell leaves a unit. -/
structure KeepsWord (column : Int) : Prop where
  run : ∀ place a b : Nat, column = place → MaximalRun (isWordCell row) place a b →
    (textColumns behind cols row).length ≤ 5112 ∧ KeepsRun behind cols row a b
  blank : (∀ place : Nat, column = place → isWordCell row place = false) →
    textColumns behind cols row = []

end Cells

/-- A word cell lies in exactly one maximal run. -/
theorem isWordCell_run (row : Line) (place : Nat) (word : isWordCell row place = true) :
    ∃ a b, MaximalRun (isWordCell row) place a b ∧
      ∀ a' b', MaximalRun (isWordCell row) place a' b' → a' = a ∧ b' = b := by
  have beyond : cellChar row (max place row.length) = 0 := by
    rw [cellChar, List.getElem?_eq_none (le_max_right _ _)]
    rfl
  have stops : isWordCell row (max place row.length) = false := by
    rw [isWordCell, beyond]
    rfl
  obtain ⟨a, b, run⟩ := maximalRun_exists word ⟨_, le_max_left _ _, stops⟩
  exact ⟨a, b, run, fun a' b' other => other.unique run⟩

section Bounds

variable (unit : Int → UInt16)

theorem leftBound_le (n : Nat) : leftBound unit n ≤ n + 1 := by
  induction n with
  | zero =>
      unfold leftBound
      split <;> omega
  | succ n ih =>
      unfold leftBound
      split <;> omega

/-- The search to the left ends behind the first break that it comes to. -/
theorem leftBound_eq_iff (n a : Nat) (inside : a ≤ n + 1) :
    leftBound unit n = a ↔ (a ≠ 0 ∧ isBreak (unit ((a - 1 : Nat) : Int)) = true) ∧
      ∀ x : Nat, a ≤ x → x ≤ n → isBreak (unit x) = false := by
  induction n with
  | zero =>
      have first : leftBound unit 0 = if isBreak (unit 0) then 1 else -1 := rfl
      rw [first]
      rcases Nat.le_one_iff_eq_zero_or_eq_one.mp inside with rfl | rfl
      · split <;> simp
      · cases broken : isBreak (unit 0) with
        | true => simpa using fun x above below => absurd below (by omega)
        | false => simp
  | succ n ih =>
      have last : leftBound unit (n + 1) =
          if isBreak (unit ((n + 1 : Nat) : Int)) then (n : Int) + 2 else leftBound unit n := rfl
      rw [last]
      cases broken : isBreak (unit ((n + 1 : Nat) : Int)) with
      | true =>
          rw [if_pos rfl]
          by_cases here : a = n + 2
          · subst here
            refine iff_of_true (by omega) ⟨⟨by omega, broken⟩, fun x above below => ?_⟩
            omega
          · refine iff_of_false (by omega) fun found => ?_
            exact Bool.false_ne_true ((found.2 (n + 1) (by omega) le_rfl).symm.trans broken)
      | false =>
          rw [if_neg Bool.false_ne_true]
          by_cases here : a = n + 2
          · subst here
            have bound := leftBound_le unit n
            refine iff_of_false (by omega) fun found => ?_
            exact Bool.false_ne_true (broken.symm.trans found.1.2)
          · refine (ih (by omega)).trans ?_
            refine and_congr_right fun _ => ⟨fun all x above below => ?_, fun all x above below =>
              all x above (by omega)⟩
            rcases Nat.le_succ_iff.mp below with earlier | rfl
            · exact all x above earlier
            · exact broken

theorem leftReads_inside (n : Nat) :
    (n : Int) ∈ leftReads unit n ∧ ∀ index ∈ leftReads unit n, 0 ≤ index ∧ index ≤ n := by
  induction n with
  | zero => simp [leftReads]
  | succ n ih =>
      refine ⟨List.mem_cons_self, List.forall_mem_cons.mpr ⟨by omega, fun index member => ?_⟩⟩
      split_ifs at member
      · simp at member
      · have inside := ih.2 index member
        omega

/-- The search to the right ends before the first break that it comes to, if there is one. -/
theorem rightBound_spec (turns : Nat) (n : Int) :
    (∃ k : Nat, k < turns ∧ isBreak (unit (n + k)) = true ∧
      (∀ j : Nat, j < k → isBreak (unit (n + j)) = false) ∧ rightBound unit turns n = n + k - 1) ∨
    (∀ j : Nat, j < turns → isBreak (unit (n + j)) = false) ∧ rightBound unit turns n = -1 := by
  induction turns generalizing n with
  | zero => exact Or.inr ⟨fun j below => absurd below (Nat.not_lt_zero j), rfl⟩
  | succ turns ih =>
      have first : rightBound unit (turns + 1) n =
          if isBreak (unit n) then n - 1 else rightBound unit turns (n + 1) := rfl
      have shift (j : Nat) : n + 1 + (j : Int) = n + ((j + 1 : Nat) : Int) := by omega
      rw [first]
      cases broken : isBreak (unit n) with
      | true =>
          refine Or.inl ⟨0, Nat.succ_pos _, ?_, fun j below => absurd below (Nat.not_lt_zero j), ?_⟩
          · rw [Int.natCast_zero, Int.add_zero, broken]
          · rw [if_pos rfl, Int.natCast_zero, Int.add_zero]
      | false =>
          rw [if_neg Bool.false_ne_true]
          have cons (k : Nat) (all : ∀ j : Nat, j < k → isBreak (unit (n + 1 + j)) = false) (j : Nat)
              (below : j < k + 1) : isBreak (unit (n + j)) = false := by
            cases j with
            | zero => rw [Int.natCast_zero, Int.add_zero, broken]
            | succ j => rw [← shift, all j (by omega)]
          rcases ih (n + 1) with ⟨k, below, found, before, bound⟩ | ⟨none_, bound⟩
          · refine Or.inl ⟨k + 1, by omega, ?_, cons k before, ?_⟩
            · rw [← shift, found]
            · rw [bound]
              omega
          · exact Or.inr ⟨cons turns none_, bound⟩

/-- The search to the right, or the end of the text, gives the end of a run whose units are no
breaks, where the text ends or has a break behind it. -/
theorem rightEnd_eq_iff (length place b : Nat) (ahead : place < b) (reach : b ≤ length)
    (inRun : ∀ x : Nat, place ≤ x → x < b → isBreak (unit x) = false) :
    (if rightBound unit (length - place) place = -1 then (length : Int) - 1
      else rightBound unit (length - place) place) + 1 = b ↔
        length = b ∨ isBreak (unit b) = true := by
  rcases rightBound_spec unit (length - place) place with ⟨k, below, found, none_, bound⟩ |
    ⟨none_, bound⟩
  · have beyond : b ≤ place + k := by
      by_contra inside
      have other := inRun (place + k) (by omega) (by omega)
      rw [Int.natCast_add, found] at other
      cases other
    rw [bound, if_neg (by omega)]
    constructor
    · intro last
      have here : place + k = b := by omega
      rw [← Int.natCast_add, here] at found
      exact Or.inr found
    · intro behind
      have nearer : place + k ≤ b := by
        by_contra later
        have other := none_ (b - place) (by omega)
        rw [← Int.natCast_add, Nat.add_sub_cancel' ahead.le] at other
        rcases behind with ended | broken
        · omega
        · rw [broken] at other
          cases other
      omega
  · rw [bound, if_pos rfl]
    constructor
    · exact fun last => Or.inl (by omega)
    · rintro (ended | broken)
      · omega
      · by_contra longer
        have other := none_ (b - place) (by omega)
        rw [← Int.natCast_add, Nat.add_sub_cancel' ahead.le, broken] at other
        cases other

theorem rightReads_inside (turns : Nat) (n : Int) :
    ∀ index ∈ rightReads unit turns n, n ≤ index ∧ index < n + turns := by
  induction turns generalizing n with
  | zero => simp [rightReads]
  | succ turns ih =>
      refine List.forall_mem_cons.mpr ⟨by omega, fun index member => ?_⟩
      split_ifs at member
      · simp at member
      · have inside := ih (n + 1) index member
        omega

end Bounds

theorem textUnit_of_lt (stale : Int → UInt16) (text : List UInt16) (n : Nat)
    (inside : n < text.length) : textUnit stale text n = text[n] := by
  rw [textUnit, if_pos (by omega), Int.toNat_natCast, List.getD_eq_getElem?_getD,
    List.getElem?_eq_getElem inside, Option.getD_some]

/-- The break at a place of the text. -/
theorem any_isBreak_iff (stale : Int → UInt16) (text : List UInt16) (n : Nat) :
    text[n]?.any isBreak = true ↔ n < text.length ∧ isBreak (textUnit stale text n) = true := by
  by_cases inside : n < text.length
  · rw [textUnit_of_lt stale text n inside, List.getElem?_eq_getElem inside, Option.any_some]
    exact (and_iff_right inside).symm
  · rw [List.getElem?_eq_none (by omega), Option.any_none]
    exact iff_of_false Bool.false_ne_true fun found => inside found.1

section Select

variable {text : List UInt16} {row : Line} {place a b : Nat}

/-- The units of the run are no breaks where the text agrees with the row. -/
theorem isBreak_eq_false_of_run (stale : Int → UInt16)
    (run : MaximalRun (isWordCell row) place a b)
    (same : ∀ x, a ≤ x → x < b → text[x]?.map UInt16.toUInt32 = some (cellChar row x)) (x : Nat)
    (above : a ≤ x) (below : x < b) :
    x < text.length ∧ isBreak (textUnit stale text x) = false := by
  obtain ⟨unit, here, char⟩ := Option.map_eq_some_iff.mp (same x above below)
  obtain ⟨inside, rfl⟩ := List.getElem?_eq_some_iff.mp here
  have cell := run.all x above below
  rw [isWordCell, ← char] at cell
  refine ⟨inside, ?_⟩
  rw [textUnit_of_lt stale text x inside]
  cases broken : isBreak text[x] with
  | false => rfl
  | true =>
      rcases Bool.or_eq_true_iff.mp broken with space | newline
      · rw [of_decide_eq_true space] at cell
        exact absurd cell (by decide)
      · rw [of_decide_eq_true newline] at cell
        exact absurd cell (by decide)

/-- The units that are copied are the code points of the run exactly where the text agrees
with the row. -/
theorem copied_eq_runChars_iff (stale : Int → UInt16) (inside : b ≤ text.length) :
    ((Int.range a b).map (textUnit stale text)).map UInt16.toUInt32 = runChars row a b ↔
      ∀ x, a ≤ x → x < b → text[x]?.map UInt16.toUInt32 = some (cellChar row x) := by
  have units : ((Int.range a b).map (textUnit stale text)).map UInt16.toUInt32 =
      (List.range (b - a)).map fun i => (textUnit stale text ((a + i : Nat) : Int)).toUInt32 := by
    have count : ((b : Int) - a).toNat = b - a := by omega
    rw [Int.range, count, List.map_map, List.map_map]
    rfl
  have place (x : Nat) (below : x < b) : text[x]?.map UInt16.toUInt32 =
      some (textUnit stale text x).toUInt32 := by
    rw [textUnit_of_lt stale text x (by omega), List.getElem?_eq_getElem (by omega), Option.map_some]
  rw [units, runChars]
  constructor
  · intro same x above below
    have whole : (List.range (b - a)).map (fun i => cellChar row (a + i)) =
        ((List.range (b - a)).map fun i => cellChar row (a + i)).filter (· ≠ 0xFFFFFFFF) := by
      have length := congrArg List.length same
      rw [List.length_map, List.length_range] at length
      refine (List.filter_sublist.eq_of_length ?_).symm
      rw [← length, List.length_map, List.length_range]
    rw [← whole] at same
    have here := List.map_inj_left.mp same (x - a) (List.mem_range.mpr (by omega))
    rw [Nat.add_sub_cancel' above] at here
    rw [place x below, here]
  · intro agrees
    have char (i : Nat) (below : i < b - a) :
        (textUnit stale text ((a + i : Nat) : Int)).toUInt32 = cellChar row (a + i) := by
      have here := agrees (a + i) (by omega) (by omega)
      rw [place (a + i) (by omega)] at here
      exact Option.some.inj here
    have same : (List.range (b - a)).map
        (fun i => (textUnit stale text ((a + i : Nat) : Int)).toUInt32) =
          (List.range (b - a)).map fun i => cellChar row (a + i) :=
      List.map_congr_left fun i member => char i (List.mem_range.mp member)
    rw [same]
    refine (List.filter_eq_self.mpr ?_).symm
    rw [List.forall_mem_map]
    intro i member
    rw [← char i (List.mem_range.mp member), decide_eq_true_eq]
    intro large
    have value := congrArg UInt32.toNat large
    rw [UInt16.toNat_toUInt32] at value
    have bound := (textUnit stale text ((a + i : Nat) : Int)).toNat_lt
    rw [value] at bound
    exact absurd bound (by decide)

/-- The parts of the selection at a column. -/
theorem selectWord_of_narrow (stale : Int → UInt16) (narrow : text.length ≤ cols) (place : Nat) :
    let word := selectWord stale cols text place
    let unit := textUnit stale text
    word.startX = leftBound unit place ∧
      (word.endX = if rightBound unit (text.length - place) place = -1 then (text.length : Int) - 1
        else rightBound unit (text.length - place) place) ∧
      (word.copied = if text.length ≠ 0 then
        some ((Int.range word.startX (word.endX + 1)).map unit) else none) ∧
      word.reads = leftReads unit place ++ rightReads unit (text.length - place) place ++
        if text.length ≠ 0 then Int.range word.startX (word.endX + 1) else [] := by
  have turns : (min (cols : Int) text.length - place).toNat = text.length - place := by
    rw [min_eq_right (Int.ofNat_le.mpr narrow)]
    omega
  have notLeft : ¬ (place : Int) < 0 := by omega
  simp only [selectWord, turns, if_neg notLeft, Int.toNat_natCast, and_self]

/-- **One row.** The word at a column is selected exactly if the text of the row agrees with the
row on the run around the column. -/
theorem selectWord_selects_iff (stale : Int → UInt16) (narrow : text.length ≤ cols)
    (run : MaximalRun (isWordCell row) place a b) :
    (selectWord stale cols text place).Selects text row a b ↔ TextAgrees text row a b := by
  have begins := run.begins
  have ends := run.ends
  obtain ⟨left, right, copied, reads⟩ := selectWord_of_narrow stale narrow place
  generalize selectWord stale cols text place = word at left right copied reads
  have bounds := leftBound_eq_iff (textUnit stale text) place a (by omega)
  have search := rightEnd_eq_iff (textUnit stale text) text.length place b ends
  constructor
  · intro selects
    have inside : place < text.length := by
      have read := selects.reads place (by
        rw [reads]
        exact List.mem_append_left _ (List.mem_append_left _ (leftReads_inside _ place).1))
      omega
    have present : text.length ≠ 0 := by omega
    obtain ⟨⟨notFirst, before⟩, -⟩ := bounds.mp (left.symm.trans selects.startX)
    rw [if_pos present, selects.startX, selects.endX] at copied reads
    have reach : b ≤ text.length := by
      have read := selects.reads (b - 1 : Int) (by
        rw [reads]
        exact List.mem_append_right _ (Int.mem_range_iff.mpr ⟨by omega, by omega⟩))
      omega
    have same : ∀ x, a ≤ x → x < b → text[x]?.map UInt16.toUInt32 = some (cellChar row x) := by
      have chars := selects.copied
      rw [copied, Option.map_some] at chars
      exact (copied_eq_runChars_iff stale reach).mp (Option.some.inj chars)
    have inWord (x : Nat) := isBreak_eq_false_of_run stale run same x
    refine ⟨⟨notFirst, (any_isBreak_iff stale text _).mpr ⟨by omega, before⟩⟩, same, ?_⟩
    have last := selects.endX
    rw [right, search reach fun x above below => (inWord x (by omega) below).2] at last
    by_cases ended : text.length = b
    · exact Or.inl ended
    · exact Or.inr ((any_isBreak_iff stale text b).mpr ⟨by omega, last.resolve_left ended⟩)
  · intro agrees
    have inWord (x : Nat) := isBreak_eq_false_of_run stale run agrees.same x
    have reach : b ≤ text.length := by
      have last := (inWord (b - 1) (by omega) (by omega)).1
      omega
    have present : text.length ≠ 0 := by omega
    obtain ⟨notFirst, before⟩ := agrees.left
    have startX : word.startX = a := by
      rw [left]
      exact bounds.mpr ⟨⟨notFirst, ((any_isBreak_iff stale text _).mp before).2⟩,
        fun x above below => (inWord x above (by omega)).2⟩
    have endX : word.endX + 1 = b := by
      rw [right, search reach fun x above below => (inWord x (by omega) below).2]
      exact agrees.right.imp_right fun broken => ((any_isBreak_iff stale text b).mp broken).2
    rw [if_pos present, startX, endX] at copied reads
    refine ⟨startX, endX, ?_, fun index member => ?_⟩
    · rw [copied, Option.map_some]
      exact congrArg some ((copied_eq_runChars_iff stale reach).mpr agrees.same)
    · rw [reads, List.mem_append, List.mem_append] at member
      rcases member with (inLeft | inRight) | inRun
      · have between := (leftReads_inside _ place).2 index inLeft
        omega
      · have between := rightReads_inside _ _ _ index inRight
        omega
      · have between := Int.mem_range_iff.mp inRun
        omega

end Select

section Click

variable (view : TextView rows cols) (mouse : Mouse) (row : Line)

/-- The text that is extracted from the row of a click. -/
def rowText (y : Int) : List UInt16 := rowUnits (view.behind y) cols 0 cols row

/-- In a run of word cells, the second click selects the run, copies it and uses only units of
the text that was extracted. Elsewhere nothing is copied. -/
structure SelectsWord (point : SelectBox) : Prop where
  run : ∀ place a b : Nat, point.startX = place → MaximalRun (isWordCell row) place a b →
    ∃ after copied region, processMouseEvent view mouse .up = some (after, copied) ∧
      view.getTextRegion ⟨0, point.startY, cols, point.startY⟩ = some region ∧
      after.selectText = ⟨a, point.startY, b, point.startY⟩ ∧
      copied.map (List.map UInt16.toUInt32) = some (runChars row a b) ∧
      ∀ n ∈ (selectWord view.stale cols region.text place).reads, 0 ≤ n ∧ n < region.text.length
  blank : (∀ place : Nat, point.startX = place → isWordCell row place = false) →
    ∃ after, processMouseEvent view mouse .up = some (after, none)

variable {view mouse row}

/-- The text of a row is what its cells leave. -/
theorem rowText_eq_map (y : Int) :
    rowText view row y = (textColumns (view.behind y) cols row).map fun x =>
      (rowChar (view.behind y) row x).toUInt16 := by
  rw [rowText, rowUnits, rowRange, clippedEnd_eq_copyStop, List.filter_map]
  rfl

theorem length_rowText (y : Int) :
    (rowText view row y).length = (textColumns (view.behind y) cols row).length := by
  rw [rowText_eq_map, List.length_map]

/-- The break at a place of the text, by the cell that leaves it. -/
theorem rowText_any_isBreak_iff (y : Int) (n : Nat) :
    (rowText view row y)[n]?.any isBreak = true ↔
      ∃ x, (textColumns (view.behind y) cols row)[n]? = some x ∧
        breaksAt (view.behind y) row x = true := by
  rw [rowText_eq_map, List.getElem?_map]
  cases (textColumns (view.behind y) cols row)[n]? with
  | none => exact iff_of_false Bool.false_ne_true fun ⟨_, present, _⟩ => by cases present
  | some x =>
      refine ⟨fun broken => ⟨x, rfl, broken⟩, ?_⟩
      rintro ⟨_, same, broken⟩
      obtain rfl := Option.some.inj same
      exact broken

/-- The text agrees with the row on a run exactly if the cells keep the run. -/
theorem textAgrees_rowText_iff (y : Int) (a b : Nat) :
    TextAgrees (rowText view row y) row a b ↔ KeepsRun (view.behind y) cols row a b := by
  have place (n : Nat) (char : UInt32) :
      (rowText view row y)[n]?.map UInt16.toUInt32 = some char ↔
        ∃ x, (textColumns (view.behind y) cols row)[n]? = some x ∧
          (rowChar (view.behind y) row x).toUInt16.toUInt32 = char := by
    rw [rowText_eq_map, List.getElem?_map, Option.map_map]
    exact Option.map_eq_some_iff
  constructor
  · intro agrees
    refine ⟨agrees.left.imp_right (rowText_any_isBreak_iff y (a - 1)).mp, fun n above below =>
      (place n _).mp (agrees.same n above below), ?_⟩
    rw [← length_rowText]
    exact agrees.right.imp_right (rowText_any_isBreak_iff y b).mp
  · intro keeps
    refine ⟨keeps.left.imp_right (rowText_any_isBreak_iff y (a - 1)).mpr, fun n above below =>
      (place n _).mpr (keeps.same n above below), ?_⟩
    rw [length_rowText]
    exact keeps.right.imp_right (rowText_any_isBreak_iff y b).mpr

/-- The text of one row is extracted if it fits its array. -/
theorem getTextRegion_row {y : Int} (present : presentRow view.screen view.buffer y = some row) :
    (view.getTextRegion ⟨0, y, cols, y⟩).map TextRegion.text =
      if (rowText view row y).length ≤ 5112 then some (rowText view row y) else none := by
  obtain ⟨⟨rowdata, len⟩, has, same⟩ := Option.bind_eq_some_iff.mp present
  obtain rfl : rowdata = some row := same
  obtain ⟨final, finished, -, text⟩ := @regionRows_finish rows cols view.screen view.buffer
    view.behind 0 y cols y le_rfl fun y' above below => by
      rw [Int.le_antisymm below above, has]
      rfl
  have units : final.text = rowText view row y := by
    rw [text fun y' len above below => absurd (above.trans_le below) (lt_irrefl _),
      intRange_concat y y le_rfl, intRange_of_le y y le_rfl, List.nil_append, List.map_singleton]
    have start : firstColumn 0 y y = 0 := if_pos rfl
    have ends : rowEnd view.screen view.buffer view.behind 0 y cols y y = cols := by
      rw [rowEnd, if_pos rfl, regionEnd, intRange_of_le y y le_rfl, List.foldl_nil]
    rw [regionUnits, present, start, ends, Option.elim_some]
    simp [rowText]
  have region := getTextRegion_ordered view.screen view.buffer view.behind 0 y cols y le_rfl
  rw [← units]
  split
  · rename_i fits
    exact congrArg (Option.map TextRegion.text) ((region final).mpr ⟨finished, fits⟩)
  · rename_i long
    cases extracted : view.getTextRegion ⟨0, y, cols, y⟩ with
    | none => rfl
    | some other =>
        obtain ⟨again, fits⟩ := (region other).mp extracted
        obtain rfl := Option.some.inj (finished.symm.trans again)
        exact absurd fits long

/-- What is extracted from a row is its text, which fits its array. -/
theorem text_of_getTextRegion_row {y : Int}
    (present : presentRow view.screen view.buffer y = some row) {region : TextRegion}
    (extracted : view.getTextRegion ⟨0, y, cols, y⟩ = some region) :
    region.text = rowText view row y ∧ region.text.length ≤ 5112 := by
  have text := getTextRegion_row present
  rw [extracted, Option.map_some] at text
  split at text
  · rename_i fits
    rw [Option.some.inj text]
    exact ⟨rfl, fits⟩
  · cases text

theorem getTextRegion_row_of_fits {y : Int}
    (present : presentRow view.screen view.buffer y = some row)
    (fits : (rowText view row y).length ≤ 5112) :
    ∃ region, view.getTextRegion ⟨0, y, cols, y⟩ = some region ∧
      region.text = rowText view row y := by
  have text := getTextRegion_row present
  rw [if_pos fits] at text
  exact Option.map_eq_some_iff.mp text

/-- What the second click at a cell does. -/
theorem processMouseEvent_click (click : mouse.isClick = true)
    (again : mouse.lastTextPoint =
      ((mouse.released view.font).startX, (mouse.released view.font).startY)) :
    processMouseEvent view mouse .up =
      (view.getTextRegion ⟨0, (mouse.released view.font).startY, cols,
          (mouse.released view.font).startY⟩).bind fun region =>
        let word := selectWord view.stale cols region.text (mouse.released view.font).startX
        some ({ mouse with
          drawSelection := false
          selectEndScrollOffset := mouse.scrollOffset
          selectText := ⟨word.startX, (mouse.released view.font).startY, word.endX + 1,
            (mouse.released view.font).startY⟩
          drawFadeSelection := 50
          lastTextPoint := ((mouse.released view.font).startX,
            (mouse.released view.font).startY) }, word.copied) := by
  have same : { mouse with drawSelection := false }.isClick = true := click
  rw [processMouseEvent, same, if_pos rfl, releaseClick]
  exact if_pos again

/-- In a run, the second click does what it should exactly if the text of the row fits its array
and its word is selected. -/
theorem click_run_iff {place a b : Nat} (click : mouse.isClick = true)
    (again : mouse.lastTextPoint =
      ((mouse.released view.font).startX, (mouse.released view.font).startY))
    (present : presentRow view.screen view.buffer (mouse.released view.font).startY = some row)
    (column : (mouse.released view.font).startX = place) :
    (∃ after copied region, processMouseEvent view mouse .up = some (after, copied) ∧
        view.getTextRegion ⟨0, (mouse.released view.font).startY, cols,
          (mouse.released view.font).startY⟩ = some region ∧
        after.selectText = ⟨a, (mouse.released view.font).startY, b,
          (mouse.released view.font).startY⟩ ∧
        copied.map (List.map UInt16.toUInt32) = some (runChars row a b) ∧
        ∀ n ∈ (selectWord view.stale cols region.text place).reads,
          0 ≤ n ∧ n < region.text.length) ↔
      (rowText view row (mouse.released view.font).startY).length ≤ 5112 ∧
        (selectWord view.stale cols (rowText view row (mouse.released view.font).startY)
          place).Selects (rowText view row (mouse.released view.font).startY) row a b := by
  have event := processMouseEvent_click click again
  generalize mouse.released view.font = point at event present column
  rw [column] at event
  constructor
  · rintro ⟨after, copied, region, handled, extracted, bounds, chars, reads⟩
    obtain ⟨same, fits⟩ := text_of_getTextRegion_row present extracted
    rw [event, extracted, Option.bind_some] at handled
    obtain ⟨rfl, rfl⟩ := Prod.mk.inj (Option.some.inj handled)
    have box := bounds
    rw [SelectBox.mk.injEq] at box
    rw [same] at fits chars reads box
    exact ⟨fits, box.1, box.2.2.1, chars, reads⟩
  · rintro ⟨fits, selected⟩
    obtain ⟨region, extracted, same⟩ := getTextRegion_row_of_fits present fits
    refine ⟨_, _, region, by rw [event, extracted, Option.bind_some], extracted, ?_, ?_, ?_⟩
    · rw [same, selected.startX, selected.endX]
    · rw [same]
      exact selected.copied
    · rw [same]
      exact selected.reads

/-- The second click copies nothing exactly if the row has no text. -/
theorem click_blank_iff (click : mouse.isClick = true)
    (again : mouse.lastTextPoint =
      ((mouse.released view.font).startX, (mouse.released view.font).startY))
    (present : presentRow view.screen view.buffer (mouse.released view.font).startY = some row) :
    (∃ after, processMouseEvent view mouse .up = some (after, none)) ↔
      rowText view row (mouse.released view.font).startY = [] := by
  have event := processMouseEvent_click click again
  generalize mouse.released view.font = point at event present
  constructor
  · rintro ⟨after, handled⟩
    rw [event] at handled
    obtain ⟨region, extracted, handled⟩ := Option.bind_eq_some_iff.mp handled
    obtain ⟨same, -⟩ := text_of_getTextRegion_row present extracted
    have copied := congrArg Prod.snd (Option.some.inj handled)
    rw [← same, ← List.length_eq_zero_iff]
    by_contra some_
    simp only [selectWord, if_pos some_] at copied
    cases copied
  · intro none_
    have fits : (rowText view row point.startY).length ≤ 5112 := by
      rw [none_]
      exact Nat.zero_le _
    obtain ⟨region, extracted, same⟩ := getTextRegion_row_of_fits present fits
    have copied : (selectWord view.stale cols region.text point.startX).copied = none := by
      rw [same, none_]
      rfl
    have handled : ∃ after, processMouseEvent view mouse .up =
        some (after, (selectWord view.stale cols region.text point.startX).copied) :=
      ⟨_, by rw [event, extracted, Option.bind_some]⟩
    rwa [copied] at handled

end Click

/-- A click at a pixel, after one at a cell. -/
def clickedMouse (x y : Int) (point : Int × Int) : Mouse :=
  ⟨true, x, y, 0, x, y, 0, ⟨-1, -1, -1, -1⟩, point, 0, 0⟩

/-- A window whose rows hold a word of two letters and one letter, with a space before each. -/
def wordsView : TextView 2 5 :=
  { lettersView 2 5 with
    screen := { letterScreen 2 5 with
      buffer := fun row col =>
        if col.val % 3 = 0 then ⟨#v[0x20, 0, 0, 0, 0, 0], defaultPen, by simp⟩
        else (letterScreen 2 5).buffer row col } }

/-- A row of that window. -/
def wordsRow : Line :=
  [⟨[0x20], 1, defaultPen⟩, letterCell, letterCell, ⟨[0x20], 1, defaultPen⟩, letterCell]

theorem wordsRow_run : MaximalRun (isWordCell wordsRow) 2 1 3 := by
  have letters : ∀ x < 3, 1 ≤ x → isWordCell wordsRow x = true := by decide
  exact ⟨by decide, by decide, fun x above below => letters x below above, Or.inr (by decide),
    by decide⟩

end Hackterm
