import Hackterm.Scrollback.Buffer
import Mathlib.Data.Int.Range
import Mathlib.Tactic.SplitIfs

/-! # The text of a selection

Each row of a selection is clipped to its last character that is not a space, and its
first code units are copied up to there, between line breaks (`Hackterm.getTextRegion`).
What a row adds to the text is a stretch of its cells (`Hackterm.copyRow_text`).
-/

namespace Hackterm

variable {rows cols : Nat}

/-- `chars[0]`. -/
def VTermScreenCell.char (cell : VTermScreenCell) : UInt32 := cell.chars.headD 0

/-- `row_data[n].chars[0]`, which is not a cell of the row outside its length: `behind` is
what lies there in memory. -/
def rowChar (behind : Int → UInt32) (row : Line) (n : Int) : UInt32 :=
  if n < 0 then behind n else (row[n.toNat]?.map VTermScreenCell.char).getD (behind n)

/-- The last non-whitespace at a column up to `n`. -/
def lastWritten (behind : Int → UInt32) (row : Line) : Nat → Option Nat
  | 0 => if rowChar behind row 0 ≠ 0x20 then some 0 else none
  | n + 1 =>
      if rowChar behind row ((n + 1 : Nat) : Int) ≠ 0x20 then some (n + 1)
      else lastWritten behind row n

/-- The columns that are looked at for it. -/
def lastWrittenReads (behind : Int → UInt32) (row : Line) : Nat → List Int
  | 0 => [0]
  | n + 1 =>
      ((n + 1 : Nat) : Int) ::
        if rowChar behind row ((n + 1 : Nat) : Int) ≠ 0x20 then []
        else lastWrittenReads behind row n

/-- The variables of `get_text_region` across its loops: the first `len` code units of
`text`, and `text_end_x`. `reads` keeps the cells read, each with the length of its row. -/
structure TextRegion where
  text : List UInt16
  textEndX : Int
  reads : List (Int × Nat)

/-- A code unit stays in the text unless it is 0 or 65535. -/
def isKept (unit : UInt16) : Bool := unit ≠ 0 && unit ≠ 65535

/-- The body of the loop over the columns. -/
def copyCell (behind : Int → UInt32) (row : Line) (glen : Nat) (st : TextRegion) (x : Int) :
    TextRegion :=
  let unit := (rowChar behind row x).toUInt16
  { text := if isKept unit then st.text ++ [unit] else st.text
    textEndX := if (glen : Int) ≤ st.textEndX then glen - 1 else st.textEndX
    reads := st.reads ++ [(x, glen)] }

/-- `end_x`, clipped to the last non-whitespace. -/
def clippedEnd (behind : Int → UInt32) (cols : Nat) (row : Line) (endX : Int) : Int :=
  match lastWritten behind row cols with
  | some n => if (n : Int) < endX then n else endX
  | none => endX

/-- The text of a row that `grab_row` has. -/
def copyRow (behind : Int → UInt32) (cols : Nat) (startX endX : Int) (row : Line) (glen : Nat)
    (st : TextRegion) : TextRegion :=
  let looked := (lastWrittenReads behind row cols).map fun n => (n, glen)
  (Int.range startX (clippedEnd behind cols row endX)).foldl (copyCell behind row glen)
    { st with reads := st.reads ++ looked }

/-- The body of the loop over the rows. `behind` is the memory around the cells of a
row, row by row. -/
def regionRow (screen : VTermScreen rows cols) (buffer : Option ScrollBuffer)
    (behind : Int → Int → UInt32) (textStartX textStartY textEndY : Int) (st : TextRegion)
    (y : Int) : Option TextRegion := do
  let grabbed ← grabRow screen buffer y
  let st := match grabbed.rowdata with
    | none => { st with text := st.text.set 0 0 }
    | some row =>
        copyRow (behind y) cols (if y = textStartY then textStartX else 0)
          (if y = textEndY then st.textEndX else cols) row grabbed.len st
  pure (if y ≠ textEndY then { st with text := st.text ++ [0x0A] } else st)

/-- `get_text_region`: `text` has 5120 code units, and writing more is undefined. -/
def getTextRegion (screen : VTermScreen rows cols) (buffer : Option ScrollBuffer)
    (behind : Int → Int → UInt32) (textStartX textStartY textEndX textEndY : Int) :
    Option TextRegion := do
  let startY := if textEndY < textStartY then textEndY else textStartY
  let endY := if textEndY < textStartY then textStartY else textEndY
  let st ← (Int.range startY (endY + 1)).foldlM
    (regionRow screen buffer behind textStartX startY endY) ⟨[], textEndX, []⟩
  if 5120 < st.text.length + 8 then none else some st

/-- The first code units of cells, without those of erased cells and gaps. -/
def keptUnits (cells : List VTermScreenCell) : List UInt16 :=
  (cells.map fun cell => cell.char.toUInt16).filter isKept

/-- The cells of a row in the columns from `a` up to `b`. -/
def columns (row : Line) (a b : Nat) : Line := (row.take b).drop a

theorem rowChar_of_lt (behind : Int → UInt32) (row : Line) (n : Nat) (inside : n < row.length) :
    rowChar behind row n = row[n].char := by
  rw [rowChar, if_neg (by omega), Int.toNat_natCast, List.getElem?_eq_getElem inside]
  rfl

/-- What the loop over the columns does to the text, the end and the reads. -/
theorem foldl_copyCell (behind : Int → UInt32) (row : Line) (glen : Nat) (xs : List Int)
    (st : TextRegion) :
    (xs.foldl (copyCell behind row glen) st).text =
        st.text ++ (xs.map fun x => (rowChar behind row x).toUInt16).filter isKept ∧
      ((xs.foldl (copyCell behind row glen) st).textEndX = st.textEndX ∨
        (glen : Int) ≤ st.textEndX ∧ xs ≠ [] ∧
          (xs.foldl (copyCell behind row glen) st).textEndX = glen - 1) ∧
      (xs.foldl (copyCell behind row glen) st).reads = st.reads ++ xs.map fun x => (x, glen) := by
  induction xs generalizing st with
  | nil => simp
  | cons x xs ih =>
      obtain ⟨text, ends, reads⟩ := ih (copyCell behind row glen st x)
      rw [List.foldl_cons]
      refine ⟨?_, ?_, ?_⟩
      · rw [text, copyCell, List.map_cons, List.filter_cons]
        dsimp only
        split
        · rw [List.append_assoc, List.singleton_append]
        · rfl
      · have here : (copyCell behind row glen st x).textEndX =
            if (glen : Int) ≤ st.textEndX then (glen : Int) - 1 else st.textEndX := rfl
        rw [here] at ends
        by_cases late : (glen : Int) ≤ st.textEndX
        · rw [if_pos late] at ends
          refine Or.inr ⟨late, List.cons_ne_nil _ _, ?_⟩
          rcases ends with same | ⟨further, -⟩
          · exact same
          · omega
        · rw [if_neg late] at ends
          exact Or.inl (ends.resolve_right fun further => late further.1)
      · rw [reads, copyCell, List.map_cons, List.append_assoc, List.singleton_append]

/-- Columns inside a row are cells of it. -/
theorem map_range_rowChar (behind : Int → UInt32) (row : Line) (a : Nat) (e : Int)
    (inside : e ≤ row.length) :
    (Int.range a e).map (rowChar behind row) =
      (columns row a e.toNat).map VTermScreenCell.char := by
  apply List.ext_getElem
  · simp [Int.range, columns]
    omega
  · intro i below _
    have here : i < (e - a).toNat := by simpa [Int.range] using below
    rw [List.getElem_map, List.getElem_map]
    simp only [Int.range, List.getElem_map, List.getElem_range, columns, List.getElem_drop,
      List.getElem_take]
    exact rowChar_of_lt behind row (a + i) (by omega)

/-- The search for the last non-whitespace finds it. -/
theorem lastWritten_spec (behind : Int → UInt32) (row : Line) (n : Nat) :
    match lastWritten behind row n with
    | some k => k ≤ n ∧ rowChar behind row k ≠ 0x20 ∧
        ∀ j : Nat, k < j → j ≤ n → rowChar behind row j = 0x20
    | none => ∀ j : Nat, j ≤ n → rowChar behind row j = 0x20 := by
  induction n with
  | zero =>
      unfold lastWritten
      split_ifs with written
      · exact ⟨le_rfl, written, fun j above below => by omega⟩
      · intro j below
        rw [Nat.le_zero.mp below]
        exact not_not.mp written
  | succ n ih =>
      unfold lastWritten
      split_ifs with written
      · exact ⟨le_rfl, written, fun j above below => by omega⟩
      · have space : rowChar behind row ((n + 1 : Nat) : Int) = 0x20 := not_not.mp written
        cases found : lastWritten behind row n with
        | none =>
            rw [found] at ih
            intro j below
            rcases Nat.le_succ_iff.mp below with earlier | rfl
            · exact ih j earlier
            · exact space
        | some k =>
            rw [found] at ih
            obtain ⟨inside, here, later⟩ := ih
            refine ⟨Nat.le_succ_of_le inside, here, fun j above below => ?_⟩
            rcases Nat.le_succ_iff.mp below with earlier | rfl
            · exact later j above earlier
            · exact space

theorem clippedEnd_le (behind : Int → UInt32) (cols : Nat) (row : Line) (endX : Int) :
    clippedEnd behind cols row endX ≤ endX := by
  unfold clippedEnd
  split
  · split
    · omega
    · exact le_rfl
  · exact le_rfl

theorem lastWrittenReads_first (behind : Int → UInt32) (row : Line) (n : Nat) :
    (n : Int) ∈ lastWrittenReads behind row n := by
  cases n with
  | zero => exact List.mem_singleton_self _
  | succ n => exact List.mem_cons_self

theorem lastWrittenReads_inside (behind : Int → UInt32) (row : Line) (n : Nat) :
    ∀ index ∈ lastWrittenReads behind row n, 0 ≤ index ∧ index ≤ n := by
  induction n with
  | zero => simp [lastWrittenReads]
  | succ n ih =>
      rw [lastWrittenReads, List.forall_mem_cons]
      refine ⟨by omega, fun index member => ?_⟩
      split_ifs at member
      · simp at member
      · have inside := ih index member
        omega

/-- The columns read in a row. -/
def rowReads (behind : Int → UInt32) (cols : Nat) (startX endX : Int) (row : Line) (glen : Nat) :
    List (Int × Nat) :=
  ((lastWrittenReads behind row cols) ++
    Int.range startX (clippedEnd behind cols row endX)).map fun n => (n, glen)

/-- A row only adds to the text and the reads. -/
theorem copyRow_grows (behind : Int → UInt32) (cols : Nat) (startX endX : Int) (row : Line)
    (glen : Nat) (st : TextRegion) :
    let next := copyRow behind cols startX endX row glen st
    (∃ units, next.text = st.text ++ units) ∧
      next.reads = st.reads ++ rowReads behind cols startX endX row glen := by
  obtain ⟨text, -, reads⟩ := foldl_copyCell behind row glen
    (Int.range startX (clippedEnd behind cols row endX))
    { st with reads := st.reads ++ (lastWrittenReads behind row cols).map fun n => (n, glen) }
  refine ⟨⟨_, text⟩, reads.trans ?_⟩
  rw [rowReads, List.map_append, List.append_assoc]

/-- What a row adds to the text, the end and the reads. -/
theorem copyRow_spec (behind : Int → UInt32) (cols a : Nat) (endX : Int) (row : Line)
    (st : TextRegion) (inside : clippedEnd behind cols row endX ≤ row.length) :
    let next := copyRow behind cols a endX row row.length st
    next.text =
        st.text ++ keptUnits (columns row a (clippedEnd behind cols row endX).toNat) ∧
      (next.textEndX = st.textEndX ∨
        (row.length : Int) ≤ st.textEndX ∧ (a : Int) < clippedEnd behind cols row endX ∧
          next.textEndX = row.length - 1) ∧
      next.reads = st.reads ++ rowReads behind cols a endX row row.length := by
  obtain ⟨text, ends, -⟩ := foldl_copyCell behind row row.length
    (Int.range a (clippedEnd behind cols row endX))
    { st with reads := st.reads ++ (lastWrittenReads behind row cols).map fun n => (n, row.length) }
  intro next
  refine ⟨text.trans ?_, ?_, (copyRow_grows behind cols a endX row row.length st).2⟩
  · have units := congrArg (List.map UInt32.toUInt16) (map_range_rowChar behind row a _ inside)
    rw [List.map_map, List.map_map] at units
    exact congrArg (fun units => st.text ++ units.filter isKept) units
  · refine ends.imp_right ?_
    rintro ⟨late, present, same⟩
    obtain ⟨x, member⟩ := List.exists_mem_of_ne_nil _ present
    have between := Int.mem_range_iff.mp member
    exact ⟨late, by omega, same⟩

theorem intRange_of_le (m n : Int) (le : n ≤ m) : Int.range m n = [] := by
  rw [Int.range, Int.toNat_of_nonpos (by omega), List.range_zero, List.map_nil]

theorem intRange_concat (m n : Int) (le : m ≤ n) : Int.range m (n + 1) = Int.range m n ++ [n] := by
  have length : (n + 1 - m).toNat = (n - m).toNat + 1 := by omega
  have last : m + ((n - m).toNat : Int) = n := by omega
  rw [Int.range, Int.range, length, List.range_succ, List.map_append, List.map_singleton, last]

/-- A row that `grab_row` has is as long as it says. -/
theorem grabRow_len (screen : VTermScreen rows cols) (history : List Line) (y : Int) (row : Line)
    (len : Nat)
    (grabbed : grabRow screen (scrollBufferPushAll none history) y = some ⟨some row, len⟩) :
    len = row.length := by
  unfold grabRow at grabbed
  split_ifs at grabbed with onScreen beyond
  · obtain ⟨cells, reported, same⟩ := Option.map_eq_some_iff.mp grabbed
    cases same
    have collected := congrArg List.length ((mapM_eq_some_iff _ _ _).mp reported)
    simpa using collected
  · cases grabbed
  · obtain ⟨buffer, pushed, grabbed⟩ := Option.bind_eq_some_iff.mp grabbed
    obtain ⟨⟨line, length⟩, slot, same⟩ := Option.bind_eq_some_iff.mp grabbed
    cases same
    have stored : ∀ lineNumber < scrollBufferInitialSize,
        scrollBufferGet buffer lineNumber = some (some row, len) → len = row.length := by
      intro lineNumber inside here
      rw [scrollBufferGet_pushAll history buffer pushed lineNumber inside] at here
      cases recent : history.reverse[lineNumber]? with
      | none => simp [recent] at here
      | some line =>
          simp only [recent, Option.map_some, Option.getD_some, storedLine, Option.some.injEq,
            Prod.mk.injEq] at here
          rw [← here.1, here.2]
    have size : scrollBufferSize (scrollBufferPushAll none history) = scrollBufferInitialSize := by
      rw [pushed]
      rfl
    rw [size] at beyond
    rcases Nat.lt_or_ge (0 - y).toNat scrollBufferInitialSize with inside | full
    · exact stored _ inside slot
    · have wrapped : (0 - y).toNat = scrollBufferInitialSize := by omega
      rw [wrapped, scrollBufferGet_size buffer
        (scrollBufferPushAll_bufferEnd history buffer pushed)] at slot
      exact stored 0 scrollBufferInitialSize_pos slot

theorem intRange_append (m k n : Int) (below : m ≤ k) (above : k ≤ n) :
    Int.range m n = Int.range m k ++ Int.range k n := by
  induction n, above using Int.leInduction with
  | base => rw [intRange_of_le k k le_rfl, List.append_nil]
  | succ n above ih =>
      rw [intRange_concat m n (below.trans above), ih, intRange_concat k n above, List.append_assoc]

theorem intRange_cons (m n : Int) (less : m < n) : Int.range m n = m :: Int.range (m + 1) n := by
  rw [intRange_append m (m + 1) n (by omega) (by omega), intRange_concat m m le_rfl,
    intRange_of_le m m le_rfl, List.nil_append, List.singleton_append]

section Rows

variable (screen : VTermScreen rows cols) (buffer : Option ScrollBuffer)
  (behind : Int → Int → UInt32) (startX startY endY : Int)

variable {screen buffer behind startX startY endY} in
/-- One more row. -/
theorem regionRows_succ {last : Int} (ordered : startY ≤ last) {first st next : TextRegion}
    (reached : (Int.range startY last).foldlM
      (regionRow screen buffer behind startX startY endY) first = some st)
    (stepped : regionRow screen buffer behind startX startY endY st last = some next) :
    (Int.range startY (last + 1)).foldlM
      (regionRow screen buffer behind startX startY endY) first = some next := by
  rw [intRange_concat _ _ ordered, List.foldlM_append, reached]
  change (List.foldlM _ st [last]) = some next
  rw [List.foldlM_cons, stepped]
  rfl

/-- Rows that are each followed by a line break, under an invariant of the state. -/
theorem regionRows_run (last : Int) (line : Int → List UInt16) (holds : Int → TextRegion → Prop)
    (step : ∀ y st, startY ≤ y → y < last → holds y st →
      ∃ next, regionRow screen buffer behind startX startY endY st y = some next ∧
        next.text = st.text ++ (line y ++ [0x0A]) ∧ holds (y + 1) next)
    (st : TextRegion) (begins : holds startY st) (ordered : startY ≤ last) :
    ∃ next, (Int.range startY last).foldlM
        (regionRow screen buffer behind startX startY endY) st = some next ∧
      next.text = st.text ++ (Int.range startY last).flatMap (fun y => line y ++ [0x0A]) ∧
      holds last next := by
  induction last, ordered using Int.leInduction with
  | base =>
      rw [intRange_of_le _ _ le_rfl]
      exact ⟨st, rfl, (List.append_nil _).symm, begins⟩
  | succ last ordered ih =>
      obtain ⟨middle, reached, text, kept⟩ :=
        ih fun y st above below => step y st above (by omega)
      obtain ⟨next, stepped, longer, held⟩ := step last middle ordered (by omega) kept
      refine ⟨next, regionRows_succ ordered reached stepped, ?_, held⟩
      rw [longer, text, intRange_concat _ _ ordered, List.flatMap_append, List.append_assoc,
        List.flatMap_singleton]

theorem regionRow_present (st : TextRegion) (y : Int) (row : Line) (len : Nat)
    (grabbed : grabRow screen buffer y = some ⟨some row, len⟩) :
    regionRow screen buffer behind startX startY endY st y =
      let next := copyRow (behind y) cols (if y = startY then startX else 0)
        (if y = endY then st.textEndX else cols) row len st
      some (if y ≠ endY then { next with text := next.text ++ [0x0A] } else next) := by
  rw [regionRow, grabbed]
  rfl

theorem regionRow_missing (st : TextRegion) (y : Int) (len : Nat)
    (grabbed : grabRow screen buffer y = some ⟨none, len⟩) :
    regionRow screen buffer behind startX startY endY st y =
      some (if y ≠ endY then { st with text := st.text.set 0 0 ++ [0x0A] }
        else { st with text := st.text.set 0 0 }) := by
  rw [regionRow, grabbed]
  rfl

/-- A row of a finished copy was copied from some state. -/
theorem regionRows_at (first last y : Int) (st final : TextRegion) (above : first ≤ y)
    (below : y < last)
    (finished : (Int.range first last).foldlM
      (regionRow screen buffer behind startX startY endY) st = some final) :
    ∃ before after, (Int.range first y).foldlM
        (regionRow screen buffer behind startX startY endY) st = some before ∧
      regionRow screen buffer behind startX startY endY before y = some after ∧
      (Int.range (y + 1) last).foldlM
        (regionRow screen buffer behind startX startY endY) after = some final := by
  rw [intRange_append first y last above below.le, intRange_cons y last below,
    List.foldlM_append] at finished
  obtain ⟨before, reached, finished⟩ := Option.bind_eq_some_iff.mp finished
  rw [List.foldlM_cons] at finished
  obtain ⟨after, stepped, finished⟩ := Option.bind_eq_some_iff.mp finished
  exact ⟨before, after, reached, stepped, finished⟩

/-- What is preserved by every row is preserved by all of them. -/
theorem regionRows_preserve (holds : TextRegion → Prop)
    (step : ∀ y st next, regionRow screen buffer behind startX startY endY st y = some next →
      holds st → holds next)
    (ys : List Int) (st final : TextRegion)
    (finished : ys.foldlM (regionRow screen buffer behind startX startY endY) st = some final)
    (begins : holds st) : holds final := by
  induction ys generalizing st with
  | nil =>
      rw [← Option.some.inj finished]
      exact begins
  | cons y ys ih =>
      rw [List.foldlM_cons] at finished
      obtain ⟨next, stepped, finished⟩ := Option.bind_eq_some_iff.mp finished
      exact ih next finished (step y st next stepped begins)

/-- A row keeps the reads, a zero in the text, and a text that is not empty. -/
theorem regionRow_keeps (y : Int) (st next : TextRegion)
    (stepped : regionRow screen buffer behind startX startY endY st y = some next) :
    (∀ read ∈ st.reads, read ∈ next.reads) ∧ (0 ∈ st.text → 0 ∈ next.text) ∧
      (st.text ≠ [] → next.text ≠ []) := by
  obtain ⟨⟨rowdata, len⟩, grabbed, -⟩ := Option.bind_eq_some_iff.mp stepped
  cases rowdata with
  | none =>
      have zeroed : 0 ∈ st.text → 0 ∈ st.text.set 0 0 := by
        cases st.text with
        | nil => exact id
        | cons unit text => exact fun _ => List.mem_cons_self
      have longer : st.text ≠ [] → st.text.set 0 0 ≠ [] := by simp
      rw [regionRow_missing screen buffer behind startX startY endY st y len grabbed] at stepped
      obtain rfl := Option.some.inj stepped
      split
      · exact ⟨fun _ member => member, fun zero => List.mem_append_left _ (zeroed zero), by simp⟩
      · exact ⟨fun _ member => member, zeroed, longer⟩
  | some row =>
      rw [regionRow_present screen buffer behind startX startY endY st y row len grabbed] at stepped
      obtain rfl := Option.some.inj stepped
      obtain ⟨⟨units, text⟩, reads⟩ := copyRow_grows (behind y) cols
        (if y = startY then startX else 0) (if y = endY then st.textEndX else cols) row len st
      generalize copyRow (behind y) cols _ _ row len st = copied at text reads
      have more : ∀ read ∈ st.reads, read ∈ copied.reads := by
        intro read member
        rw [reads]
        exact List.mem_append_left _ member
      split
      · refine ⟨more, fun zero => ?_, by simp⟩
        rw [text]
        exact List.mem_append_left _ (List.mem_append_left _ zero)
      · refine ⟨more, fun zero => ?_, fun present => ?_⟩
        · rw [text]
          exact List.mem_append_left _ zero
        · rw [text]
          exact List.append_ne_nil_of_left_ne_nil present _

/-- A row that is not the last one leaves a text that is not empty. -/
theorem regionRow_break (y : Int) (st next : TextRegion) (notLast : y ≠ endY)
    (stepped : regionRow screen buffer behind startX startY endY st y = some next) :
    next.text ≠ [] := by
  obtain ⟨⟨rowdata, len⟩, grabbed, -⟩ := Option.bind_eq_some_iff.mp stepped
  cases rowdata with
  | none =>
      rw [regionRow_missing screen buffer behind startX startY endY st y len grabbed,
        if_pos notLast] at stepped
      obtain rfl := Option.some.inj stepped
      simp
  | some row =>
      rw [regionRow_present screen buffer behind startX startY endY st y row len grabbed] at stepped
      dsimp only at stepped
      rw [if_pos notLast] at stepped
      obtain rfl := Option.some.inj stepped
      simp

/-- A row that `grab_row` has is looked at behind the window. -/
theorem regionRow_looks (y : Int) (st next : TextRegion) (row : Line) (len : Nat)
    (grabbed : grabRow screen buffer y = some ⟨some row, len⟩)
    (stepped : regionRow screen buffer behind startX startY endY st y = some next) :
    ((cols : Int), len) ∈ next.reads := by
  rw [regionRow_present screen buffer behind startX startY endY st y row len grabbed] at stepped
  obtain rfl := Option.some.inj stepped
  obtain ⟨-, reads⟩ := copyRow_grows (behind y) cols
    (if y = startY then startX else 0) (if y = endY then st.textEndX else cols) row len st
  have looked : ((cols : Int), len) ∈ (copyRow (behind y) cols
      (if y = startY then startX else 0) (if y = endY then st.textEndX else cols) row len st).reads := by
    rw [reads, rowReads]
    exact List.mem_append_right _ (List.mem_map.mpr
      ⟨cols, List.mem_append_left _ (lastWrittenReads_first _ _ _), rfl⟩)
  generalize copyRow (behind y) cols _ _ row len st = copied at looked
  split <;> exact looked

/-- A missing row behind other text leaves a zero in the text. -/
theorem regionRow_disturbs (y : Int) (st next : TextRegion) (len : Nat) (present : st.text ≠ [])
    (grabbed : grabRow screen buffer y = some ⟨none, len⟩)
    (stepped : regionRow screen buffer behind startX startY endY st y = some next) :
    0 ∈ next.text := by
  rw [regionRow_missing screen buffer behind startX startY endY st y len grabbed] at stepped
  obtain rfl := Option.some.inj stepped
  have zeroed : 0 ∈ st.text.set 0 0 := by
    obtain ⟨unit, text, same⟩ := List.exists_cons_of_ne_nil present
    rw [same]
    exact List.mem_cons_self
  split
  · exact List.mem_append_left _ zeroed
  · exact zeroed

end Rows

section Finished

variable {screen : VTermScreen rows cols} {buffer : Option ScrollBuffer}
  {behind : Int → Int → UInt32} {startX startY endX endY : Int}

/-- The rows of a finished copy are defined. -/
theorem grabRow_isSome_of_finished {final : TextRegion}
    (finished : (Int.range startY (endY + 1)).foldlM
      (regionRow screen buffer behind startX startY endY) ⟨[], endX, []⟩ = some final) {y : Int}
    (above : startY ≤ y) (below : y ≤ endY) : (grabRow screen buffer y).isSome := by
  obtain ⟨before, after, -, stepped, -⟩ := regionRows_at screen buffer behind startX startY endY
    startY (endY + 1) y _ final above (by omega) finished
  obtain ⟨grabbed, has, -⟩ := Option.bind_eq_some_iff.mp stepped
  exact Option.isSome_iff_exists.mpr ⟨grabbed, has⟩

/-- A missing row behind the first one leaves a zero in the text. -/
theorem zero_mem_of_missing {final : TextRegion}
    (finished : (Int.range startY (endY + 1)).foldlM
      (regionRow screen buffer behind startX startY endY) ⟨[], endX, []⟩ = some final)
    {y : Int} {len : Nat} (above : startY < y) (below : y ≤ endY)
    (missing : grabRow screen buffer y = some ⟨none, len⟩) : 0 ∈ final.text := by
  obtain ⟨before, after, reached, stepped, rest⟩ := regionRows_at screen buffer behind startX
    startY endY startY (endY + 1) y _ final above.le (by omega) finished
  rw [intRange_cons startY y above, List.foldlM_cons] at reached
  obtain ⟨second, opened, reached⟩ := Option.bind_eq_some_iff.mp reached
  have present : before.text ≠ [] :=
    regionRows_preserve screen buffer behind startX startY endY (fun st => st.text ≠ [])
      (fun y st next step => (regionRow_keeps screen buffer behind startX startY endY y st next
        step).2.2)
      _ second before reached
      (regionRow_break screen buffer behind startX startY endY startY _ second (by omega) opened)
  have disturbed := regionRow_disturbs screen buffer behind startX startY endY y before after len
    present missing stepped
  exact regionRows_preserve screen buffer behind startX startY endY (fun st => 0 ∈ st.text)
    (fun y st next step => (regionRow_keeps screen buffer behind startX startY endY y st next
      step).2.1)
    _ after final rest disturbed

end Finished

/-- The selection of rows in order, without the swap. -/
theorem getTextRegion_ordered (screen : VTermScreen rows cols) (buffer : Option ScrollBuffer)
    (behind : Int → Int → UInt32) (startX startY endX endY : Int) (ordered : startY ≤ endY)
    (final : TextRegion) :
    getTextRegion screen buffer behind startX startY endX endY = some final ↔
      (Int.range startY (endY + 1)).foldlM
          (regionRow screen buffer behind startX startY endY) ⟨[], endX, []⟩ = some final ∧
        final.text.length ≤ 5112 := by
  unfold getTextRegion
  dsimp only
  rw [if_neg (by omega), if_neg (by omega), Option.bind_eq_bind, Option.bind_eq_some_iff]
  constructor
  · rintro ⟨st, finished, fits⟩
    split_ifs at fits with long
    obtain rfl := Option.some.inj fits
    exact ⟨finished, by omega⟩
  · rintro ⟨finished, fits⟩
    exact ⟨final, finished, if_neg (by omega)⟩

end Hackterm
