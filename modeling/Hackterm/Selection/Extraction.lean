import Hackterm.Scrollback.Conservation
import Hackterm.Selection.Region
import Hackterm.Streaming.Lines

/-! # What a selection extracts

A row should contribute the cells from the first selected column up to the end of the
selection, or up to its last cell that is not a space if that is nearer
(`Hackterm.selectedLine`). The loop that looks for the last non-whitespace begins one
column behind the window and stops at that cell instead of behind it. So the text is
as it should be only where all rows are longer than the window is wide, and where the
cells that are left out would leave no trace (`Hackterm.getTextRegion_exact_iff`).
-/

namespace Hackterm

open Streaming

variable {rows cols : Nat}

/-- The number of cells up to the last one that is not a space. -/
def writtenLength (row : Line) : Nat :=
  (row.rdropWhile fun cell => cell.char = 0x20).length

/-- Where the copy of a row stops that is longer than the window is wide: at the last cell
that is not a space of those the loop looks at, or at the end of the selection. -/
def copiedEnd (cols : Nat) (row : Line) (endX : Nat) : Nat :=
  if writtenLength (row.take (cols + 1)) = 0 then endX
  else min endX (writtenLength (row.take (cols + 1)) - 1)

theorem writtenLength_concat (row : Line) (cell : VTermScreenCell) :
    writtenLength (row ++ [cell]) =
      if cell.char = 0x20 then writtenLength row else row.length + 1 := by
  unfold writtenLength
  rw [List.rdropWhile_concat]
  split_ifs with space outside outside
  · rfl
  · exact absurd (of_decide_eq_true space) outside
  · exact absurd (decide_eq_true outside) space
  · rw [List.length_append, List.length_singleton]

theorem writtenLength_take_succ (row : Line) (n : Nat) (inside : n < row.length) :
    writtenLength (row.take (n + 1)) =
      if row[n].char = 0x20 then writtenLength (row.take n) else n + 1 := by
  rw [List.take_succ_eq_append_getElem inside, writtenLength_concat,
    List.length_take_of_le inside.le]

theorem writtenLength_le (row : Line) : writtenLength row ≤ row.length :=
  (List.rdropWhile_prefix _ _).length_le

/-- More cells end no earlier. -/
theorem writtenLength_append_le (front back : Line) :
    writtenLength front ≤ writtenLength (front ++ back) := by
  induction back using List.reverseRecOn with
  | nil => rw [List.append_nil]
  | append_singleton back cell ih =>
      rw [← List.append_assoc, writtenLength_concat]
      split
      · exact ih
      · have bound := writtenLength_le front
        rw [List.length_append]
        omega

theorem writtenLength_take_le (row : Line) (n : Nat) :
    writtenLength (row.take n) ≤ writtenLength row := by
  conv_rhs => rw [← List.take_append_drop n row]
  exact writtenLength_append_le _ _

/-- Inside the row, the search for the last non-whitespace finds the last cell written. -/
theorem lastWritten_inside (behind : Int → UInt32) (row : Line) (n : Nat)
    (inside : n < row.length) :
    lastWritten behind row n =
      if writtenLength (row.take (n + 1)) = 0 then none
      else some (writtenLength (row.take (n + 1)) - 1) := by
  induction n with
  | zero =>
      have here : rowChar behind row 0 = row[0].char := rowChar_of_lt behind row 0 inside
      have none_ : writtenLength (row.take 0) = 0 := rfl
      rw [lastWritten, writtenLength_take_succ row 0 inside, here, none_]
      by_cases space : row[0].char = 0x20
      · simp [space]
      · simp [space]
  | succ n ih =>
      have here := rowChar_of_lt behind row (n + 1) inside
      rw [lastWritten, writtenLength_take_succ row (n + 1) inside, here, ih (by omega)]
      by_cases space : row[n + 1].char = 0x20
      · simp [space]
      · simp [space]

/-- A row longer than the window is wide is copied up to its copied end. -/
theorem clippedEnd_inside (behind : Int → UInt32) (row : Line) (endX : Nat)
    (wide : cols < row.length) :
    clippedEnd behind cols row endX = copiedEnd cols row endX := by
  unfold clippedEnd copiedEnd
  rw [lastWritten_inside behind row cols wide]
  by_cases blank : writtenLength (row.take (cols + 1)) = 0
  · rw [if_pos blank, if_pos blank]
  · rw [if_neg blank, if_neg blank]
    dsimp only
    split_ifs <;> omega

/-- A wider selection adds the columns behind the narrower one. -/
theorem columns_split (row : Line) (a e b : Nat) (narrower : e ≤ b) :
    columns row a b = columns row a e ++ columns row (max a e) b := by
  unfold columns
  have split : row.take b = row.take e ++ (row.take b).drop e := by
    conv_lhs => rw [← List.take_append_drop e (row.take b), List.take_take, Nat.min_eq_left narrower]
  conv_lhs => rw [split, List.drop_append, List.length_take, List.drop_drop]
  congr 1
  by_cases inside : e ≤ row.length
  · congr 1
    omega
  · rw [List.drop_eq_nil_of_le (by rw [List.length_take]; omega),
      List.drop_eq_nil_of_le (by rw [List.length_take]; omega)]

theorem mem_columns {row : Line} {a b : Nat} {cell : VTermScreenCell} :
    cell ∈ columns row a b ↔ ∃ x, row[x]? = some cell ∧ a ≤ x ∧ x < b := by
  unfold columns
  rw [List.mem_iff_getElem?]
  constructor
  · rintro ⟨i, here⟩
    rw [List.getElem?_drop] at here
    by_cases inside : a + i < b
    · rw [List.getElem?_take_of_lt inside] at here
      exact ⟨a + i, here, by omega, inside⟩
    · rw [List.getElem?_take, if_neg inside] at here
      cases here
  · rintro ⟨x, here, above, below⟩
    refine ⟨x - a, ?_⟩
    rw [List.getElem?_drop, Nat.add_sub_cancel' above, List.getElem?_take_of_lt below, here]

/-- Cells leave no trace in a text if all their units are left out. -/
theorem keptUnits_eq_nil_iff (cells : List VTermScreenCell) :
    keptUnits cells = [] ↔ ∀ cell ∈ cells, isKept cell.char.toUInt16 = false := by
  rw [keptUnits, List.filter_eq_nil_iff]
  simp only [List.forall_mem_map, Bool.not_eq_true]

theorem keptUnits_append (front back : List VTermScreenCell) :
    keptUnits (front ++ back) = keptUnits front ++ keptUnits back := by
  rw [keptUnits, List.map_append, List.filter_append, ← keptUnits, ← keptUnits]

/-- Two ends of a row give the same text where the cells between them leave no trace. -/
theorem keptUnits_columns_eq_iff (row : Line) (a e b : Nat) :
    keptUnits (columns row a e) = keptUnits (columns row a b) ↔
      ∀ x cell, row[x]? = some cell → a ≤ x → min e b ≤ x → x < max e b →
        isKept cell.char.toUInt16 = false := by
  have apart : ∀ e b, e ≤ b → (keptUnits (columns row a e) = keptUnits (columns row a b) ↔
      ∀ x cell, row[x]? = some cell → a ≤ x → e ≤ x → x < b →
        isKept cell.char.toUInt16 = false) := by
    intro e b narrower
    rw [columns_split row a e b narrower, keptUnits_append, List.self_eq_append_right,
      keptUnits_eq_nil_iff]
    simp only [mem_columns, max_le_iff]
    constructor
    · intro all x cell here above behind below
      exact all cell ⟨x, here, ⟨above, behind⟩, below⟩
    · rintro all cell ⟨x, here, ⟨above, behind⟩, below⟩
      exact all x cell here above behind below
  rcases Nat.le_total e b with narrower | narrower
  · rw [apart e b narrower, min_eq_left narrower, max_eq_right narrower]
  · rw [eq_comm, apart b e narrower, min_eq_right narrower, max_eq_left narrower]

/-- A read of a cell of its row. -/
def ReadsCell (read : Int × Nat) : Prop := 0 ≤ read.1 ∧ read.1 < read.2

theorem copiedEnd_le (row : Line) (endX : Nat) : copiedEnd cols row endX ≤ endX := by
  unfold copiedEnd
  split
  · exact le_rfl
  · exact Nat.min_le_left _ _

/-- A row longer than the window is wide is copied up to its copied end, without a read
outside it and without a new end of the selection. -/
theorem copyRow_wide (behind : Int → UInt32) (row : Line) (a endX : Nat) (st : TextRegion)
    (wide : cols < row.length) (narrow : endX ≤ cols) (ends : st.textEndX ≤ cols)
    (reads : ∀ read ∈ st.reads, ReadsCell read) :
    let next := copyRow behind cols a endX row row.length st
    next.text = st.text ++ keptUnits (columns row a (copiedEnd cols row endX)) ∧
      next.textEndX = st.textEndX ∧ ∀ read ∈ next.reads, ReadsCell read := by
  have clipped := clippedEnd_inside behind row endX wide
  have short : copiedEnd cols row endX ≤ endX := copiedEnd_le row endX
  obtain ⟨text, kept, more⟩ := copyRow_spec behind cols a endX row st (by rw [clipped]; omega)
  rw [clipped, Int.toNat_natCast] at text
  refine ⟨text, kept.resolve_right fun late => by omega, ?_⟩
  intro read member
  rw [more, List.mem_append] at member
  rcases member with old | new
  · exact reads read old
  · obtain ⟨n, looked, rfl⟩ := List.mem_map.mp new
    rcases List.mem_append.mp looked with searched | copied
    · have between := lastWrittenReads_inside behind row cols n searched
      exact ⟨between.1, by dsimp only; omega⟩
    · rw [clipped, Int.mem_range_iff] at copied
      exact ⟨by dsimp only; omega, by dsimp only; omega⟩

section Selection

variable (screen : VTermScreen rows cols) (history : List Line) (behind : Int → Int → UInt32)
  (a0 : Nat) (y0 : Int) (b1 : Nat) (y1 : Int)

/-- The first selected column of a row. -/
def selectionStart (y : Int) : Nat := if y = y0 then a0 else 0

/-- The end of a row that is selected: the end of the selection on the last row and the end
of the row on the others, and never behind the last cell that is not a space. -/
def selectionEnd (y : Int) (row : Line) : Nat :=
  min (if y = y1 then b1 else row.length) (writtenLength row)

/-- What a row should contribute to the text. -/
def selectedLine (y : Int) : List UInt16 :=
  match grabRow screen (scrollBufferPushAll none history) y with
  | some ⟨some row, _⟩ =>
      keptUnits (columns row (selectionStart a0 y0 y) (selectionEnd b1 y1 y row))
  | _ => []

/-- The text that should be extracted. -/
def selectedText : List UInt16 :=
  [0x0A].intercalate ((Int.range y0 (y1 + 1)).map (selectedLine screen history a0 y0 b1 y1))

/-- The text is extracted as it should be, and every cell read is one of its row. -/
def ExtractsRegion : Prop :=
  ∃ st, getTextRegion screen (scrollBufferPushAll none history) behind a0 y0 b1 y1 = some st ∧
    st.text = selectedText screen history a0 y0 b1 y1 ∧ ∀ read ∈ st.reads, ReadsCell read

/-- Where the code stops in a row that is longer than the window is wide. -/
def stoppingEnd (y : Int) (row : Line) : Nat :=
  copiedEnd cols row (if y = y1 then b1 else cols)

/-- No row lies below the screen, only the first one may be missing, all others are longer
than the window is wide, the cells between where the code stops and the end of what is
selected are erased or gaps, and the text fits its array. -/
structure RegionCopied : Prop where
  defined : ∀ y, y0 ≤ y → y ≤ y1 → (grabRow screen (scrollBufferPushAll none history) y).isSome
  present : ∀ y len, y0 < y → y ≤ y1 →
    grabRow screen (scrollBufferPushAll none history) y ≠ some ⟨none, len⟩
  wide : ∀ y row len, y0 ≤ y → y ≤ y1 →
    grabRow screen (scrollBufferPushAll none history) y = some ⟨some row, len⟩ → cols < row.length
  traceless : ∀ y row len, y0 ≤ y → y ≤ y1 →
    grabRow screen (scrollBufferPushAll none history) y = some ⟨some row, len⟩ →
      ∀ x cell, row[x]? = some cell → selectionStart a0 y0 y ≤ x →
        min (@stoppingEnd cols b1 y1 y row) (selectionEnd b1 y1 y row) ≤ x →
        x < max (@stoppingEnd cols b1 y1 y row) (selectionEnd b1 y1 y row) →
          isKept cell.char.toUInt16 = false
  short : (selectedText screen history a0 y0 b1 y1).length ≤ 5112

/-- What a row contributes. -/
def copiedLine (y : Int) : List UInt16 :=
  match grabRow screen (scrollBufferPushAll none history) y with
  | some ⟨some row, _⟩ =>
      keptUnits (columns row (selectionStart a0 y0 y) (@stoppingEnd cols b1 y1 y row))
  | _ => []

variable {screen history behind a0 y0 b1 y1}

/-- The state before a row: the end of the selection is as it was, nothing outside a row
was read, and before the first row there is no text. -/
structure Copying (b1 : Nat) (y0 y : Int) (st : TextRegion) : Prop where
  ends : st.textEndX = b1
  reads : ∀ read ∈ st.reads, ReadsCell read
  begins : y = y0 → st.text = []

/-- A row adds its line, and a line break unless it is the last one. -/
theorem regionRow_copies (narrow : b1 ≤ cols) (y : Int) (grabbed : GrabbedRow)
    (has : grabRow screen (scrollBufferPushAll none history) y = some grabbed)
    (missing : grabbed.rowdata = none → y = y0)
    (wide : ∀ row, grabbed.rowdata = some row → cols < row.length)
    (st : TextRegion) (copying : Copying b1 y0 y st) :
    ∃ next, regionRow screen (scrollBufferPushAll none history) behind a0 y0 y1 st y = some next ∧
      next.text = st.text ++ (copiedLine screen history a0 y0 b1 y1 y ++
        if y ≠ y1 then [0x0A] else []) ∧
      next.textEndX = b1 ∧ ∀ read ∈ next.reads, ReadsCell read := by
  obtain ⟨rowdata, len⟩ := grabbed
  cases rowdata with
  | none =>
      have nothing : copiedLine screen history a0 y0 b1 y1 y = [] := by rw [copiedLine, has]
      refine ⟨_, regionRow_missing screen _ behind _ _ _ st y len has, ?_, ?_, ?_⟩
      · rw [nothing, copying.begins (missing rfl)]
        split <;> rfl
      · split <;> exact copying.ends
      · split <;> exact copying.reads
  | some row =>
      have longer := wide row rfl
      obtain rfl := grabRow_len screen history y row len has
      have line : copiedLine screen history a0 y0 b1 y1 y =
          keptUnits (columns row (selectionStart a0 y0 y) (@stoppingEnd cols b1 y1 y row)) := by
        rw [copiedLine, has]
      have start : (if y = y0 then (a0 : Int) else 0) = (selectionStart a0 y0 y : Int) := by
        rw [selectionStart]
        split <;> rfl
      have stop : (if y = y1 then st.textEndX else (cols : Int)) =
          ((if y = y1 then b1 else cols : Nat) : Int) := by
        rw [copying.ends]
        split <;> rfl
      obtain ⟨text, ends, reads⟩ := copyRow_wide (behind y) row (selectionStart a0 y0 y)
        (if y = y1 then b1 else cols) st longer (by split <;> omega)
        (by rw [copying.ends]; omega) copying.reads
      have stepped := regionRow_present screen _ behind a0 y0 y1 st y row row.length has
      rw [start, stop] at stepped
      generalize copyRow (behind y) cols _ _ row row.length st = copied at text ends reads stepped
      refine ⟨_, stepped, ?_, ?_, ?_⟩
      · rw [line]
        split
        · rw [text, List.append_assoc]
          rfl
        · rw [text, List.append_nil]
          rfl
      · split <;> exact ends.trans copying.ends
      · split <;> exact reads

/-- Where only the first row may be missing and all others are longer than the window is
wide, the text are the lines of the rows. -/
theorem regionRows_copied (behind : Int → Int → UInt32) (ordered : y0 ≤ y1) (narrow : b1 ≤ cols)
    (defined : ∀ y, y0 ≤ y → y ≤ y1 →
      (grabRow screen (scrollBufferPushAll none history) y).isSome)
    (present : ∀ y len, y0 < y → y ≤ y1 →
      grabRow screen (scrollBufferPushAll none history) y ≠ some ⟨none, len⟩)
    (wide : ∀ y row len, y0 ≤ y → y ≤ y1 →
      grabRow screen (scrollBufferPushAll none history) y = some ⟨some row, len⟩ →
        cols < row.length) :
    ∃ st, (Int.range y0 (y1 + 1)).foldlM
        (regionRow screen (scrollBufferPushAll none history) behind a0 y0 y1) ⟨[], b1, []⟩ = some st ∧
      st.text = [0x0A].intercalate
        ((Int.range y0 (y1 + 1)).map (copiedLine screen history a0 y0 b1 y1)) ∧
      ∀ read ∈ st.reads, ReadsCell read := by
  have step : ∀ y st, y0 ≤ y → y ≤ y1 → Copying b1 y0 y st →
      ∃ next, regionRow screen (scrollBufferPushAll none history) behind a0 y0 y1 st y =
          some next ∧
        next.text = st.text ++ (copiedLine screen history a0 y0 b1 y1 y ++
          if y ≠ y1 then [0x0A] else []) ∧
        next.textEndX = b1 ∧ ∀ read ∈ next.reads, ReadsCell read := by
    intro y st above below copying
    obtain ⟨grabbed, has⟩ := Option.isSome_iff_exists.mp (defined y above below)
    refine regionRow_copies narrow y grabbed has ?_ ?_ st copying
    · intro missing
      obtain ⟨rowdata, len⟩ := grabbed
      dsimp only at missing
      subst missing
      by_contra other
      exact present y len (by omega) below has
    · intro row same
      obtain ⟨rowdata, len⟩ := grabbed
      dsimp only at same
      subst same
      exact wide y row len above below has
  obtain ⟨middle, reached, text, copying⟩ := regionRows_run screen
    (scrollBufferPushAll none history) behind a0 y0 y1 y1 (copiedLine screen history a0 y0 b1 y1)
    (Copying b1 y0) (fun y st above below copying => by
      obtain ⟨next, stepped, longer, ends, reads⟩ := step y st above (by omega) copying
      rw [if_pos (by omega)] at longer
      exact ⟨next, stepped, longer, ends, reads, fun same => by omega⟩)
    ⟨[], b1, []⟩ ⟨rfl, by simp, fun _ => rfl⟩ ordered
  obtain ⟨st, stepped, longer, ends, reads⟩ := step y1 middle ordered le_rfl copying
  refine ⟨st, regionRows_succ ordered reached stepped, ?_, reads⟩
  rw [longer, text, intRange_concat _ _ ordered, List.map_append, List.map_singleton,
    intercalate_concat, List.flatMap_map, if_neg (by simp), List.append_nil, List.nil_append]

/-- A row holds no more line breaks up to where the code stops than up to the end of what
is selected. -/
theorem count_copied_le (row : Line) (a endX last : Nat) (narrow : endX ≤ cols) (earlier : endX ≤ last) :
    (keptUnits (columns row a (copiedEnd cols row endX))).count 0x0A ≤
      (keptUnits (columns row a (min last (writtenLength row)))).count 0x0A := by
  by_cases blank : writtenLength (row.take (cols + 1)) = 0
  · -- the copied cells are spaces
    have spaces := List.rdropWhile_eq_nil_iff.mp (List.eq_nil_of_length_eq_zero blank)
    have none_ : (keptUnits (columns row a (copiedEnd cols row endX))).count 0x0A = 0 := by
      rw [List.count_eq_zero]
      intro member
      obtain ⟨cell, copied, same⟩ := List.mem_map.mp (List.mem_of_mem_filter member)
      obtain ⟨x, here, -, below⟩ := mem_columns.mp copied
      have short : copiedEnd cols row endX ≤ endX := copiedEnd_le row endX
      have looked : cell ∈ row.take (cols + 1) := by
        apply List.mem_of_getElem? (i := x)
        rw [List.getElem?_take_of_lt (by omega), here]
      have space : cell.char = 0x20 := of_decide_eq_true (spaces cell looked)
      rw [space] at same
      exact absurd same (by decide)
    rw [none_]
    exact Nat.zero_le _
  · have written := writtenLength_take_le row (cols + 1)
    have nearer : copiedEnd cols row endX ≤ min last (writtenLength row) := by
      rw [copiedEnd, if_neg blank]
      omega
    rw [columns_split row a _ _ nearer, keptUnits_append, List.count_append]
    omega

/-- The lines are what they should be where cells leave no trace. -/
theorem copiedLine_eq_iff (y : Int) (grabbed : GrabbedRow)
    (has : grabRow screen (scrollBufferPushAll none history) y = some grabbed) :
    copiedLine screen history a0 y0 b1 y1 y = selectedLine screen history a0 y0 b1 y1 y ↔
      ∀ row, grabbed.rowdata = some row →
        ∀ x cell, row[x]? = some cell → selectionStart a0 y0 y ≤ x →
          min (@stoppingEnd cols b1 y1 y row) (selectionEnd b1 y1 y row) ≤ x →
          x < max (@stoppingEnd cols b1 y1 y row) (selectionEnd b1 y1 y row) →
            isKept cell.char.toUInt16 = false := by
  obtain ⟨rowdata, len⟩ := grabbed
  unfold copiedLine selectedLine
  rw [has]
  cases rowdata with
  | none => simp
  | some row =>
      dsimp only
      rw [keptUnits_columns_eq_iff]
      simp

/-- A line that is copied holds no more line breaks than it should. -/
theorem count_copiedLine_le (narrow : b1 ≤ cols) (y : Int)
    (wide : ∀ row len, grabRow screen (scrollBufferPushAll none history) y =
      some ⟨some row, len⟩ → cols < row.length) :
    (copiedLine screen history a0 y0 b1 y1 y).count 0x0A ≤
      (selectedLine screen history a0 y0 b1 y1 y).count 0x0A := by
  unfold copiedLine selectedLine stoppingEnd selectionEnd
  split
  · rename_i row len has
    have longer := wide row len has
    apply count_copied_le
    · split <;> omega
    · split <;> omega
  · exact le_rfl

/-- The text that should be extracted holds no zero. -/
theorem zero_not_mem_selectedText : 0 ∉ selectedText screen history a0 y0 b1 y1 := by
  intro zero
  rcases mem_intercalate zero with same | ⟨line, member, here⟩
  · exact absurd same (by decide)
  · obtain ⟨y, -, rfl⟩ := List.mem_map.mp member
    unfold selectedLine at here
    split at here
    · exact absurd (List.of_mem_filter here) (by decide)
    · simp at here

/-- Rows that are copied without a read outside them, into a text without a zero. -/
theorem rows_of_finished (final : TextRegion)
    (finished : (Int.range y0 (y1 + 1)).foldlM
      (regionRow screen (scrollBufferPushAll none history) behind a0 y0 y1) ⟨[], b1, []⟩ =
        some final)
    (reads : ∀ read ∈ final.reads, ReadsCell read) (kept : 0 ∉ final.text) (y : Int)
    (above : y0 ≤ y) (below : y ≤ y1) :
    ∃ grabbed, grabRow screen (scrollBufferPushAll none history) y = some grabbed ∧
      (grabbed.rowdata = none → y = y0) ∧
      ∀ row, grabbed.rowdata = some row → cols < row.length := by
  obtain ⟨before, after, -, stepped, rest⟩ := regionRows_at screen _ behind a0 y0 y1
    y0 (y1 + 1) y _ final above (by omega) finished
  obtain ⟨⟨rowdata, len⟩, has, -⟩ := Option.bind_eq_some_iff.mp stepped
  refine ⟨_, has, ?_, ?_⟩
  · intro missing
    dsimp only at missing
    subst missing
    by_contra other
    exact kept (zero_mem_of_missing finished (lt_of_le_of_ne above (Ne.symm other)) below has)
  · intro row same
    dsimp only at same
    subst same
    have looked := regionRow_looks screen _ behind a0 y0 y1 y before after row len has stepped
    have inside := reads _ (regionRows_preserve screen _ behind a0 y0 y1
      (fun st => ((cols : Int), len) ∈ st.reads)
      (fun y st next step => (regionRow_keeps screen _ behind a0 y0 y1 y st next step).1 _)
      _ after final rest looked)
    rw [← grabRow_len screen history y row len has]
    exact Int.ofNat_lt.mp inside.2

/-- **What a selection extracts.** The text of a selection is extracted as it should be,
without a read outside a row, exactly where rows are copied as the condition says. -/
theorem getTextRegion_exact_iff (ordered : y0 ≤ y1) (narrow : b1 ≤ cols) :
    ExtractsRegion screen history behind a0 y0 b1 y1 ↔
      RegionCopied screen history a0 y0 b1 y1 := by
  constructor
  · rintro ⟨final, extracted, text, reads⟩
    obtain ⟨finished, fits⟩ :=
      (getTextRegion_ordered screen _ behind a0 y0 b1 y1 ordered final).mp extracted
    have grabs := rows_of_finished final finished reads
      (by rw [text]; exact zero_not_mem_selectedText)
    have defined : ∀ y, y0 ≤ y → y ≤ y1 →
        (grabRow screen (scrollBufferPushAll none history) y).isSome := by
      intro y above below
      obtain ⟨grabbed, has, -⟩ := grabs y above below
      exact Option.isSome_iff_exists.mpr ⟨grabbed, has⟩
    have present : ∀ y len, y0 < y → y ≤ y1 →
        grabRow screen (scrollBufferPushAll none history) y ≠ some ⟨none, len⟩ := by
      intro y len above below missing
      obtain ⟨grabbed, has, first, -⟩ := grabs y (by omega) below
      obtain rfl := Option.some.inj (has.symm.trans missing)
      have same := first rfl
      omega
    have wide : ∀ y row len, y0 ≤ y → y ≤ y1 →
        grabRow screen (scrollBufferPushAll none history) y = some ⟨some row, len⟩ →
          cols < row.length := by
      intro y row len above below same
      obtain ⟨grabbed, has, -, longer⟩ := grabs y above below
      obtain rfl := Option.some.inj (has.symm.trans same)
      exact longer row rfl
    obtain ⟨again, repeated, copied, -⟩ :=
      regionRows_copied behind ordered narrow defined present wide
    obtain rfl := Option.some.inj (repeated.symm.trans finished)
    have lines := lines_eq_of_count_le (0x0A : UInt16) (by
      rw [List.forall₂_map_left_iff, List.forall₂_map_right_iff, List.forall₂_same]
      intro y member
      obtain ⟨above, below⟩ := Int.mem_range_iff.mp member
      exact count_copiedLine_le narrow y fun row len => wide y row len above (by omega))
      (copied.symm.trans text)
    refine ⟨defined, present, wide, ?_, text ▸ fits⟩
    intro y row len above below has
    have same := List.map_inj_left.mp lines y (Int.mem_range_iff.mpr ⟨above, by omega⟩)
    exact (copiedLine_eq_iff y _ has).mp same row rfl
  · intro copied
    obtain ⟨final, finished, text, reads⟩ := regionRows_copied behind ordered narrow
      copied.defined copied.present copied.wide
    have lines : (Int.range y0 (y1 + 1)).map (copiedLine screen history a0 y0 b1 y1) =
        (Int.range y0 (y1 + 1)).map (selectedLine screen history a0 y0 b1 y1) := by
      apply List.map_congr_left
      intro y member
      obtain ⟨above, below⟩ := Int.mem_range_iff.mp member
      obtain ⟨grabbed, has⟩ := Option.isSome_iff_exists.mp (copied.defined y above (by omega))
      refine (copiedLine_eq_iff y grabbed has).mpr fun row same => ?_
      obtain ⟨rowdata, len⟩ := grabbed
      dsimp only at same
      subst same
      exact copied.traceless y row len above (by omega) has
    have whole : final.text = selectedText screen history a0 y0 b1 y1 := by
      rw [text, lines, selectedText]
    exact ⟨final, (getTextRegion_ordered screen _ behind a0 y0 b1 y1 ordered final).mpr
      ⟨finished, by rw [whole]; exact copied.short⟩, whole, reads⟩

end Selection

theorem getTextRegion_exact_iff_letters :
    ExtractsRegion (letterScreen 2 3) [] (fun _ _ => 0x20) 1 0 2 1 ↔
      RegionCopied (letterScreen 2 3) [] 1 0 2 1 :=
  getTextRegion_exact_iff (by decide) (by decide)

/-- The one letter of a screen is selected, and nothing is extracted: the column of the
letter becomes the end of what is copied. The memory behind the row is read first. -/
theorem getTextRegion_loses_letter :
    ¬ ExtractsRegion (letterScreen 1 1) [] (fun _ _ => 0x20) 0 0 1 0 := by
  rintro ⟨st, extracted, -, reads⟩
  have call : getTextRegion (letterScreen 1 1) (scrollBufferPushAll none []) (fun _ _ => 0x20)
      0 0 1 0 = some ⟨[], 1, [(1, 1), (0, 1)]⟩ := rfl
  obtain rfl := Option.some.inj (call.symm.trans extracted)
  have inside := reads (1, 1) List.mem_cons_self
  exact absurd inside.2 (by decide)

end Hackterm
