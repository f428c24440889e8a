import Hackterm.Selection.Extraction

/-! # The clipboard

The code units of a selection are encoded one by one (`Hackterm.copyText`). They are 16
bits wide, so a scalar value above them is cut (`Hackterm.copyText_cuts`). Where the
selected cells hold no such value, the clipboard is the UTF-8 encoding of what they
hold, apart from the ends of the rows (`Hackterm.copyText_decodes`).
-/

namespace Hackterm

open Streaming

variable {rows cols : Nat}

/-- `utf8proc_encode_char`: the bytes written, whose number is returned. -/
def utf8procEncodeChar (uc : Int) : List UInt8 :=
  if uc < 0 then []
  else
    let code := uc.toNat
    if code < 0x80 then [UInt8.ofNat code]
    else if code < 0x800 then
      [UInt8.ofNat (0xC0 + (code >>> 6)), UInt8.ofNat (0x80 + (code &&& 0x3F))]
    else if code = 0xFFFF then [0xFF]
    else if code = 0xFFFE then [0xFE]
    else if code < 0x10000 then
      [UInt8.ofNat (0xE0 + (code >>> 12)), UInt8.ofNat (0x80 + ((code >>> 6) &&& 0x3F)),
        UInt8.ofNat (0x80 + (code &&& 0x3F))]
    else if code < 0x110000 then
      [UInt8.ofNat (0xF0 + (code >>> 18)), UInt8.ofNat (0x80 + ((code >>> 12) &&& 0x3F)),
        UInt8.ofNat (0x80 + ((code >>> 6) &&& 0x3F)), UInt8.ofNat (0x80 + (code &&& 0x3F))]
    else []

/-- `copy_text`: the bytes that are printed, up to a zero. Its array has 20000 bytes, of
which five behind the text are cleared, and none without any text. -/
def copyText (itext : List UInt16) : Option (List UInt8) :=
  let text := itext.flatMap fun unit => utf8procEncodeChar (unit.toNat : Int)
  if itext = [] ∨ 20000 < text.length + 5 then none else some (text.takeWhile (· ≠ 0))

/-- **The encoder.** A scalar value that is not 65534 or 65535 is encoded in UTF-8. -/
theorem utf8procEncodeChar_eq (c : Char) (notFFFE : c.toNat ≠ 0xFFFE) (notFFFF : c.toNat ≠ 0xFFFF) :
    utf8procEncodeChar (c.toNat : Int) = String.utf8EncodeChar c := by
  have valid : c.toNat < 0x110000 := by
    rcases c.valid with low | high
    · exact Nat.lt_trans low (by decide)
    · exact high.2
  have value : c.val.toNat = c.toNat := rfl
  have low6 : ∀ code : Nat, code &&& 0x3F = code % 0x40 := fun code =>
    Nat.and_two_pow_sub_one_eq_mod code 6
  have trailing : ∀ bits : Nat, 0x80 + bits = bits + 0x80 := Nat.add_comm 0x80
  unfold utf8procEncodeChar String.utf8EncodeChar
  rw [if_neg (by omega), Int.toNat_natCast, value]
  simp only [low6, Nat.shiftRight_eq_div_pow]
  generalize c.toNat = code at valid notFFFE notFFFF
  rcases Nat.lt_or_ge code 0x80 with one | more
  · rw [if_pos one, if_pos (Nat.le_of_lt_succ one)]
  rw [if_neg (Nat.not_lt.mpr more), if_neg (Nat.not_le.mpr more)]
  rcases Nat.lt_or_ge code 0x800 with two | more
  · have leading : 0xC0 + code / 2 ^ 6 = code / 64 % 0x20 + 0xC0 := by omega
    rw [if_pos two, if_pos (Nat.le_of_lt_succ two), leading, trailing]
  rw [if_neg (Nat.not_lt.mpr more), if_neg (Nat.not_le.mpr more), if_neg notFFFF, if_neg notFFFE]
  rcases Nat.lt_or_ge code 0x10000 with three | more
  · have leading : 0xE0 + code / 2 ^ 12 = code / 4096 % 0x10 + 0xE0 := by omega
    rw [if_pos three, if_pos (Nat.le_of_lt_succ three), leading, trailing, trailing]
  · have leading : 0xF0 + code / 2 ^ 18 = code / 262144 % 8 + 0xF0 := by omega
    rw [if_neg (Nat.not_lt.mpr more), if_neg (Nat.not_le.mpr more), if_pos valid, leading, trailing,
      trailing, trailing]

/-- The scalar value that a cell holds, if it is neither erased nor a gap. -/
def VTermScreenCell.scalars (cell : VTermScreenCell) : List Char :=
  match cell.chars with
  | [code] => if code = 0xFFFFFFFF then [] else [Char.ofNat code.toNat]
  | _ => []

/-- The cell holds one scalar value of 16 bits, or it is erased or a gap. -/
def VTermScreenCell.HoldsUnit (cell : VTermScreenCell) : Prop :=
  cell.chars = [] ∨ cell.chars = [0xFFFFFFFF] ∨
    ∃ c : Char, cell.chars = [c.val] ∧ 0x20 ≤ c.toNat ∧ c.toNat < 0xFFFE

theorem toNat_unit (c : Char) (narrow : c.toNat < 0xFFFE) : c.val.toUInt16.toNat = c.toNat := by
  rw [UInt32.toNat_toUInt16]
  exact Nat.mod_eq_of_lt (Nat.lt_trans narrow (by decide))

/-- The units of a cell are its scalar value. -/
theorem VTermScreenCell.HoldsUnit.units {cell : VTermScreenCell} (holds : cell.HoldsUnit) :
    keptUnits [cell] = cell.scalars.map (fun c => c.val.toUInt16) ∧
      ∀ c ∈ cell.scalars, 0x20 ≤ c.toNat ∧ c.toNat < 0xFFFE := by
  unfold keptUnits VTermScreenCell.scalars VTermScreenCell.char
  rcases holds with erased | gap | ⟨c, one, low, high⟩
  · rw [List.map_singleton, erased]
    exact ⟨rfl, by simp⟩
  · rw [List.map_singleton, gap]
    exact ⟨rfl, by simp⟩
  · have back : Char.ofNat c.val.toNat = c := Char.ofNat_toNat c
    have value := toNat_unit c high
    have scalar : c.val ≠ 0xFFFFFFFF := by
      intro same
      have number : c.toNat = 0xFFFFFFFF := congrArg UInt32.toNat same
      omega
    have kept : isKept c.val.toUInt16 = true := by
      have notZero : c.val.toUInt16 ≠ 0 := by
        intro same
        rw [same] at value
        exact absurd value (by rw [UInt16.toNat_zero]; omega)
      have notLast : c.val.toUInt16 ≠ 65535 := by
        intro same
        rw [same] at value
        exact absurd value (by rw [show (65535 : UInt16).toNat = 65535 from rfl]; omega)
      simp [isKept, notZero, notLast]
    rw [List.map_singleton, one]
    dsimp only [List.headD_cons]
    rw [if_neg scalar, back, List.filter_singleton, kept]
    exact ⟨rfl, by simpa using ⟨low, high⟩⟩

/-- The units of cells are their scalar values. -/
theorem keptUnits_eq_scalars (cells : List VTermScreenCell)
    (hold : ∀ cell ∈ cells, cell.HoldsUnit) :
    keptUnits cells = (cells.flatMap VTermScreenCell.scalars).map (fun c => c.val.toUInt16) ∧
      ∀ c ∈ cells.flatMap VTermScreenCell.scalars, 0x20 ≤ c.toNat ∧ c.toNat < 0xFFFE := by
  induction cells with
  | nil => exact ⟨rfl, by simp⟩
  | cons cell cells ih =>
      obtain ⟨first, others⟩ := List.forall_mem_cons.mp hold
      obtain ⟨units, narrow⟩ := first.units
      obtain ⟨rest, restNarrow⟩ := ih others
      refine ⟨?_, ?_⟩
      · rw [← List.singleton_append, keptUnits_append, units, rest, List.flatMap_append,
          List.flatMap_singleton, List.map_append]
      · rw [List.flatMap_cons]
        intro c member
        rcases List.mem_append.mp member with here | later
        · exact narrow c here
        · exact restNarrow c later

/-- No byte of the encoding of a character is zero, unless the character is. -/
theorem zero_not_mem_utf8EncodeChar (c : Char) (present : c.toNat ≠ 0) :
    0 ∉ String.utf8EncodeChar c := by
  have value : c.val.toNat = c.toNat := rfl
  have nonzero : ∀ code : Nat, code % 256 ≠ 0 → (0 : UInt8) ≠ UInt8.ofNat code := by
    intro code other same
    have number := congrArg UInt8.toNat same
    rw [UInt8.toNat_ofNat'] at number
    exact other number.symm
  unfold String.utf8EncodeChar
  rw [value]
  dsimp only
  split_ifs
  all_goals
    simp only [List.mem_cons, List.not_mem_nil, or_false, not_or]
  · exact nonzero _ (by omega)
  · exact ⟨nonzero _ (by omega), nonzero _ (by omega)⟩
  · exact ⟨nonzero _ (by omega), nonzero _ (by omega), nonzero _ (by omega)⟩
  · exact ⟨nonzero _ (by omega), nonzero _ (by omega), nonzero _ (by omega),
      nonzero _ (by omega)⟩

/-- A scalar value of 16 bits takes at most three bytes. -/
theorem length_utf8Encode_le (chars : List Char) (narrow : ∀ c ∈ chars, c.toNat < 0xFFFE) :
    (chars.flatMap String.utf8EncodeChar).length ≤ 3 * chars.length := by
  induction chars with
  | nil => exact Nat.le_refl _
  | cons c chars ih =>
      obtain ⟨first, others⟩ := List.forall_mem_cons.mp narrow
      have rest := ih others
      have value : c.val.toNat = c.toNat := rfl
      have here : (String.utf8EncodeChar c).length ≤ 3 := by
        unfold String.utf8EncodeChar
        rw [value]
        dsimp only
        split_ifs
        · exact Nat.le_add_left 1 2
        · exact Nat.le_succ 2
        · exact Nat.le_refl 3
        · omega
      rw [List.flatMap_cons, List.length_append, List.length_cons]
      omega

/-- Code units that are scalar values are printed as their UTF-8 encoding. -/
theorem copyText_scalars (chars : List Char) (present : chars ≠ []) (short : chars.length ≤ 5112)
    (narrow : ∀ c ∈ chars, c.toNat ≠ 0 ∧ c.toNat < 0xFFFE) :
    copyText (chars.map fun c => c.val.toUInt16) = some (chars.flatMap String.utf8EncodeChar) := by
  have encoded : (chars.map fun c => c.val.toUInt16).flatMap
      (fun unit => utf8procEncodeChar (unit.toNat : Int)) = chars.flatMap String.utf8EncodeChar := by
    rw [List.flatMap_map]
    apply List.flatMap_congr
    intro c member
    obtain ⟨-, below⟩ := narrow c member
    rw [toNat_unit c below, utf8procEncodeChar_eq c (by omega) (by omega)]
  have bound := length_utf8Encode_le chars fun c member => (narrow c member).2
  have whole : (chars.flatMap String.utf8EncodeChar).takeWhile (· ≠ 0) =
      chars.flatMap String.utf8EncodeChar := by
    rw [List.takeWhile_eq_self_iff]
    intro byte member
    obtain ⟨c, inChars, here⟩ := List.mem_flatMap.mp member
    have other : byte ≠ 0 := by
      rintro rfl
      exact zero_not_mem_utf8EncodeChar c (narrow c inChars).1 here
    simpa using other
  unfold copyText
  rw [encoded]
  dsimp only
  have fits : ¬ ((chars.map fun c => c.val.toUInt16) = [] ∨
      20000 < (chars.flatMap String.utf8EncodeChar).length + 5) := by
    rw [List.map_eq_nil_iff]
    rintro (empty | long)
    · exact present empty
    · omega
  rw [if_neg fits, whole]

section Selection

variable (screen : VTermScreen rows cols) (history : List Line) (behind : Int → Int → UInt32)
  (a0 : Nat) (y0 : Int) (b1 : Nat) (y1 : Int)

/-- The cells of a row. -/
def rowCells (y : Int) : Line :=
  match grabRow screen (scrollBufferPushAll none history) y with
  | some ⟨some row, _⟩ => row
  | _ => []

/-- The end of a row of the selection in the window. -/
def windowEnd (cols b1 : Nat) (y1 y : Int) : Nat := if y = y1 then b1 else cols

/-- An end that leaves out, of the selected cells of a row in the window, spaces and at
most the one cell at the end itself. -/
structure RowEnd (y : Int) (last : Nat) : Prop where
  inside : last ≤ windowEnd cols b1 y1 y
  spaces : ∀ x cell, (rowCells screen history y)[x]? = some cell → last < x →
    x < windowEnd cols b1 y1 y → cell.char = 0x20

variable {screen history behind a0 y0 b1 y1}

/-- A row is clipped at the end of the selection, or only spaces lie behind the end. -/
theorem clippedEnd_spaces (cols : Nat) (behind : Int → UInt32) (row : Line) (endX : Int) :
    clippedEnd behind cols row endX = endX ∨ ∃ n : Nat, clippedEnd behind cols row endX = n ∧
      ∀ x : Nat, n < x → x ≤ cols → rowChar behind row x = 0x20 := by
  have found := lastWritten_spec behind row cols
  unfold clippedEnd
  cases written : lastWritten behind row cols with
  | none => exact Or.inl rfl
  | some n =>
      rw [written] at found
      dsimp only
      split
      · exact Or.inr ⟨n, rfl, found.2.2⟩
      · exact Or.inl rfl

/-- Where a row is clipped is an end of the row. -/
theorem clippedEnd_rowEnd (y : Int) (row : Line) (endX : Int)
    (cells : rowCells screen history y = row) (notAfter : endX ≤ windowEnd cols b1 y1 y)
    (justBefore : (windowEnd cols b1 y1 y : Int) ≤ endX + 1) (narrow : b1 ≤ cols) :
    RowEnd screen history b1 y1 y (clippedEnd (behind y) cols row endX).toNat := by
  have window : windowEnd cols b1 y1 y ≤ cols := by
    unfold windowEnd
    split <;> omega
  have clipped := clippedEnd_le (behind y) cols row endX
  refine ⟨by omega, fun x cell here beyond before => ?_⟩
  rw [cells] at here
  obtain ⟨inside, same⟩ := List.getElem?_eq_some_iff.mp here
  rcases clippedEnd_spaces cols (behind y) row endX with whole | ⟨n, stops, spaces⟩
  · omega
  · rw [← same, ← rowChar_of_lt (behind y) row x inside]
    exact spaces x (by omega) (by omega)

/-- What a row contributes up to an end. -/
def lineUpTo (screen : VTermScreen rows cols) (history : List Line) (a0 : Nat) (y0 : Int)
    (ends : Int → Nat) (y : Int) : Line :=
  columns (rowCells screen history y) (selectionStart a0 y0 y) (ends y)

/-- A row at least as long as the window is wide adds its cells up to where it is clipped,
and moves the end of the selection by at most one. -/
theorem regionRow_full (behind : Int → Int → UInt32) (a0 : Nat) (y0 y1 y : Int) (row : Line)
    (has : grabRow screen (scrollBufferPushAll none history) y = some ⟨some row, row.length⟩)
    (full : cols ≤ row.length) (narrow : b1 ≤ cols) (st : TextRegion)
    (notAfter : st.textEndX ≤ b1) (justBefore : (b1 : Int) ≤ st.textEndX + 1) :
    ∃ next, regionRow screen (scrollBufferPushAll none history) behind a0 y0 y1 st y = some next ∧
      next.text = st.text ++ (keptUnits (columns row (selectionStart a0 y0 y)
        (clippedEnd (behind y) cols row (if y = y1 then st.textEndX else cols)).toNat) ++
          if y ≠ y1 then [0x0A] else []) ∧
      next.textEndX ≤ b1 ∧ (b1 : Int) ≤ next.textEndX + 1 := by
  have start : (if y = y0 then (a0 : Int) else 0) = (selectionStart a0 y0 y : Int) := by
    rw [selectionStart]
    split <;> rfl
  have last : (if y = y1 then st.textEndX else (cols : Int)) ≤ cols := by
    split <;> omega
  have stepped := regionRow_present screen _ behind a0 y0 y1 st y row row.length has
  rw [start] at stepped
  generalize (if y = y1 then st.textEndX else (cols : Int)) = endX at last stepped ⊢
  have clipped := clippedEnd_le (behind y) cols row endX
  obtain ⟨text, ends, -⟩ := copyRow_spec (behind y) cols (selectionStart a0 y0 y) endX row st
    (by omega)
  generalize copyRow (behind y) cols _ _ row row.length st = copied at text ends stepped
  have bounds : copied.textEndX ≤ b1 ∧ (b1 : Int) ≤ copied.textEndX + 1 := by
    rcases ends with same | ⟨late, -, moved⟩ <;> omega
  refine ⟨_, stepped, ?_, ?_, ?_⟩
  · split
    · rw [text, List.append_assoc]
    · rw [text, List.append_nil]
  · split <;> exact bounds.1
  · split <;> exact bounds.2

/-- The text of rows that are at least as long as the window is wide are their cells up to
ends of the rows. -/
theorem regionRows_full (behind : Int → Int → UInt32) (a0 : Nat) (ordered : y0 ≤ y1)
    (narrow : b1 ≤ cols)
    (full : ∀ y, y0 ≤ y → y ≤ y1 → ∃ row,
      grabRow screen (scrollBufferPushAll none history) y = some ⟨some row, row.length⟩ ∧
        cols ≤ row.length) :
    ∃ st ends, (Int.range y0 (y1 + 1)).foldlM
        (regionRow screen (scrollBufferPushAll none history) behind a0 y0 y1) ⟨[], b1, []⟩ = some st ∧
      st.text = [0x0A].intercalate ((Int.range y0 (y1 + 1)).map fun y =>
        keptUnits (lineUpTo screen history a0 y0 ends y)) ∧
      ∀ y, y0 ≤ y → y ≤ y1 → RowEnd screen history b1 y1 y (ends y) := by
  have cells : ∀ y row len, grabRow screen (scrollBufferPushAll none history) y =
      some ⟨some row, len⟩ → rowCells screen history y = row := by
    intro y row len has
    rw [rowCells, has]
  obtain ⟨middle, reached, text, notAfter, justBefore⟩ := regionRows_run screen
    (scrollBufferPushAll none history) behind a0 y0 y1 y1
    (fun y => keptUnits (columns (rowCells screen history y) (selectionStart a0 y0 y)
      (clippedEnd (behind y) cols (rowCells screen history y) cols).toNat))
    (fun _ st => st.textEndX ≤ b1 ∧ (b1 : Int) ≤ st.textEndX + 1)
    (fun y st above below bounds => by
      obtain ⟨row, has, longer⟩ := full y above (by omega)
      obtain ⟨next, stepped, added, kept⟩ := regionRow_full behind a0 y0 y1 y row has
        longer narrow st bounds.1 bounds.2
      have earlier : y ≠ y1 := Int.ne_of_lt below
      rw [if_pos earlier, if_neg earlier] at added
      rw [cells y row _ has]
      exact ⟨next, stepped, added, kept⟩)
    ⟨[], b1, []⟩ ⟨le_rfl, by dsimp only; omega⟩ ordered
  obtain ⟨row, has, longer⟩ := full y1 ordered le_rfl
  obtain ⟨st, stepped, added, -⟩ := regionRow_full behind a0 y0 y1 y1 row has longer
    narrow middle notAfter justBefore
  rw [if_pos rfl, if_neg (not_not.mpr rfl), List.append_nil] at added
  have rowOf := cells y1 row _ has
  refine ⟨st, fun y => (clippedEnd (behind y) cols (rowCells screen history y)
    (if y = y1 then middle.textEndX else cols)).toNat,
    regionRows_succ ordered reached stepped, ?_, ?_⟩
  · rw [intRange_concat _ _ ordered, List.map_append, List.map_singleton, intercalate_concat,
      List.flatMap_map, added, text, List.nil_append]
    congr 1
    · apply List.flatMap_congr
      intro y member
      have earlier : y ≠ y1 := Int.ne_of_lt (Int.mem_range_iff.mp member).2
      unfold lineUpTo
      dsimp only
      rw [if_neg earlier]
    · unfold lineUpTo
      dsimp only
      rw [if_pos rfl, rowOf]
  · intro y above below
    obtain ⟨row, has, longer⟩ := full y above below
    dsimp only
    have here := cells y row _ has
    rw [here]
    apply clippedEnd_rowEnd y row _ here
    · unfold windowEnd
      split <;> omega
    · unfold windowEnd
      split <;> omega
    · exact narrow

/-- The code units of the selected cells of all rows in the window. -/
def windowText (screen : VTermScreen rows cols) (history : List Line) (a0 : Nat) (y0 : Int)
    (b1 : Nat) (y1 : Int) : List UInt16 :=
  [0x0A].intercalate ((Int.range y0 (y1 + 1)).map fun y =>
    keptUnits (lineUpTo screen history a0 y0 (windowEnd cols b1 y1) y))

/-- A line of cells that hold code units is kept as the units of its characters. -/
theorem lineUpTo_units {ends : Int → Nat} {y : Int} {row : Line}
    (has : grabRow screen (scrollBufferPushAll none history) y = some ⟨some row, row.length⟩)
    (hold : ∀ cell ∈ row, cell.HoldsUnit) :
    keptUnits (lineUpTo screen history a0 y0 ends y) =
        ((lineUpTo screen history a0 y0 ends y).flatMap VTermScreenCell.scalars).map
          (fun c => c.val.toUInt16) ∧
      ∀ c ∈ (lineUpTo screen history a0 y0 ends y).flatMap VTermScreenCell.scalars,
        0x20 ≤ c.toNat ∧ c.toNat < 0xFFFE := by
  have cells : rowCells screen history y = row := by rw [rowCells, has]
  apply keptUnits_eq_scalars
  intro cell inside
  rw [lineUpTo, cells] at inside
  exact hold cell (List.mem_of_mem_take (List.mem_of_mem_drop inside))

/-- The lines up to their ends are no longer than the window. -/
theorem lines_length_le {ends : Int → Nat}
    (rowEnds : ∀ y, y0 ≤ y → y ≤ y1 → RowEnd screen history b1 y1 y (ends y)) :
    ([0x0A].intercalate ((Int.range y0 (y1 + 1)).map fun y =>
        keptUnits (lineUpTo screen history a0 y0 ends y))).length ≤
      (windowText screen history a0 y0 b1 y1).length := by
  apply (intercalate_sublist _ _).length_le
  rw [List.forall₂_map_left_iff, List.forall₂_map_right_iff, List.forall₂_same]
  intro y member
  obtain ⟨above, below⟩ := Int.mem_range_iff.mp member
  rw [lineUpTo, lineUpTo, columns_split _ _ _ _ (rowEnds y above (by omega)).inside,
    keptUnits_append]
  exact List.sublist_append_left _ _

/-- **The clipboard.** Let the rows of a selection be present and at least as long as the
window is wide, let their cells hold scalar values of 16 bits, and let the selected
cells fit the array. Then the clipboard is the UTF-8 encoding of the scalar values of
the rows' cells up to an end of each row, with a line break between rows, and decoding
it gives them back; where there are none, nothing is copied. The selected cells that are
left out are spaces, apart from at most the one at the end. -/
theorem copyText_decodes (ordered : y0 ≤ y1) (narrow : b1 ≤ cols)
    (full : ∀ y, y0 ≤ y → y ≤ y1 → ∃ row,
      grabRow screen (scrollBufferPushAll none history) y = some ⟨some row, row.length⟩ ∧
        cols ≤ row.length ∧ ∀ cell ∈ row, cell.HoldsUnit)
    (fits : (windowText screen history a0 y0 b1 y1).length ≤ 5112) :
    ∃ st ends chars,
      getTextRegion screen (scrollBufferPushAll none history) behind a0 y0 b1 y1 = some st ∧
      (∀ y, y0 ≤ y → y ≤ y1 → RowEnd screen history b1 y1 y (ends y)) ∧
      chars = ['\n'].intercalate ((Int.range y0 (y1 + 1)).map fun y =>
        (lineUpTo screen history a0 y0 ends y).flatMap VTermScreenCell.scalars) ∧
      ((chars = [] ∧ st.text = []) ∨ ∃ bytes, copyText st.text = some bytes ∧
        bytes = chars.flatMap String.utf8EncodeChar ∧
        bytes.toByteArray.utf8Decode? = some chars.toArray) := by
  obtain ⟨st, ends, finished, text, rowEnds⟩ := regionRows_full behind a0 ordered narrow
    fun y above below => by
      obtain ⟨row, has, longer, -⟩ := full y above below
      exact ⟨row, has, longer⟩
  have lines : ∀ y ∈ Int.range y0 (y1 + 1),
      keptUnits (lineUpTo screen history a0 y0 ends y) =
          ((lineUpTo screen history a0 y0 ends y).flatMap VTermScreenCell.scalars).map
            (fun c => c.val.toUInt16) ∧
        ∀ c ∈ (lineUpTo screen history a0 y0 ends y).flatMap VTermScreenCell.scalars,
          0x20 ≤ c.toNat ∧ c.toNat < 0xFFFE := by
    intro y member
    obtain ⟨above, below⟩ := Int.mem_range_iff.mp member
    obtain ⟨row, has, -, hold⟩ := full y above (by omega)
    exact lineUpTo_units has hold
  have units : st.text = (['\n'].intercalate ((Int.range y0 (y1 + 1)).map fun y =>
      (lineUpTo screen history a0 y0 ends y).flatMap VTermScreenCell.scalars)).map
        (fun c => c.val.toUInt16) := by
    rw [text, map_intercalate, List.map_map]
    congr 1
    exact List.map_congr_left fun y member => (lines y member).1
  have short : st.text.length ≤ 5112 := by
    rw [text]
    exact le_trans (lines_length_le rowEnds) fits
  generalize spelled : ['\n'].intercalate ((Int.range y0 (y1 + 1)).map fun y =>
    (lineUpTo screen history a0 y0 ends y).flatMap VTermScreenCell.scalars) = chars at units
  have narrowChars : ∀ c ∈ chars, c.toNat ≠ 0 ∧ c.toNat < 0xFFFE := by
    intro c member
    rw [← spelled] at member
    rcases mem_intercalate member with rfl | ⟨line, inLines, here⟩
    · decide
    · obtain ⟨y, inRange, rfl⟩ := List.mem_map.mp inLines
      have bounds := (lines y inRange).2 c here
      omega
  refine ⟨st, ends, chars, ?_, rowEnds, spelled.symm, ?_⟩
  · exact (getTextRegion_ordered screen _ behind a0 y0 b1 y1 ordered st).mpr ⟨finished, short⟩
  · by_cases empty : chars = []
    · exact Or.inl ⟨empty, by rw [units, empty, List.map_nil]⟩
    · rw [units, List.length_map] at short
      refine Or.inr ⟨_, ?_, rfl, List.utf8Decode?_utf8Encode⟩
      rw [units]
      exact copyText_scalars chars empty short narrowChars

end Selection

theorem copyText_decodes_letters :
    ∃ st ends chars,
      getTextRegion (letterScreen 2 3) (scrollBufferPushAll none []) (fun _ _ => 0x41)
          (1 : Nat) 0 (2 : Nat) 1 = some st ∧
      (∀ y, 0 ≤ y → y ≤ 1 → RowEnd (letterScreen 2 3) [] 2 1 y (ends y)) ∧
      chars = ['\n'].intercalate ((Int.range 0 (1 + 1)).map fun y =>
        (lineUpTo (letterScreen 2 3) [] 1 0 ends y).flatMap VTermScreenCell.scalars) ∧
      ((chars = [] ∧ st.text = []) ∨ ∃ bytes, copyText st.text = some bytes ∧
        bytes = chars.flatMap String.utf8EncodeChar ∧
        bytes.toByteArray.utf8Decode? = some chars.toArray) := by
  let cell : VTermScreenCell := ⟨[0x41], 1, defaultPen⟩
  have letter : cell.HoldsUnit := Or.inr (Or.inr ⟨'A', rfl, by decide, by decide⟩)
  refine copyText_decodes (by decide) (by decide) ?_ (by decide)
  intro y above below
  have rowOf : grabRow (letterScreen 2 3) (scrollBufferPushAll none []) y =
      some ⟨some [cell, cell, cell], 3⟩ := by
    obtain rfl | rfl : y = 0 ∨ y = 1 := by omega
    · rfl
    · rfl
  exact ⟨_, rowOf, by decide, by simpa using letter⟩

/-- A scalar value of more than 16 bits. -/
def gothicCell : ScreenCell := ⟨#v[0x10348, 0, 0, 0, 0, 0], defaultPen, by simp⟩

/-- The cell of a screen holds U+10348, and the clipboard U+0348. -/
theorem copyText_cuts :
    let screen : VTermScreen 1 1 := { letterScreen 1 1 with buffer := fun _ _ => gothicCell }
    (lineUpTo screen [] 0 0 (fun _ => 1) 0).flatMap VTermScreenCell.scalars =
        [Char.ofNat 0x10348] ∧
      ∃ st bytes, getTextRegion screen (scrollBufferPushAll none []) (fun _ _ => 0x41) 0 0 1 0 =
          some st ∧ copyText st.text = some bytes ∧
        bytes.toByteArray.utf8Decode? ≠ some #[Char.ofNat 0x10348] := by
  have cut : [Char.ofNat 0x348].flatMap String.utf8EncodeChar = [0xCD, 0x88] := rfl
  refine ⟨by decide, ⟨[0x348], 0, [(1, 1), (0, 1)]⟩, [0xCD, 0x88], rfl, rfl, ?_⟩
  rw [← cut, ← List.utf8Encode, List.utf8Decode?_utf8Encode]
  decide

end Hackterm
