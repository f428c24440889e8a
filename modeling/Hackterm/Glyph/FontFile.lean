import Hackterm.Glyph.HexLine
import Hackterm.Streaming.Run

/-! # The font file

`load_fonts` counts the lines of the file and takes the number of a line for the code
point of its glyph. It asks for one line more than there is, because the end of a file
is known only when a read has met it, and then decodes whatever `malloc` has left in
the buffer into the entry behind the last line, which is marked as narrow. So with the
width of an entry no file is loaded rightly, and without it a file is when every line
stands at its code point, but for empty glyphs, and the last buffer sets no pixel
(`Hackterm.loadFonts_iff`).
-/

namespace Hackterm

/-- What `malloc` leaves in the 50 bytes of `line`, at each turn of the loop. -/
structure LineBuffers where
  bytes : Nat → List UInt8
  length : ∀ n, (bytes n).length = 50

/-- The buffer after `getline` has read a line into it. A call that reads nothing leaves
it alone. -/
def getlineBuffer (fresh line : List UInt8) : List UInt8 :=
  if line = [] then fresh else line ++ 0 :: fresh.drop (line.length + 1)

/-- The loop of `load_fonts` from its turn `n` on. The bytes of the file still to be read
are the first argument, and those `getline` has read at this turn the second. -/
def loadFontsLoop (malloc : LineBuffers) :
    List UInt8 → List UInt8 → Nat → FontTables → Option FontTables
  | [], line, n, font => loadEntry (getlineBuffer (malloc.bytes n) line) n font
  | char :: mfile, line, n, font =>
      if char = 0x0A then do
        let font ← loadEntry (getlineBuffer (malloc.bytes n) (line ++ [char])) n font
        loadFontsLoop malloc mfile [] (n + 1) font
      else loadFontsLoop malloc mfile (line ++ [char]) n font

/-- `load_fonts`, with the contents of the file. -/
def loadFonts (malloc : LineBuffers) (mfile : List UInt8) : Option FontTables :=
  loadFontsLoop malloc mfile [] 0 clearedTables

/-- A line of a font file. -/
structure GlyphLine where
  label : List UInt8
  glyph : Bitmap
  named : HexLabel label

/-- The value of a hexadecimal digit. -/
def labelDigit (char : UInt8) : Nat :=
  let place := (CString.ascii "0123456789ABCDEFabcdef").idxOf char
  if place < 16 then place else place - 6

namespace GlyphLine

/-- The code point before the colon. -/
def codePoint (line : GlyphLine) : Nat :=
  line.label.foldl (fun value char => 16 * value + labelDigit char) 0

/-- The bytes of the line, with its newline. -/
def bytes (line : GlyphLine) : List UInt8 := line.glyph.line line.label

/-- The glyph is narrow. -/
def narrow (line : GlyphLine) : Bool := decide (line.glyph.width = 8)

/-- The pixel of the glyph, which has none outside its columns. -/
def pixel (line : GlyphLine) (x y : Nat) : Bool :=
  decide (x < line.glyph.width) && line.glyph.pixel x y

end GlyphLine

/-- The lines of a font file: their code points increase and have 16 bits. -/
structure FontFile (lines : List GlyphLine) : Prop where
  increasing : lines.Pairwise fun first second => first.codePoint < second.codePoint
  small : ∀ line ∈ lines, line.codePoint ≤ 0xFFFF

/-- The tables have the glyph and the width of every line at its code point, and no pixel
elsewhere. -/
structure FontTables.Holds (font : FontTables) (lines : List GlyphLine) : Prop where
  line : ∀ line ∈ lines, font.Shows (UInt16.ofNat line.codePoint) line.glyph
  blank : ∀ p : UInt16, (∀ line ∈ lines, line.codePoint ≠ p.toNat) →
    ∀ x y : Nat, x < 16 → y < 16 → getPixel font p.toUInt32 x y = some 0

/-- Elsewhere the width is not marked either. -/
structure FontTables.HoldsOnly (font : FontTables) (lines : List GlyphLine) : Prop
    extends font.Holds lines where
  unmarked : ∀ p : UInt16, (∀ line ∈ lines, line.codePoint ≠ p.toNat) →
    getWidthmap font p = some false

/-- A bitmap without a pixel. -/
def Unset (data : List UInt8) : Prop := ∀ byte < 32, ∀ bit < 8, Bits.bitAt data byte bit = some false

/-- Whether the entry of a character is narrow after the lines and the turn behind them. -/
def narrowAt (lines : List GlyphLine) (p : Nat) : Bool :=
  match lines[p]? with
  | some line => line.narrow
  | none => decide (p = lines.length)

/-- The line `i` stands at its code point. Another may only be empty, with the width the
entry of its code point gets. -/
def WellPlaced (lines : List GlyphLine) (i : Nat) (line : GlyphLine) : Prop :=
  line.codePoint = i ∨
    (∀ x y : Nat, x < 16 → y < 16 → line.pixel x y = false) ∧
      narrowAt lines line.codePoint = line.narrow

section Fresh

theorem loadBit_length {width v n : Nat} {before after : List UInt8 × LineCursor}
    (turn : loadBit width v before n = some after) : after.1.length = before.1.length := by
  obtain ⟨data, wrote, same⟩ := Option.bind_eq_some_iff.mp turn
  rw [← Option.some.inj same]
  exact (Bits.setBit_inside wrote).2

theorem loadDigits_length {width : Nat} {line : List UInt8}
    {before after : List UInt8 × LineCursor}
    (loaded : loadDigits width line before = some after) :
    after.1.length = before.1.length := by
  fun_induction loadDigits width line before with
  | case1 =>
      rw [← Option.some.inj loaded]
  | case2 char next line before notNul ih =>
      obtain ⟨v, -, loaded⟩ := Option.bind_eq_some_iff.mp loaded
      obtain ⟨middle, digit, loaded⟩ := Option.bind_eq_some_iff.mp loaded
      have kept := Streaming.foldlM_invariant
        (fun state : List UInt8 × LineCursor => state.1.length = before.1.length)
        (fun _ _ _ same turn => (loadBit_length turn).trans same) rfl (List.range 4) digit
      exact (ih middle loaded).trans kept
  | case3 => cases loaded

/-- A line does not change the size of its `fontchar`, and a short one is narrow. -/
theorem loadLine_short {line data written : List UInt8} {width : Nat} (short : line.length ≤ 60)
    (loaded : loadLine line data = some (written, width)) :
    written.length = data.length ∧ width = 0 := by
  obtain ⟨string, read, loaded⟩ := Option.bind_eq_some_iff.mp loaded
  obtain ⟨pos, -, loaded⟩ := Option.bind_eq_some_iff.mp loaded
  obtain ⟨state, digits, loaded⟩ := Option.bind_eq_some_iff.mp loaded
  obtain ⟨same, result⟩ := Prod.mk.inj (Option.some.inj loaded)
  have small := CString.length_lt_of_read read
  have notLong : ¬ 60 < string.length := by omega
  constructor
  · rw [← same]
    exact loadDigits_length digits
  · rw [← result, if_neg notLong]
    exact if_neg (by decide)

end Fresh

section Loop

namespace FontTables

/-- The pixel of a character in its `fontchar`. -/
def bit (font : FontTables) (p x y : Nat) : Option Bool :=
  Bits.bitAt (font.fontchar p) ((16 * y + x) / 8) ((16 * y + x) % 8)

/-- The mark of a narrow character. -/
def mark (font : FontTables) (p : Nat) : Option Bool := Bits.bitAt font.widthmap (p / 8) (p % 8)

end FontTables

/-- What the tables hold after some lines: each line at its number, and nothing behind. -/
structure LinesLoaded (lines : List GlyphLine) (font : FontTables) : Prop where
  full : font.Full
  line : ∀ i line, lines[i]? = some line → ∀ x y, x < 16 → y < 16 →
    font.bit i x y = some (line.pixel x y)
  marked : ∀ i line, lines[i]? = some line → font.mark i = some line.narrow
  blank : ∀ p, lines.length ≤ p → p < 65536 → font.fontchar p = List.replicate 32 0
  unmarked : ∀ p, lines.length ≤ p → p < 65536 → font.mark p = some false

theorem clearedTables_loaded : LinesLoaded [] clearedTables where
  full := clearedTables_full
  line i line none := by cases none
  marked i line none := by cases none
  blank p _ small := clearedTables_fontchar small
  unmarked p _ small := Bits.bitAt_replicate (by omega) _

theorem GlyphLine.narrow_eq (line : GlyphLine) :
    decide ((if line.glyph.width = 16 then 1 else 0) ≠ 1) = line.narrow := by
  unfold narrow
  obtain narrow | wide := line.glyph.width_eq
  · rw [narrow]
    rfl
  · rw [wide]
    rfl

theorem getlineBuffer_line (fresh : List UInt8) (line : GlyphLine) :
    ∃ rest, getlineBuffer fresh line.bytes = line.bytes ++ 0 :: rest := by
  have filled : line.bytes ≠ [] := by
    unfold GlyphLine.bytes Bitmap.line
    exact fun empty => absurd (List.append_eq_nil_iff.mp empty).2 (List.cons_ne_nil _ _)
  exact ⟨_, if_neg filled⟩

/-- A line is the last one or one of those before it. -/
theorem getElem?_concat_cases {lines : List GlyphLine} {last line : GlyphLine} {i : Nat}
    (here : (lines ++ [last])[i]? = some line) :
    i = lines.length ∧ line = last ∨ i ≠ lines.length ∧ lines[i]? = some line := by
  rw [List.getElem?_append] at here
  split_ifs at here with inside
  · exact Or.inr ⟨Nat.ne_of_lt inside, here⟩
  · obtain ⟨bound, same⟩ := List.getElem?_eq_some_iff.mp here
    rw [List.length_singleton] at bound
    rw [List.getElem_singleton] at same
    exact Or.inl ⟨by omega, same.symm⟩

/-- **One turn.** The next line is loaded into the entry behind the others. -/
theorem loadEntry_next {lines : List GlyphLine} {font : FontTables}
    (loaded : LinesLoaded lines font) (small : lines.length < 65536) (fresh : List UInt8)
    (line : GlyphLine) :
    ∃ after, loadEntry (getlineBuffer fresh line.bytes) lines.length font = some after ∧
      LinesLoaded (lines ++ [line]) after := by
  obtain ⟨rest, buffer⟩ := getlineBuffer_line fresh line
  have cleared := loaded.blank lines.length (Nat.le_refl _) small
  have room : (font.fontchar lines.length).length = 32 := font.length_fontchar loaded.full small
  obtain ⟨written, reads, spec⟩ := loadLine_line line.named line.glyph rest room
  obtain ⟨after, entry, changed⟩ := loadEntry_spec loaded.full small reads (spec.length.trans room)
  rw [cleared] at spec
  rw [line.narrow_eq] at changed
  rw [buffer]
  have longer : (lines ++ [line]).length = lines.length + 1 := List.length_append
  refine ⟨after, entry, changed.full, ?_, ?_, ?_, ?_⟩
  · intro i other here x y column row
    rw [FontTables.bit]
    obtain ⟨rfl, rfl⟩ | ⟨apart, before⟩ := getElem?_concat_cases here
    · rw [changed.glyph]
      exact spec.bit column row
    · rw [changed.otherGlyph i apart]
      exact loaded.line i other before x y column row
  · intro i other here
    rw [FontTables.mark]
    obtain ⟨rfl, rfl⟩ | ⟨apart, before⟩ := getElem?_concat_cases here
    · exact changed.narrow
    · rw [changed.otherWidth i apart]
      exact loaded.marked i other before
  · intro p behind inside
    rw [changed.otherGlyph p (by omega)]
    exact loaded.blank p (by omega) inside
  · intro p behind inside
    rw [FontTables.mark, changed.otherWidth p (by omega)]
    exact loaded.unmarked p (by omega) inside

theorem GlyphLine.bytes_eq (line : GlyphLine) :
    ∃ front, line.bytes = front ++ [0x0A] ∧ 0x0A ∉ front := by
  refine ⟨line.label ++ 0x3A :: hexSpelling line.glyph.pixels, ?_, ?_⟩
  · simp [bytes, Bitmap.line]
  · have label : 0x0A ∉ line.label := fun member =>
      absurd (line.named.digits 0x0A member) (by decide)
    have digits : 0x0A ∉ hexSpelling line.glyph.pixels := fun member =>
      absurd (hexSpelling_digits _ 0x0A member) (by decide)
    simp only [List.mem_append, List.mem_cons, not_or]
    exact ⟨label, by decide, digits⟩

/-- `getline` reads up to a newline. -/
theorem loadFontsLoop_newline (malloc : LineBuffers) (front line rest : List UInt8) (n : Nat)
    (font : FontTables) (no_newline : 0x0A ∉ front) :
    loadFontsLoop malloc (front ++ 0x0A :: rest) line n font =
      (loadEntry (getlineBuffer (malloc.bytes n) (line ++ front ++ [0x0A])) n font).bind
        (loadFontsLoop malloc rest [] (n + 1)) := by
  induction front generalizing line with
  | nil =>
      rw [List.nil_append, loadFontsLoop, if_pos rfl, List.append_nil]
      rfl
  | cons char front ih =>
      rw [List.mem_cons, not_or] at no_newline
      rw [List.cons_append, loadFontsLoop, if_neg (Ne.symm no_newline.1), ih _ no_newline.2]
      simp

/-- **All turns but the last.** Lines are loaded into the entries of their numbers, and
then the loop runs once more. -/
theorem loadFontsLoop_lines (malloc : LineBuffers) (lines : List GlyphLine) {before : List GlyphLine}
    {font : FontTables} (loaded : LinesLoaded before font)
    (small : before.length + lines.length ≤ 65536) :
    ∃ after, LinesLoaded (before ++ lines) after ∧
      loadFontsLoop malloc (lines.flatMap GlyphLine.bytes) [] before.length font =
        loadEntry (malloc.bytes (before ++ lines).length) (before ++ lines).length after := by
  induction lines generalizing before font with
  | nil =>
      rw [List.append_nil]
      exact ⟨font, loaded, rfl⟩
  | cons line lines ih =>
      rw [List.length_cons] at small
      obtain ⟨front, spelled, no_newline⟩ := line.bytes_eq
      obtain ⟨middle, entry, next⟩ :=
        loadEntry_next loaded (by omega) (malloc.bytes before.length) line
      have longer : (before ++ [line]).length = before.length + 1 := List.length_append
      obtain ⟨after, all, last⟩ := ih next (by omega)
      rw [List.append_assoc, List.singleton_append] at all last
      refine ⟨after, all, ?_⟩
      rw [longer] at last
      rw [List.flatMap_cons, spelled, List.append_assoc, List.singleton_append,
        loadFontsLoop_newline _ _ _ _ _ _ no_newline, List.nil_append, ← spelled, entry,
        Option.bind_some, last]

end Loop

section File

variable {lines : List GlyphLine} {malloc : LineBuffers} {font : FontTables} {data : List UInt8}

/-- A line stands no later than its code point. -/
theorem FontFile.le_codePoint (file : FontFile lines) {i : Nat} {line : GlyphLine}
    (here : lines[i]? = some line) : i ≤ line.codePoint := by
  obtain ⟨inside, rfl⟩ := List.getElem?_eq_some_iff.mp here
  clear here
  induction i with
  | zero => exact Nat.zero_le _
  | succ i ih =>
      have before : i < lines.length := Nat.lt_of_succ_lt inside
      have grows := List.pairwise_iff_getElem.mp file.increasing i (i + 1) before inside
        (Nat.lt_succ_self i)
      exact Nat.succ_le_of_lt (Nat.lt_of_le_of_lt (ih before) grows)

/-- A code point has one line. -/
theorem FontFile.place_unique (file : FontFile lines) {i j : Nat} {line other : GlyphLine}
    (here : lines[i]? = some line) (there : lines[j]? = some other)
    (same : line.codePoint = other.codePoint) : i = j := by
  obtain ⟨inside, rfl⟩ := List.getElem?_eq_some_iff.mp here
  obtain ⟨within, rfl⟩ := List.getElem?_eq_some_iff.mp there
  obtain before | equal | behind := Nat.lt_trichotomy i j
  · have grows := List.pairwise_iff_getElem.mp file.increasing i j inside within before
    omega
  · exact equal
  · have grows := List.pairwise_iff_getElem.mp file.increasing j i within inside behind
    omega

theorem FontFile.length_le (file : FontFile lines) : lines.length ≤ 65536 := by
  by_contra long
  have inside : 65536 < lines.length := Nat.lt_of_not_le long
  have here := List.getElem?_eq_getElem inside
  have above := file.le_codePoint here
  have below := file.small _ (List.getElem_mem inside)
  omega

/-- What the tables hold of a file: each line at its number, behind the lines the bitmap of
the last turn, and the marks. -/
structure FileLoaded (lines : List GlyphLine) (data : List UInt8) (font : FontTables) : Prop where
  line : ∀ i line, lines[i]? = some line → ∀ x y, x < 16 → y < 16 →
    font.bit i x y = some (line.pixel x y)
  last : font.fontchar lines.length = data
  blank : ∀ p, lines.length < p → p < 65536 → ∀ x y, x < 16 → y < 16 →
    font.bit p x y = some false
  mark : ∀ p, p < 65536 → font.mark p = some (narrowAt lines p)

theorem LinesLoaded.last_turn {before after : FontTables} (loaded : LinesLoaded lines before)
    (turn : EntryLoaded lines.length data true before after) : FileLoaded lines data after where
  line i line here x y column row := by
    have inside := (List.getElem?_eq_some_iff.mp here).1
    rw [FontTables.bit, turn.otherGlyph i (Nat.ne_of_lt inside)]
    exact loaded.line i line here x y column row
  last := turn.glyph
  blank p behind small x y column row := by
    rw [FontTables.bit, turn.otherGlyph p (Nat.ne_of_gt behind),
      loaded.blank p (Nat.le_of_lt behind) small]
    exact Bits.bitAt_replicate (by omega) _
  mark p small := by
    rw [FontTables.mark, narrowAt]
    by_cases last : p = lines.length
    · rw [last, turn.narrow, List.getElem?_eq_none (Nat.le_refl _)]
      simp
    · rw [turn.otherWidth p last]
      cases here : lines[p]? with
      | some line => exact loaded.marked p line here
      | none =>
          rw [decide_eq_false last]
          exact loaded.unmarked p (List.getElem?_eq_none_iff.mp here) small

/-- A file that is loaded has no more lines than there are entries but one, and its last
buffer is decoded. -/
theorem loadFonts_some (file : FontFile lines)
    (loaded : loadFonts malloc (lines.flatMap GlyphLine.bytes) = some font) :
    lines.length < 65536 ∧
      ∃ data width, loadLine (malloc.bytes lines.length) (List.replicate 32 0) = some (data, width) ∧
        FileLoaded lines data font := by
  have few : ([] : List GlyphLine).length + lines.length ≤ 65536 := by
    simpa using file.length_le
  obtain ⟨before, all, last⟩ := loadFontsLoop_lines malloc lines clearedTables_loaded few
  rw [List.nil_append] at all last
  have turn : loadEntry (malloc.bytes lines.length) lines.length before = some font :=
    last.symm.trans loaded
  obtain ⟨⟨data, width⟩, reads, rest⟩ := Option.bind_eq_some_iff.mp turn
  obtain ⟨widthmap, marks, -⟩ := Option.bind_eq_some_iff.mp rest
  have inside := (Bits.setBit_inside marks).1
  rw [all.full.widthmap] at inside
  have small : lines.length < 65536 := by omega
  have short : (malloc.bytes lines.length).length ≤ 60 := by
    rw [malloc.length]
    decide
  obtain ⟨kept, rfl⟩ := loadLine_short short reads
  have room := before.length_fontchar all.full small
  obtain ⟨after, entry, changed⟩ := loadEntry_spec all.full small reads (kept.trans room)
  rw [turn, Option.some.injEq] at entry
  subst entry
  rw [all.blank _ (Nat.le_refl _) small] at reads
  exact ⟨small, data, 0, reads, all.last_turn changed⟩

/-- A file is loaded if the buffer of the last turn is decoded, in an entry of the table. -/
theorem loadFonts_loaded (small : lines.length < 65536) {width : Nat}
    (reads : loadLine (malloc.bytes lines.length) (List.replicate 32 0) = some (data, width)) :
    ∃ font, loadFonts malloc (lines.flatMap GlyphLine.bytes) = some font ∧
      FileLoaded lines data font := by
  have few : ([] : List GlyphLine).length + lines.length ≤ 65536 := by
    rw [List.length_nil]
    omega
  obtain ⟨before, all, last⟩ := loadFontsLoop_lines malloc lines clearedTables_loaded few
  rw [List.nil_append] at all last
  have short : (malloc.bytes lines.length).length ≤ 60 := by
    rw [malloc.length]
    decide
  obtain ⟨kept, rfl⟩ := loadLine_short short reads
  have room : data.length = 32 := kept.trans List.length_replicate
  rw [← all.blank _ (Nat.le_refl _) small] at reads
  obtain ⟨after, entry, changed⟩ := loadEntry_spec all.full small reads room
  exact ⟨after, last.trans entry, all.last_turn changed⟩

end File

section Placement

variable {lines : List GlyphLine} {font : FontTables} {data : List UInt8}

/-- The line has a glyph without pixels. -/
def GlyphLine.Empty (line : GlyphLine) : Prop :=
  ∀ x y : Nat, x < 16 → y < 16 → line.pixel x y = false

/-- No line stands at this place with its own code point. -/
def Misplaced (lines : List GlyphLine) (p : Nat) : Prop :=
  ∀ line, lines[p]? = some line → line.codePoint ≠ p

theorem getPixel_eq_zero_iff (font : FontTables) (p : UInt16) {x y : Nat} (column : x < 16)
    (row : y < 16) :
    getPixel font p.toUInt32 x y = some 0 ↔ font.bit p.toNat x y = some false := by
  rw [getPixel_fontchar font p column row, FontTables.bit]
  cases Bits.bitAt (font.fontchar p.toNat) ((16 * y + x) / 8) ((16 * y + x) % 8) with
  | none => exact iff_of_false (by simp) (by simp)
  | some set =>
      cases set with
      | true => exact iff_of_false (by simp) (by simp)
      | false => exact iff_of_true rfl rfl

/-- The tables show a glyph by its bits and its mark. -/
theorem FontTables.shows_iff (font : FontTables) (p : UInt16) (line : GlyphLine) :
    font.Shows p line.glyph ↔
      (∀ x y, x < 16 → y < 16 → font.bit p.toNat x y = some (line.pixel x y)) ∧
        font.mark p.toNat = some line.narrow := by
  have pixels : ∀ x y : Nat, x < 16 → y < 16 →
      ((∃ value, getPixel font p.toUInt32 x y = some value ∧
        (value ≠ 0 ↔ x < line.glyph.width ∧ line.glyph.pixel x y)) ↔
          font.bit p.toNat x y = some (line.pixel x y)) := by
    intro x y column row
    have set : (x < line.glyph.width ∧ line.glyph.pixel x y) ↔ line.pixel x y = true := by
      rw [GlyphLine.pixel, Bool.and_eq_true, decide_eq_true_iff]
    rw [set, getPixel_fontchar font p column row, FontTables.bit]
    generalize Bits.bitAt (font.fontchar p.toNat) _ _ = stored
    generalize line.pixel x y = pixel
    have value : ∀ set pixel : Bool,
        ((if set then 65535 else 0 : UInt32) ≠ 0 ↔ pixel = true) ↔ set = pixel := by
      decide
    cases stored with
    | none => exact iff_of_false (by simp) (by simp)
    | some set =>
        rw [Option.map_some, Option.some.injEq, ← value set pixel]
        constructor
        · rintro ⟨_, ⟨⟩, shown⟩
          exact shown
        · intro shown
          exact ⟨_, rfl, shown⟩
  rw [FontTables.mark, ← getWidthmap_eq]
  constructor
  · intro shows
    exact ⟨fun x y column row => (pixels x y column row).mp (shows.pixel x y column row),
      shows.narrow⟩
  · rintro ⟨bits, narrow⟩
    exact ⟨fun x y column row => (pixels x y column row).mpr (bits x y column row), narrow⟩

theorem FontFile.toNat_codePoint (file : FontFile lines) {line : GlyphLine}
    (member : line ∈ lines) : (UInt16.ofNat line.codePoint).toNat = line.codePoint := by
  have small := file.small line member
  exact UInt16.toNat_ofNat_of_lt (Nat.lt_succ_of_le small)

/-- What the tables are meant to hold, by bits and marks. -/
theorem FontTables.holds_iff (file : FontFile lines) :
    font.Holds lines ↔
      (∀ line ∈ lines,
        (∀ x y, x < 16 → y < 16 → font.bit line.codePoint x y = some (line.pixel x y)) ∧
          font.mark line.codePoint = some line.narrow) ∧
        ∀ p < 65536, (∀ line ∈ lines, line.codePoint ≠ p) →
          ∀ x y, x < 16 → y < 16 → font.bit p x y = some false := by
  constructor
  · intro holds
    constructor
    · intro line member
      have shows := (font.shows_iff _ line).mp (holds.line line member)
      rwa [file.toNat_codePoint member] at shows
    · intro p small free x y column row
      have exact : (UInt16.ofNat p).toNat = p := UInt16.toNat_ofNat_of_lt small
      have blank := holds.blank (UInt16.ofNat p)
      rw [exact] at blank
      have zero := (getPixel_eq_zero_iff font _ column row).mp (blank free x y column row)
      rwa [exact] at zero
  · rintro ⟨shown, blank⟩
    constructor
    · intro line member
      rw [font.shows_iff _ line, file.toNat_codePoint member]
      exact shown line member
    · intro p free x y column row
      rw [getPixel_eq_zero_iff font p column row]
      exact blank p.toNat p.toNat_lt free x y column row

/-- A code point that has a line, at another place, has an empty line if all misplaced lines
before it are empty; so its entry holds no pixel. -/
theorem bit_of_misplaced (file : FontFile lines) (holds : font.Holds lines) {p : Nat}
    (small : p < 65536) (misplaced : Misplaced lines p)
    (before : ∀ i < p, ∀ line, lines[i]? = some line → line.codePoint ≠ i → line.Empty) :
    ∀ x y, x < 16 → y < 16 → font.bit p x y = some false := by
  obtain ⟨shown, blank⟩ := (FontTables.holds_iff file).mp holds
  intro x y column row
  by_cases taken : ∃ line ∈ lines, line.codePoint = p
  · obtain ⟨line, member, rfl⟩ := taken
    obtain ⟨i, here⟩ := List.mem_iff_getElem?.mp member
    have apart : line.codePoint ≠ i := by
      intro same
      rw [← same] at here
      exact misplaced line here rfl
    have earlier : i < line.codePoint := Nat.lt_of_le_of_ne (file.le_codePoint here) (Ne.symm apart)
    rw [(shown line member).1 x y column row, before i earlier line here apart x y column row]
  · exact blank p small (fun line member same => taken ⟨line, member, same⟩) x y column row

/-- Where the tables hold the file, the lines that are not at their code points are empty. -/
theorem FileLoaded.empty_of_holds (file : FontFile lines) (loaded : FileLoaded lines data font)
    (holds : font.Holds lines) (i : Nat) :
    ∀ line : GlyphLine, lines[i]? = some line → line.codePoint ≠ i → line.Empty := by
  induction i using Nat.strong_induction_on with
  | _ i ih =>
      intro line here apart x y column row
      have misplaced : Misplaced lines i := by
        intro other there
        rw [← Option.some.inj (here.symm.trans there)]
        exact apart
      have small : i < 65536 :=
        Nat.lt_of_lt_of_le (List.getElem?_eq_some_iff.mp here).1 file.length_le
      have bit := bit_of_misplaced file holds small misplaced ih x y column row
      rw [loaded.line i line here x y column row] at bit
      exact Option.some.inj bit

/-- The bits of the last turn by their pixels. -/
theorem unset_iff (data : List UInt8) :
    Unset data ↔ ∀ x y, x < 16 → y < 16 →
      Bits.bitAt data ((16 * y + x) / 8) ((16 * y + x) % 8) = some false := by
  constructor
  · intro unset x y column row
    exact unset _ (by omega) _ (by omega)
  · intro pixels byte inside bit small
    have pixel := pixels (8 * (byte % 2) + bit) (byte / 2) (by omega) (by omega)
    have place : (16 * (byte / 2) + (8 * (byte % 2) + bit)) / 8 = byte := by omega
    have shift : (16 * (byte / 2) + (8 * (byte % 2) + bit)) % 8 = bit := by omega
    rwa [place, shift] at pixel

/-- Well placed lines leave no pixel where no line stands at its own code point. -/
theorem FileLoaded.bit_of_wellPlaced (loaded : FileLoaded lines data font) (unset : Unset data)
    (placed : ∀ i line, lines[i]? = some line → WellPlaced lines i line) {p : Nat}
    (small : p < 65536) (misplaced : Misplaced lines p) :
    ∀ x y, x < 16 → y < 16 → font.bit p x y = some false := by
  intro x y column row
  cases here : lines[p]? with
  | some line =>
      obtain own | ⟨empty, -⟩ := placed p line here
      · exact absurd own (misplaced line here)
      · rw [loaded.line p line here x y column row, empty x y column row]
  | none =>
      obtain last | behind := Nat.eq_or_lt_of_le (List.getElem?_eq_none_iff.mp here)
      · rw [← last, FontTables.bit, loaded.last]
        exact (unset_iff data).mp unset x y column row
      · exact loaded.blank p behind small x y column row

/-- Tables that hold the file were loaded from well placed lines and a last turn that set no
pixel. -/
theorem FileLoaded.wellPlaced (file : FontFile lines) (few : lines.length < 65536)
    (loaded : FileLoaded lines data font) (holds : font.Holds lines) :
    Unset data ∧ ∀ i line, lines[i]? = some line → WellPlaced lines i line := by
  have empty := loaded.empty_of_holds file holds
  obtain ⟨shown, -⟩ := (FontTables.holds_iff file).mp holds
  constructor
  · have behind : Misplaced lines lines.length := by
      intro line here
      rw [List.getElem?_eq_none (Nat.le_refl _)] at here
      cases here
    have bits := bit_of_misplaced file holds few behind fun i _ => empty i
    rw [unset_iff, ← loaded.last]
    exact bits
  · intro i line here
    by_cases own : line.codePoint = i
    · exact Or.inl own
    · have member := List.mem_of_getElem? here
      have mark := (shown line member).2
      rw [loaded.mark _ (Nat.lt_succ_of_le (file.small line member)), Option.some.injEq] at mark
      exact Or.inr ⟨empty i line here own, mark⟩

/-- Well placed lines and a last turn that sets no pixel load the file. -/
theorem FileLoaded.holds (file : FontFile lines) (loaded : FileLoaded lines data font)
    (unset : Unset data) (placed : ∀ i line, lines[i]? = some line → WellPlaced lines i line) :
    font.Holds lines := by
  rw [FontTables.holds_iff file]
  constructor
  · intro line member
    obtain ⟨i, here⟩ := List.mem_iff_getElem?.mp member
    have small := Nat.lt_succ_of_le (file.small line member)
    rw [loaded.mark _ small, Option.some.injEq]
    by_cases own : line.codePoint = i
    · rw [own, narrowAt, here]
      exact ⟨loaded.line i line here, rfl⟩
    · obtain same | ⟨empty, narrow⟩ := placed i line here
      · exact absurd same own
      refine ⟨?_, narrow⟩
      have misplaced : Misplaced lines line.codePoint := by
        intro other there same
        exact own (file.place_unique there here same)
      intro x y column row
      rw [empty x y column row]
      exact loaded.bit_of_wellPlaced unset placed small misplaced x y column row
  · intro p small free
    apply loaded.bit_of_wellPlaced unset placed small
    intro line here
    exact free line (List.mem_of_getElem? here)

/-- **Placement.** Loaded tables hold the file exactly when the last turn set no pixel and
all lines are well placed. -/
theorem FileLoaded.holds_iff (file : FontFile lines) (few : lines.length < 65536)
    (loaded : FileLoaded lines data font) :
    font.Holds lines ↔
      Unset data ∧ ∀ i line, lines[i]? = some line → WellPlaced lines i line :=
  ⟨loaded.wellPlaced file few, fun ⟨unset, placed⟩ => loaded.holds file unset placed⟩

/-- The narrow mark of the last turn belongs to no line: the line whose code point it is
would itself be narrow and misplaced, and so on to the first line. -/
theorem FileLoaded.not_holdsOnly (file : FontFile lines) (few : lines.length < 65536)
    (loaded : FileLoaded lines data font) : ¬ font.HoldsOnly lines := by
  intro holds
  obtain ⟨shown, -⟩ := (FontTables.holds_iff file).mp holds.toHolds
  have wide : ∀ p, p < 65536 → Misplaced lines p → narrowAt lines p = false := by
    intro p
    induction p using Nat.strong_induction_on with
    | _ p ih =>
        intro small misplaced
        by_cases taken : ∃ line ∈ lines, line.codePoint = p
        · obtain ⟨line, member, rfl⟩ := taken
          obtain ⟨i, here⟩ := List.mem_iff_getElem?.mp member
          have apart : line.codePoint ≠ i := by
            intro same
            rw [← same] at here
            exact misplaced line here rfl
          have earlier : i < line.codePoint :=
            Nat.lt_of_le_of_ne (file.le_codePoint here) (Ne.symm apart)
          have alone : Misplaced lines i := by
            intro other there
            rw [← Option.some.inj (here.symm.trans there)]
            exact apart
          have narrow := ih i earlier (Nat.lt_trans earlier small) alone
          have mark := (shown line member).2
          rw [loaded.mark _ small, Option.some.injEq] at mark
          rw [narrowAt, here] at narrow
          exact mark.trans narrow
        · have exact : (UInt16.ofNat p).toNat = p := UInt16.toNat_ofNat_of_lt small
          have unmarked := holds.unmarked (UInt16.ofNat p)
          rw [getWidthmap_eq, exact] at unmarked
          have mark := loaded.mark p small
          rw [FontTables.mark, unmarked fun line member same => taken ⟨line, member, same⟩] at mark
          exact (Option.some.inj mark).symm
  have none : lines[lines.length]? = none := List.getElem?_eq_none (Nat.le_refl _)
  have last := wide lines.length few fun line here => by
    rw [none] at here
    cases here
  rw [narrowAt, none] at last
  simp at last

end Placement

/-- The buffer of the last turn is decoded, and sets no pixel. -/
def SetsNothing (fresh : List UInt8) : Prop :=
  ∃ data width, loadLine fresh (List.replicate 32 0) = some (data, width) ∧ Unset data

section Main

variable {lines : List GlyphLine} {malloc : LineBuffers}

/-- A file whose widths elsewhere are not looked at. -/
theorem loadFonts_holds_iff (file : FontFile lines) :
    (∃ font, loadFonts malloc (lines.flatMap GlyphLine.bytes) = some font ∧ font.Holds lines) ↔
      lines.length < 65536 ∧ SetsNothing (malloc.bytes lines.length) ∧
        ∀ i line, lines[i]? = some line → WellPlaced lines i line := by
  constructor
  · rintro ⟨font, loads, holds⟩
    obtain ⟨few, data, width, reads, loaded⟩ := loadFonts_some file loads
    obtain ⟨unset, placed⟩ := (loaded.holds_iff file few).mp holds
    exact ⟨few, ⟨data, width, reads, unset⟩, placed⟩
  · rintro ⟨few, ⟨data, width, reads, unset⟩, placed⟩
    obtain ⟨font, loads, loaded⟩ := loadFonts_loaded few reads
    exact ⟨font, loads, (loaded.holds_iff file few).mpr ⟨unset, placed⟩⟩

/-- No file is loaded with the right widths. -/
theorem loadFonts_not_holdsOnly (file : FontFile lines) :
    ¬ ∃ font, loadFonts malloc (lines.flatMap GlyphLine.bytes) = some font ∧
      font.HoldsOnly lines := by
  rintro ⟨font, loads, holds⟩
  obtain ⟨few, data, width, -, loaded⟩ := loadFonts_some file loads
  exact loaded.not_holdsOnly file few holds

/-- **Font files.** A file is loaded, but for the widths where it has no glyph, exactly
when it has fewer lines than there are entries, the buffer left for the last turn sets no
pixel and its lines are well placed. With those widths no file is. -/
theorem loadFonts_iff (malloc : LineBuffers) (lines : List GlyphLine) (file : FontFile lines) :
    ((∃ font, loadFonts malloc (lines.flatMap GlyphLine.bytes) = some font ∧ font.Holds lines) ↔
      lines.length < 65536 ∧ SetsNothing (malloc.bytes lines.length) ∧
        ∀ i line, lines[i]? = some line → WellPlaced lines i line) ∧
      ¬ ∃ font, loadFonts malloc (lines.flatMap GlyphLine.bytes) = some font ∧
        font.HoldsOnly lines :=
  ⟨loadFonts_holds_iff file, loadFonts_not_holdsOnly file⟩

end Main

/-- Buffers of zeros. -/
def zeroedBuffers : LineBuffers := ⟨fun _ => List.replicate 50 0, fun _ => List.length_replicate⟩

/-- The line of a glyph with a diagonal. -/
def diagonalLine (label : List UInt8) (named : HexLabel label) : GlyphLine :=
  ⟨label, ⟨8, fun x y => x == y, Or.inl rfl⟩, named⟩

theorem diagonalLine_file {label : List UInt8} (named : HexLabel label)
    (small : (diagonalLine label named).codePoint ≤ 0xFFFF) :
    FontFile [diagonalLine label named] :=
  ⟨List.pairwise_singleton _ _, fun line member => by
    rw [List.mem_singleton.mp member]
    exact small⟩

/-- The line of a diagonal for U+0000. -/
def nulLine : GlyphLine := diagonalLine (CString.ascii "0000") (.of_all (by decide) (by decide))

/-- The line of a diagonal for U+0041. -/
def letterLine : GlyphLine := diagonalLine (CString.ascii "0041") (.of_all (by decide) (by decide))

/-- The line of a diagonal for U+0001. -/
def headingLine : GlyphLine := diagonalLine (CString.ascii "0001") (.of_all (by decide) (by decide))

/-- A file with glyphs for U+0000 and U+0001 is loaded, but for the width of U+0002. -/
theorem loadFonts_two :
    (∃ font, loadFonts zeroedBuffers ([nulLine, headingLine].flatMap GlyphLine.bytes) =
        some font ∧ font.Holds [nulLine, headingLine]) ∧
    ¬ ∃ font, loadFonts zeroedBuffers ([nulLine, headingLine].flatMap GlyphLine.bytes) =
        some font ∧ font.HoldsOnly [nulLine, headingLine] := by
  have file : FontFile [nulLine, headingLine] := by
    refine ⟨List.pairwise_pair.mpr (by decide), ?_⟩
    exact List.forall_mem_cons.mpr ⟨by decide, List.forall_mem_singleton.mpr (by decide)⟩
  obtain ⟨loaded, never⟩ := loadFonts_iff zeroedBuffers [nulLine, headingLine] file
  refine ⟨loaded.mpr ⟨by decide, ⟨List.replicate 32 0, 0, by decide, ?_⟩, ?_⟩, never⟩
  · intro byte inside bit small
    exact Bits.bitAt_replicate inside bit
  · intro i line here
    match i, here with
    | 0, here =>
        cases here
        exact Or.inl (by decide)
    | 1, here =>
        cases here
        exact Or.inl (by decide)
    | i + 2, here => cases here

/-- The only glyph of a file, for U+0041, is not loaded there. -/
theorem loadFonts_gap :
    ¬ ∃ font, loadFonts zeroedBuffers ([letterLine].flatMap GlyphLine.bytes) = some font ∧
      font.Holds [letterLine] := by
  have file : FontFile [letterLine] := diagonalLine_file _ (by decide)
  rw [loadFonts_holds_iff file]
  rintro ⟨-, -, placed⟩
  obtain own | ⟨empty, -⟩ := placed 0 _ rfl
  · exact absurd own (by decide)
  · exact absurd (empty 0 0 (by decide) (by decide)) (by decide)

end Hackterm
