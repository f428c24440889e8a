import Hackterm.Glyph.Drawing
import Hackterm.Bits.Packed
import Hackterm.CString.Memory

/-! # A line of the font file

A line of the font file is the code point of a character, a colon, and the rows of its
bitmap in hexadecimal digits, the leftmost pixel of four in the most significant bit.
`load_line` guesses the width from the length of the line and writes the pixels into a
bitmap of 16 columns, least significant bit first, in which a narrow glyph fills every
other byte. What `get_pixel` and `get_widthmap` read afterwards is the glyph
(`Hackterm.loadEntry_line`).
-/

namespace Hackterm

/-- `set_widthmap`. -/
def setWidthmap (widthmap : List UInt8) (p v : Nat) : Option (List UInt8) :=
  Bits.setBit widthmap (p / 8) (p % 8) (decide (v ≠ 1))

/-- `hex2dec`: a character is compared with each of the digits. Of any other nothing is
returned. -/
def hex2dec (h : UInt8) : Option Nat :=
  (CString.ascii "0123456789ABCDEF").findIdx? fun digit => h == digit

/-- `byte` and `bit` of `load_line`. -/
structure LineCursor where
  byte : Nat
  bit : Nat
deriving DecidableEq

/-- The cursor behind a bit. -/
def LineCursor.advance (width : Nat) (cursor : LineCursor) : LineCursor :=
  if cursor.bit + 1 = 8 then ⟨if width = 8 then cursor.byte + 1 + 1 else cursor.byte + 1, 0⟩
  else ⟨cursor.byte, cursor.bit + 1⟩

/-- The turn `n` of the inner loop of `load_line`, for a digit `v`. -/
def loadBit (width v : Nat) (state : List UInt8 × LineCursor) (n : Nat) :
    Option (List UInt8 × LineCursor) := do
  let data ← Bits.setBit state.1 state.2.byte state.2.bit (v.testBit (3 - n))
  some (data, state.2.advance width)

/-- The second loop of `load_line`. The memory from `pos` on is the second argument; what
stands behind it cannot be read. -/
def loadDigits (width : Nat) : List UInt8 → List UInt8 × LineCursor →
    Option (List UInt8 × LineCursor)
  | char :: next :: line, state =>
      if next = 0 then some state
      else do
        let v ← hex2dec char
        let state ← (List.range 4).foldlM (loadBit width v) state
        loadDigits width (next :: line) state
  | _, _ => none

/-- `load_line`: the bitmap of a `fontchar` afterwards, and the result. -/
def loadLine (line data : List UInt8) : Option (List UInt8 × Nat) := do
  let string ← CString.read line
  let width := if 60 < string.length then 16 else 8
  let pos ← line.findIdx? fun char => char == 0 || char == 0x3A
  let state ← loadDigits width (line.drop (pos + 1)) (data, ⟨0, 0⟩)
  some (state.1, if width = 16 then 1 else 0)

namespace FontTables

/-- The `fontchar` of a character. -/
def fontchar (font : FontTables) (n : Nat) : List UInt8 := (font.fontmap.drop (32 * n)).take 32

/-- The font with another `fontchar`. -/
def setFontchar (font : FontTables) (n : Nat) (data : List UInt8) : FontTables :=
  { font with
    fontmap := font.fontmap.take (32 * n) ++ (data ++ font.fontmap.drop (32 * n + 32)) }

end FontTables

/-- The tables as `load_fonts` allocates and clears them. -/
def clearedTables : FontTables := ⟨List.replicate (32 * 65536) 0, List.replicate (65536 / 8) 0⟩

/-- The body of the loop of `load_fonts`, with what is in `line`. -/
def loadEntry (line : List UInt8) (n : Nat) (font : FontTables) : Option FontTables := do
  let (data, width) ← loadLine line (font.fontchar n)
  let widthmap ← setWidthmap font.widthmap n width
  some { font.setFontchar n data with widthmap := widthmap }

/-- The digit for four pixels. -/
def hexPixels (first second third fourth : Bool) : UInt8 :=
  (CString.ascii "0123456789ABCDEF").getD
    (8 * first.toNat + 4 * second.toNat + 2 * third.toNat + fourth.toNat) 0

/-- The digits for pixels in the order of a line. -/
def hexSpelling : List Bool → List UInt8
  | first :: second :: third :: fourth :: pixels =>
      hexPixels first second third fourth :: hexSpelling pixels
  | _ => []

/-- A bitmap of 16 rows. -/
structure Bitmap where
  width : Nat
  pixel : Nat → Nat → Bool
  width_eq : width = 8 ∨ width = 16

/-- The pixels of a bitmap, row by row from the top and from left to right. -/
def Bitmap.pixels (bitmap : Bitmap) : List Bool :=
  (List.range (16 * bitmap.width)).map fun k => bitmap.pixel (k % bitmap.width) (k / bitmap.width)

/-- The code point of a character: from four to six hexadecimal digits. -/
structure HexLabel (label : List UInt8) : Prop where
  long : 4 ≤ label.length
  short : label.length ≤ 6
  digits : ∀ char ∈ label, char ∈ CString.ascii "0123456789ABCDEFabcdef"

theorem HexLabel.of_all {label : List UInt8} (length : 4 ≤ label.length ∧ label.length ≤ 6)
    (digits : label.all (CString.ascii "0123456789ABCDEFabcdef").contains = true) :
    HexLabel label :=
  ⟨length.1, length.2, fun char member =>
    List.contains_iff_mem.mp (List.all_eq_true.mp digits char member)⟩

/-- The line of a glyph. -/
def Bitmap.line (bitmap : Bitmap) (label : List UInt8) : List UInt8 :=
  label ++ 0x3A :: (hexSpelling bitmap.pixels ++ [0x0A])

/-- The tables have the pixels and the width of a bitmap for a character. -/
structure FontTables.Shows (font : FontTables) (p : UInt16) (bitmap : Bitmap) : Prop where
  pixel : ∀ x y : Nat, x < 16 → y < 16 →
    ∃ value, getPixel font p.toUInt32 x y = some value ∧
      (value ≠ 0 ↔ x < bitmap.width ∧ bitmap.pixel x y)
  narrow : getWidthmap font p = some (decide (bitmap.width = 8))

section Digits

variable {width : Nat}

/-- Where `load_line` writes the pixel `k` of a line. -/
def cursorAt (width k : Nat) : LineCursor := ⟨if width = 8 then 2 * (k / 8) else k / 8, k % 8⟩

theorem advance_cursorAt (width k : Nat) :
    (cursorAt width k).advance width = cursorAt width (k + 1) := by
  unfold LineCursor.advance cursorAt
  dsimp only
  split_ifs
  all_goals
    rw [LineCursor.mk.injEq]
    omega

/-- No two pixels are written to one place. -/
theorem cursorAt_injective {k l : Nat} (same : cursorAt width k = cursorAt width l) : k = l := by
  obtain ⟨byte, bit⟩ := LineCursor.mk.inj same
  split_ifs at byte
  all_goals omega

theorem cursorAt_bit (width k : Nat) : (cursorAt width k).bit < 8 := Nat.mod_lt k (by decide)

/-- Pixels written from the place of the pixel `k` on. -/
def writePixels (width : Nat) : List Bool → Nat → List UInt8 → Option (List UInt8)
  | [], _, data => some data
  | pixel :: pixels, k, data => do
      let data ← Bits.setBit data (cursorAt width k).byte (cursorAt width k).bit pixel
      writePixels width pixels (k + 1) data

/-- The bits of a digit are its pixels. -/
theorem testBit_pixels (first second third fourth : Bool) :
    (List.range 4).map
        ((8 * first.toNat + 4 * second.toNat + 2 * third.toNat + fourth.toNat).testBit <| 3 - ·) =
      [first, second, third, fourth] := by
  revert first second third fourth
  decide

theorem hex2dec_hexPixels (first second third fourth : Bool) :
    hex2dec (hexPixels first second third fourth) =
      some (8 * first.toNat + 4 * second.toNat + 2 * third.toNat + fourth.toNat) := by
  revert first second third fourth
  decide

theorem hexPixels_ne_zero (first second third fourth : Bool) :
    hexPixels first second third fourth ≠ 0 := by
  revert first second third fourth
  decide

/-- The inner loop writes the bits of a digit one after the other. -/
theorem foldlM_loadBit (v : Nat) (turns : List Nat) (data : List UInt8) (k : Nat) :
    turns.foldlM (loadBit width v) (data, cursorAt width k) =
      (writePixels width (turns.map (v.testBit <| 3 - ·)) k data).map
        fun data => (data, cursorAt width (k + turns.length)) := by
  induction turns generalizing data k with
  | nil => rfl
  | cons n turns ih =>
      rw [List.foldlM_cons, loadBit, List.map_cons, writePixels]
      cases Bits.setBit data (cursorAt width k).byte (cursorAt width k).bit (v.testBit (3 - n)) with
      | none => rfl
      | some written =>
          simp only [Option.bind_eq_bind, Option.bind_some]
          rw [advance_cursorAt, ih, List.length_cons, Nat.add_right_comm, Nat.add_assoc]

theorem writePixels_append (first second : List Bool) (k : Nat) (data : List UInt8) :
    writePixels width (first ++ second) k data =
      (writePixels width first k data).bind (writePixels width second (k + first.length)) := by
  induction first generalizing data k with
  | nil => rfl
  | cons pixel first ih =>
      rw [List.cons_append, writePixels, writePixels]
      cases Bits.setBit data (cursorAt width k).byte (cursorAt width k).bit pixel with
      | none => rfl
      | some written =>
          simp only [Option.bind_eq_bind, Option.bind_some]
          rw [ih, List.length_cons, Nat.add_right_comm, Nat.add_assoc]

/-- Before the end of a line there is no NUL. -/
theorem hexSpelling_head (pixels : List Bool) (rest : List UInt8) :
    ∃ next line, hexSpelling pixels ++ 0x0A :: rest = next :: line ∧ next ≠ 0 := by
  unfold hexSpelling
  split
  · exact ⟨_, _, rfl, hexPixels_ne_zero _ _ _ _⟩
  · exact ⟨_, _, rfl, by decide⟩

/-- The digits of a line are read back as the pixels they spell. -/
theorem loadDigits_hexSpelling {digits : Nat} {pixels : List Bool}
    (groups : pixels.length = 4 * digits) (rest data : List UInt8) (k : Nat) :
    loadDigits width (hexSpelling pixels ++ 0x0A :: 0 :: rest) (data, cursorAt width k) =
      (writePixels width pixels k data).map
        fun data => (data, cursorAt width (k + pixels.length)) := by
  induction digits generalizing pixels data k with
  | zero =>
      obtain rfl := List.eq_nil_of_length_eq_zero groups
      rfl
  | succ digits ih =>
      match pixels with
      | [] | [_] | [_, _] | [_, _, _] =>
          simp only [List.length_cons, List.length_nil] at groups
          omega
      | first :: second :: third :: fourth :: pixels =>
          have fewer : pixels.length = 4 * digits := by simpa [Nat.mul_succ] using groups
          have split : first :: second :: third :: fourth :: pixels =
              [first, second, third, fourth] ++ pixels := rfl
          obtain ⟨next, line, spelled, notNul⟩ := hexSpelling_head pixels (0 :: rest)
          rw [hexSpelling, List.cons_append, spelled, loadDigits, if_neg notNul, hex2dec_hexPixels,
            Option.bind_eq_bind, Option.bind_some, foldlM_loadBit, testBit_pixels, split,
            writePixels_append, ← spelled]
          cases writePixels width [first, second, third, fourth] k data with
          | none => rfl
          | some written =>
              simp only [Option.map_some, Option.bind_eq_bind, Option.bind_some]
              rw [List.length_range, ih fewer, List.length_append, Nat.add_assoc]
              rfl

/-- What the pixels of a line leave: each is at its place, and no other bit changes. -/
structure PixelsWritten (width : Nat) (pixels : List Bool) (k : Nat) (data written : List UInt8) :
    Prop where
  length : written.length = data.length
  pixel : ∀ i < pixels.length,
    Bits.bitAt written (cursorAt width (k + i)).byte (cursorAt width (k + i)).bit = pixels[i]?
  other : ∀ byte bit, (∀ i < pixels.length, cursorAt width (k + i) ≠ ⟨byte, bit⟩) →
    Bits.bitAt written byte bit = Bits.bitAt data byte bit

theorem writePixels_spec {pixels : List Bool} {k : Nat} {data : List UInt8}
    (inside : ∀ i < pixels.length, (cursorAt width (k + i)).byte < data.length) :
    ∃ written, writePixels width pixels k data = some written ∧
      PixelsWritten width pixels k data written := by
  induction pixels generalizing k data with
  | nil =>
      exact ⟨data, rfl, rfl, fun i small => absurd small (Nat.not_lt_zero i), fun _ _ _ => rfl⟩
  | cons pixel pixels ih =>
      have here : (cursorAt width k).byte < data.length := inside 0 (Nat.succ_pos _)
      have wrote := Bits.setBit_eq here (cursorAt width k).bit pixel
      obtain ⟨-, kept⟩ := Bits.setBit_inside wrote
      have changed := Bits.bitAt_setBit (cursorAt_bit width k) wrote
      rw [writePixels, wrote, Option.bind_eq_bind, Option.bind_some]
      generalize data.set (cursorAt width k).byte _ = first at kept changed ⊢
      have later : ∀ i < pixels.length, (cursorAt width (k + 1 + i)).byte < first.length := by
        intro i small
        rw [kept, Nat.add_right_comm, Nat.add_assoc]
        exact inside (i + 1) (Nat.succ_lt_succ small)
      obtain ⟨written, wrote, rest⟩ := ih later
      refine ⟨written, wrote, rest.length.trans kept, ?_, ?_⟩
      · intro i small
        cases i with
        | zero =>
            -- The pixels behind the first are written to other places.
            rw [Nat.add_zero, rest.other, changed, if_pos ⟨rfl, rfl⟩]
            · rfl
            · intro i _ same
              have := cursorAt_injective same
              omega
        | succ i =>
            have shifted : k + (i + 1) = k + 1 + i := by omega
            rw [shifted, rest.pixel i (Nat.lt_of_succ_lt_succ small)]
            rfl
      · intro byte bit apart
        rw [rest.other, changed, if_neg]
        · rintro ⟨rfl, rfl⟩
          exact apart 0 (Nat.succ_pos _) rfl
        · intro i small same
          apply apart (i + 1) (Nat.succ_lt_succ small)
          rw [← same, Nat.add_right_comm, Nat.add_assoc]

end Digits

section Line

variable {bitmap : Bitmap} {label : List UInt8}

theorem Bitmap.length_pixels (bitmap : Bitmap) : bitmap.pixels.length = 16 * bitmap.width := by
  rw [pixels, List.length_map, List.length_range]

theorem length_hexSpelling {digits : Nat} {pixels : List Bool}
    (groups : pixels.length = 4 * digits) : (hexSpelling pixels).length = digits := by
  induction digits generalizing pixels with
  | zero =>
      obtain rfl := List.eq_nil_of_length_eq_zero groups
      rfl
  | succ digits ih =>
      match pixels with
      | [] | [_] | [_, _] | [_, _, _] =>
          simp only [List.length_cons, List.length_nil] at groups
          omega
      | _ :: _ :: _ :: _ :: pixels =>
          have fewer : pixels.length = 4 * digits := by simpa [Nat.mul_succ] using groups
          rw [hexSpelling, List.length_cons, ih fewer]

theorem hexPixels_digit (first second third fourth : Bool) :
    hexPixels first second third fourth ∈ CString.ascii "0123456789ABCDEF" := by
  revert first second third fourth
  decide

theorem hexSpelling_digits (pixels : List Bool) :
    ∀ char ∈ hexSpelling pixels, char ∈ CString.ascii "0123456789ABCDEF" := by
  fun_induction hexSpelling pixels with
  | case1 first second third fourth pixels ih =>
      rw [List.forall_mem_cons]
      exact ⟨hexPixels_digit first second third fourth, ih⟩
  | case2 => exact fun char member => absurd member List.not_mem_nil

theorem HexLabel.no_nul (named : HexLabel label) : 0 ∉ label := fun member =>
  absurd (named.digits 0 member) (by decide)

theorem HexLabel.no_colon (named : HexLabel label) : 0x3A ∉ label := fun member =>
  absurd (named.digits 0x3A member) (by decide)

theorem Bitmap.line_no_nul (named : HexLabel label) (bitmap : Bitmap) : 0 ∉ bitmap.line label := by
  have digits : 0 ∉ hexSpelling bitmap.pixels := fun member =>
    absurd (hexSpelling_digits _ 0 member) (by decide)
  simp only [line, List.mem_append, List.mem_cons, List.not_mem_nil, or_false, not_or]
  exact ⟨named.no_nul, by decide, digits, by decide⟩

/-- A line is longer than 60 bytes exactly when its glyph is wide. -/
theorem Bitmap.length_line (named : HexLabel label) (bitmap : Bitmap) :
    (if 60 < (bitmap.line label).length then 16 else 8) = bitmap.width := by
  have digits : (hexSpelling bitmap.pixels).length = 4 * bitmap.width :=
    length_hexSpelling (by rw [bitmap.length_pixels]; omega)
  have long := named.long
  have short := named.short
  simp only [line, List.length_append, List.length_cons, List.length_nil, digits]
  obtain narrow | wide := bitmap.width_eq
  · rw [if_neg (by omega), narrow]
  · rw [if_pos (by omega), wide]

/-- The colon ends the label. -/
theorem findIdx_label (named : HexLabel label) (rest : List UInt8) :
    (label ++ 0x3A :: rest).findIdx? (fun char => char == 0 || char == 0x3A) =
      some label.length := by
  have clean : label.findIdx? (fun char => char == 0 || char == 0x3A) = none := by
    rw [List.findIdx?_eq_none_iff]
    intro char member
    rw [Bool.or_eq_false_iff, beq_eq_false_iff_ne, beq_eq_false_iff_ne]
    exact ⟨fun same => named.no_nul (same ▸ member), fun same => named.no_colon (same ▸ member)⟩
  rw [List.findIdx?_append, clean]
  simp [List.findIdx?_cons]

/-- **One line.** The pixels of its glyph are written, and the result tells its width. -/
theorem loadLine_line (named : HexLabel label) (bitmap : Bitmap) (rest : List UInt8)
    {data : List UInt8} (room : data.length = 32) :
    ∃ written, loadLine (bitmap.line label ++ 0 :: rest) data =
        some (written, if bitmap.width = 16 then 1 else 0) ∧
      PixelsWritten bitmap.width bitmap.pixels 0 data written := by
  have inside : ∀ i < bitmap.pixels.length,
      (cursorAt bitmap.width (0 + i)).byte < data.length := by
    intro i small
    rw [bitmap.length_pixels] at small
    rw [room, Nat.zero_add, cursorAt]
    obtain narrow | wide := bitmap.width_eq
    · rw [narrow] at small ⊢
      simp only [if_true]
      omega
    · rw [wide] at small ⊢
      simp only [show ¬ (16 = 8) by decide, if_false]
      omega
  obtain ⟨written, wrote, spec⟩ := writePixels_spec inside
  have spelled : bitmap.line label ++ 0 :: rest =
      label ++ 0x3A :: (hexSpelling bitmap.pixels ++ 0x0A :: 0 :: rest) := by
    simp [Bitmap.line]
  have groups : bitmap.pixels.length = 4 * (4 * bitmap.width) := by
    rw [bitmap.length_pixels]
    omega
  have start : (⟨0, 0⟩ : LineCursor) = cursorAt bitmap.width 0 := by
    simp [cursorAt]
  refine ⟨written, ?_, spec⟩
  rw [loadLine, CString.read_token (bitmap.line_no_nul named), spelled, findIdx_label named]
  simp only [Option.bind_eq_bind, Option.bind_some]
  rw [bitmap.length_line named, List.drop_length_add_append, List.drop_succ_cons, List.drop_zero,
    start, loadDigits_hexSpelling groups, wrote, Option.map_some, Option.bind_some]

end Line

section Tables

variable {font : FontTables} {n : Nat} {data : List UInt8}

theorem FontTables.length_fontchar (full : font.Full) (small : n < 65536) :
    (font.fontchar n).length = 32 := by
  rw [fontchar, List.length_take, List.length_drop, full.fontmap]
  omega

theorem FontTables.setFontchar_fontchar (full : font.Full) (small : n < 65536)
    (room : data.length = 32) : (font.setFontchar n data).fontchar n = data := by
  have front : (font.fontmap.take (32 * n)).length = 32 * n := by
    rw [List.length_take, full.fontmap]
    omega
  rw [fontchar, setFontchar]
  dsimp only
  rw [List.drop_left' front, List.take_left' room]

/-- Only the `fontchar` of the character changes. -/
theorem FontTables.setFontchar_other (full : font.Full) (small : n < 65536)
    (room : data.length = 32) {m : Nat} (other : m ≠ n) :
    (font.setFontchar n data).fontchar m = font.fontchar m := by
  apply List.ext_getElem?
  intro i
  unfold fontchar setFontchar
  dsimp only
  rw [List.getElem?_take, List.getElem?_take]
  split_ifs with inside
  · rw [List.getElem?_drop, List.getElem?_drop]
    obtain below | above := Nat.lt_or_gt_of_ne other
    · rw [List.getElem?_append_left, List.getElem?_take_of_lt]
      · omega
      · rw [List.length_take, full.fontmap]
        omega
    · have long : (font.fontmap.take (32 * n)).length = 32 * n := by
        rw [List.length_take, full.fontmap]
        omega
      rw [List.getElem?_append_right (by omega), List.getElem?_append_right (by omega),
        List.getElem?_drop, long, room]
      congr 1
      omega
  · rfl

theorem FontTables.setFontchar_full (full : font.Full) (small : n < 65536)
    (room : data.length = 32) : (font.setFontchar n data).fontmap.length = 32 * 65536 := by
  unfold setFontchar
  dsimp only
  rw [List.length_append, List.length_append, List.length_take, List.length_drop, full.fontmap,
    room]
  omega

theorem clearedTables_full : clearedTables.Full :=
  ⟨List.length_replicate, List.length_replicate⟩

theorem clearedTables_fontchar {n : Nat} (small : n < 65536) :
    clearedTables.fontchar n = List.replicate 32 0 := by
  rw [FontTables.fontchar, clearedTables, List.drop_replicate, List.take_replicate]
  congr 1
  omega

/-- A pixel is a bit of the `fontchar`. -/
theorem getPixel_fontchar (font : FontTables) (p : UInt16) {x y : Nat} (column : x < 16)
    (row : y < 16) :
    getPixel font p.toUInt32 x y =
      (Bits.bitAt (font.fontchar p.toNat) ((16 * y + x) / 8) ((16 * y + x) % 8)).map
        fun set => if set then 65535 else 0 := by
  have place : ((y : Int) * 16 + x).toNat = 16 * y + x := by omega
  have inside : (16 * y + x) / 8 < 32 := by omega
  unfold getPixel Bits.bitAt FontTables.fontchar
  rw [if_neg (by omega), if_neg (by omega), if_neg (by omega), if_neg (by omega)]
  dsimp only
  rw [place, List.getElem?_take_of_lt inside, List.getElem?_drop, UInt16.toNat_toUInt32,
    Option.map_map]
  rfl

theorem getWidthmap_eq (font : FontTables) (p : UInt16) :
    getWidthmap font p = Bits.bitAt font.widthmap (p.toNat / 8) (p.toNat % 8) := by
  unfold getWidthmap Bits.bitAt
  cases font.widthmap[p.toNat / 8]? with
  | none => rfl
  | some byte => rfl

/-- What a turn of the loop of `load_fonts` leaves: the entry of a character has the bitmap
and the width, and the other entries are as before. -/
structure EntryLoaded (n : Nat) (data : List UInt8) (narrow : Bool) (font after : FontTables) :
    Prop where
  full : after.Full
  glyph : after.fontchar n = data
  otherGlyph : ∀ m, m ≠ n → after.fontchar m = font.fontchar m
  narrow : Bits.bitAt after.widthmap (n / 8) (n % 8) = some narrow
  otherWidth : ∀ m, m ≠ n →
    Bits.bitAt after.widthmap (m / 8) (m % 8) = Bits.bitAt font.widthmap (m / 8) (m % 8)

theorem loadEntry_spec (full : font.Full) (small : n < 65536) {line : List UInt8} {width : Nat}
    (loaded : loadLine line (font.fontchar n) = some (data, width)) (room : data.length = 32) :
    ∃ after, loadEntry line n font = some after ∧
      EntryLoaded n data (decide (width ≠ 1)) font after := by
  have inside : n / 8 < font.widthmap.length := by
    rw [full.widthmap]
    omega
  have wrote := Bits.setBit_eq inside (n % 8) (decide (width ≠ 1))
  obtain ⟨-, kept⟩ := Bits.setBit_inside wrote
  have changed := Bits.bitAt_setBit (Nat.mod_lt n (by decide)) wrote
  rw [loadEntry, loaded, Option.bind_eq_bind, Option.bind_some]
  dsimp only
  rw [setWidthmap, wrote, Option.bind_eq_bind, Option.bind_some]
  generalize font.widthmap.set (n / 8) _ = widthmap at kept changed ⊢
  refine ⟨_, rfl, ⟨?_, ?_⟩, ?_, ?_, ?_, ?_⟩
  · exact FontTables.setFontchar_full full small room
  · exact kept.trans full.widthmap
  · exact FontTables.setFontchar_fontchar full small room
  · intro m other
    exact FontTables.setFontchar_other full small room other
  · rw [changed, if_pos ⟨rfl, rfl⟩]
  · intro m other
    rw [changed, if_neg]
    rintro ⟨byte, bit⟩
    omega

/-- The bits of a glyph that was written into a bitmap of zeros. -/
theorem PixelsWritten.bit {bitmap : Bitmap} {written : List UInt8}
    (spec : PixelsWritten bitmap.width bitmap.pixels 0 (List.replicate 32 0) written) {x y : Nat}
    (column : x < 16) (row : y < 16) :
    Bits.bitAt written ((16 * y + x) / 8) ((16 * y + x) % 8) =
      some (decide (x < bitmap.width) && bitmap.pixel x y) := by
  by_cases within : x < bitmap.width
  · have small : bitmap.width * y + x < bitmap.pixels.length := by
      rw [bitmap.length_pixels]
      obtain narrow | wide := bitmap.width_eq
      · rw [narrow] at within ⊢
        omega
      · rw [wide] at within ⊢
        omega
    have place : cursorAt bitmap.width (0 + (bitmap.width * y + x)) =
        ⟨(16 * y + x) / 8, (16 * y + x) % 8⟩ := by
      unfold cursorAt
      obtain narrow | wide := bitmap.width_eq
      · rw [narrow, if_pos rfl, LineCursor.mk.injEq]
        rw [narrow] at within
        omega
      · rw [wide, if_neg (by decide), LineCursor.mk.injEq]
        omega
    have written := spec.pixel _ small
    rw [place] at written
    have positive : 0 < bitmap.width := Nat.zero_lt_of_lt within
    rw [written, Bitmap.pixels, List.getElem?_map, List.getElem?_range (by
      rwa [bitmap.length_pixels] at small), Option.map_some, Nat.mul_add_mod,
      Nat.mod_eq_of_lt within, Nat.mul_add_div positive, Nat.div_eq_of_lt within, Nat.add_zero,
      decide_eq_true within, Bool.true_and]
  · -- A narrow glyph leaves every other byte alone.
    have narrow : bitmap.width = 8 := by
      obtain narrow | wide := bitmap.width_eq
      · exact narrow
      · omega
    rw [spec.other, Bits.bitAt_replicate (by omega), decide_eq_false within, Bool.false_and]
    intro i _ same
    rw [cursorAt, narrow, if_pos rfl, LineCursor.mk.injEq] at same
    omega

/-- A blank entry into which a glyph is written shows the glyph. -/
theorem EntryLoaded.shows {bitmap : Bitmap} {p : UInt16} {font after : FontTables}
    {written : List UInt8} {narrow : Bool}
    (loaded : EntryLoaded p.toNat written narrow font after)
    (spec : PixelsWritten bitmap.width bitmap.pixels 0 (List.replicate 32 0) written)
    (width : narrow = decide (bitmap.width = 8)) : after.Shows p bitmap where
  pixel x y column row := by
    rw [getPixel_fontchar after p column row, loaded.glyph, spec.bit column row, Option.map_some]
    refine ⟨_, rfl, ?_⟩
    by_cases set : x < bitmap.width ∧ bitmap.pixel x y
    · rw [decide_eq_true set.1, set.2]
      exact iff_of_true (by decide) ⟨set.1, rfl⟩
    · have unset : (decide (x < bitmap.width) && bitmap.pixel x y) = false := by
        rw [← Bool.not_eq_true, Bool.and_eq_true, decide_eq_true_iff]
        exact set
      rw [unset]
      exact iff_of_false (by decide) set
  narrow := by
    rw [getWidthmap_eq, loaded.narrow, width]

/-- **Glyph lines.** A line that is loaded into a blank entry leaves the glyph and its
width there, and the width of no other character changes. -/
theorem loadEntry_line (font : FontTables) (full : font.Full) (p : UInt16)
    (blank : font.fontchar p.toNat = List.replicate 32 0) (bitmap : Bitmap) (label : List UInt8)
    (named : HexLabel label) (rest : List UInt8) :
    ∃ after, loadEntry (bitmap.line label ++ 0 :: rest) p.toNat font = some after ∧
      after.Shows p bitmap ∧
      ∀ other, other ≠ p → getWidthmap after other = getWidthmap font other := by
  have room : (font.fontchar p.toNat).length = 32 := font.length_fontchar full p.toNat_lt
  obtain ⟨written, loaded, spec⟩ := loadLine_line named bitmap rest room
  obtain ⟨after, entry, changed⟩ := loadEntry_spec full p.toNat_lt loaded (spec.length.trans room)
  refine ⟨after, entry, ?_, ?_⟩
  · rw [blank] at spec
    apply changed.shows spec
    obtain narrow | wide := bitmap.width_eq
    · rw [narrow]
      rfl
    · rw [wide]
      rfl
  · intro other apart
    rw [getWidthmap_eq, getWidthmap_eq]
    apply changed.otherWidth
    intro same
    exact apart (UInt16.toNat_inj.mp same)

end Tables

/-- A narrow glyph with a diagonal, as the character U+0041. -/
theorem loadEntry_diagonal :
    ∃ after, loadEntry (Bitmap.line ⟨8, fun x y => x == y, Or.inl rfl⟩ (CString.ascii "0041") ++
        0 :: []) (0x41 : UInt16).toNat clearedTables = some after ∧
      after.Shows 0x41 ⟨8, fun x y => x == y, Or.inl rfl⟩ ∧
      ∀ other, other ≠ 0x41 → getWidthmap after other = getWidthmap clearedTables other :=
  loadEntry_line clearedTables clearedTables_full 0x41 (clearedTables_fontchar (by decide)) _
    (CString.ascii "0041") (.of_all (by decide) (by decide)) []

end Hackterm
