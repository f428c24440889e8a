import Hackterm.Nsdl.Line
import Hackterm.Nsdl.Paint

/-! # Painting the rows of an image

`info_callback` has palettes expanded to four channels and leaves all other images as
they are, and `row_callback` reads every pixel of eight bits as four bytes. So a pixel is
painted from its own bytes exactly in images that have four channels
(`Hackterm.paintsOwnBytes_iff`). Of a pixel of one bit it reads the bit before, so the
pixels of a row are painted as they are exactly when none is set
(`Hackterm.paintsBits_iff`).
-/

namespace Hackterm

/-- The colour types of PNG. -/
inductive ColorType where
  | gray
  | grayAlpha
  | rgb
  | rgbAlpha
  | palette
deriving DecidableEq

/-- The channels of a colour type. -/
def ColorType.channels : ColorType → Nat
  | .gray | .palette => 1
  | .grayAlpha => 2
  | .rgb => 3
  | .rgbAlpha => 4

/-- What is known of an image before its rows: `num_trans` is the number of entries of a
palette with an alpha value. -/
structure PngHeader where
  width : Nat
  bitDepth : Nat
  colorType : ColorType
  numTrans : Nat

/-- The colour type once `PNG_EXPAND` is applied. -/
def ColorType.expand (numTrans : Nat) : ColorType → ColorType
  | .palette | .rgb => if 0 < numTrans then .rgbAlpha else .rgb
  | .gray => if 0 < numTrans then .grayAlpha else .gray
  | .grayAlpha => .grayAlpha
  | .rgbAlpha => .rgbAlpha

/-- `png_read_transform_info`, with `PNG_EXPAND` and `PNG_FILLER`: the channels and the bit
depth of the rows. -/
def readTransformInfo (header : PngHeader) : Nat × Nat :=
  let colorType := header.colorType.expand header.numTrans
  let bitDepth :=
    if header.colorType = .palette ∨ header.bitDepth < 8 then 8 else header.bitDepth
  let channels := colorType.channels
  (if colorType = .rgb ∨ colorType = .gray then channels + 1 else channels, bitDepth)

/-- `PNG_ROWBYTES`. -/
def pngRowbytes (pixelBits width : Nat) : Nat :=
  if 8 ≤ pixelBits then width * (pixelBits / 8) else (width * pixelBits + 7) / 8

/-- `width` and `pixel_depth`, and the channels and the size of the rows that
`row_callback` gets. -/
structure ImageRows where
  width : Nat
  pixelDepth : Nat
  channels : Nat
  rowbytes : Nat

/-- `info_callback`. -/
def infoCallback (header : PngHeader) : ImageRows :=
  if header.colorType = .palette then
    let (channels, bitDepth) := readTransformInfo header
    ⟨header.width, 8, channels, pngRowbytes (channels * bitDepth) header.width⟩
  else
    let channels := header.colorType.channels
    ⟨header.width, header.bitDepth, channels,
      pngRowbytes (channels * header.bitDepth) header.width⟩

/-- Four bytes as a `uint32_t`, the lowest first. -/
def load32 (row : List UInt8) (offset : Nat) : Option UInt32 := do
  let first ← row[offset]?
  let second ← row[offset + 1]?
  let third ← row[offset + 2]?
  let fourth ← row[offset + 3]?
  some (first.toUInt32 ||| second.toUInt32 <<< 8 ||| third.toUInt32 <<< 16 |||
    fourth.toUInt32 <<< 24)

/-- `inlineget_pixel`. The loop over the bits of a pixel turns once. Reading behind the row
is undefined, and for another depth nothing is returned. -/
def inlinegetPixel (row : List UInt8) (pixelDepth idx : Nat) : Option UInt32 :=
  if pixelDepth = 1 then
    let pos := pixelDepth * idx
    let byte := pos / 8
    let bit := pos - pos / 8 * 8
    row[byte]?.map fun stored => if stored.toNat.testBit (8 - bit) then 1 else 0
  else if pixelDepth = 8 then load32 row (4 * idx)
  else none

/-- The value that `row_callback` draws in a column. -/
def rowPixel (newRow : List UInt8) (pixelDepth n : Nat) : Option UInt32 :=
  (inlinegetPixel newRow pixelDepth n).map fun pixel =>
    if pixelDepth = 1 ∧ pixel ≠ 0 then 0xFFFFFFFF else pixel

/-- The loop of `row_callback`. -/
def rowCallback (rows : ImageRows) (newRow : List UInt8) (rowNum : Nat) (layer : Surface) :
    Option Surface :=
  (List.range rows.width).foldlM
    (fun layer n => (rowPixel newRow rows.pixelDepth n).map (nsdlPointS layer n rowNum)) layer

/-- The rows are painted from their own bytes: the value drawn in a column is read inside
the row, and is the same in all rows that have the bytes of that pixel. -/
def PaintsOwnBytes (rows : ImageRows) : Prop :=
  ∀ newRow : List UInt8, newRow.length = rows.rowbytes → ∀ n < rows.width,
    ∃ value, rowPixel newRow rows.pixelDepth n = some value ∧
      ∀ other : List UInt8, other.length = rows.rowbytes →
        (∀ i, rows.channels * n ≤ i → i < rows.channels * n + rows.channels →
          other[i]? = newRow[i]?) →
        rowPixel other rows.pixelDepth n = some value

/-- The bit of a pixel in a packed row. -/
def pixelBit (row : List UInt8) (i : Nat) : Bool :=
  (row[i / 8]?.getD 0).toNat.testBit (7 - i % 8)

/-- What is painted of a row of the given values. -/
def imageRowPaint (width rowNum : Nat) (values : Nat → UInt32) : Paint := fun pX pY =>
  if (0 ≤ pX ∧ pX < width) ∧ pY = rowNum then some (values pX.toNat) else none

/-- The pixels of a packed row are read, and painted on every layer, as they are. -/
structure PaintsBits (width : Nat) (row : List UInt8) : Prop where
  value : ∀ i < width, inlinegetPixel row 1 i = some (if pixelBit row i then 1 else 0)
  paints : ∀ (rows : ImageRows) (rowNum : Nat) (layer : Surface), rows.width = width →
    rows.pixelDepth = 1 → ∃ after, rowCallback rows row rowNum layer = some after ∧
      Painted layer after
        (imageRowPaint width rowNum fun i => if pixelBit row i then 0xFFFFFFFF else 0)

/-- No pixel of the packed rows of a width depends on another pixel's bit. -/
def BitsApart (width : Nat) : Prop :=
  ∀ row other : List UInt8, width ≤ 8 * row.length → width ≤ 8 * other.length →
    ∀ i < width, pixelBit row i = pixelBit other i →
      inlinegetPixel row 1 i = inlinegetPixel other 1 i

section Channels

/-- The channels of the rows of eight bits that `row_callback` gets. -/
def ColorType.rowChannels : ColorType → Nat
  | .palette => 4
  | colorType => colorType.channels

/-- Images with an alpha value and colours and those with a palette have four channels, and
the others fewer. -/
theorem ColorType.rowChannels_bounds (colorType : ColorType) :
    0 < colorType.rowChannels ∧ colorType.rowChannels ≤ 4 ∧
      (colorType.rowChannels = 4 ↔ colorType = .rgbAlpha ∨ colorType = .palette) := by
  cases colorType
  all_goals decide

theorem pngRowbytes_eight {channels : Nat} (positive : 0 < channels) (width : Nat) :
    pngRowbytes (channels * 8) width = width * channels := by
  have deep : 8 ≤ channels * 8 := by omega
  rw [pngRowbytes, if_pos deep, Nat.mul_div_cancel _ (by decide)]

/-- An expanded palette has four channels, with the alpha values or with the filler. -/
theorem readTransformInfo_palette (width bitDepth numTrans : Nat) :
    readTransformInfo ⟨width, bitDepth, .palette, numTrans⟩ = (4, 8) := by
  unfold readTransformInfo ColorType.expand
  dsimp only
  by_cases alpha : 0 < numTrans
  · rw [if_pos alpha]
    rfl
  · rw [if_neg alpha]
    rfl

theorem ColorType.channels_eq {colorType : ColorType} (notPalette : colorType ≠ .palette) :
    colorType.channels = colorType.rowChannels := by
  cases colorType
  all_goals first | rfl | exact absurd rfl notPalette

/-- The rows of an image of eight bits. -/
theorem infoCallback_eight (header : PngHeader) (depth : header.bitDepth = 8) :
    infoCallback header =
      ⟨header.width, 8, header.colorType.rowChannels,
        header.width * header.colorType.rowChannels⟩ := by
  by_cases palette : header.colorType = .palette
  · have info : readTransformInfo header = (4, 8) := by
      rw [readTransformInfo, palette]
      exact readTransformInfo_palette header.width header.bitDepth header.numTrans
    rw [infoCallback, if_pos palette, info, palette]
    dsimp only
    rw [pngRowbytes_eight (by decide)]
    rfl
  · rw [infoCallback, if_neg palette]
    dsimp only
    rw [depth, header.colorType.channels_eq palette,
      pngRowbytes_eight header.colorType.rowChannels_bounds.1]

theorem rowPixel_eight (row : List UInt8) (n : Nat) : rowPixel row 8 n = load32 row (4 * n) := by
  have deep : ¬ (8 = 1) := by decide
  have upright : ∀ pixel : UInt32, (if 8 = 1 ∧ pixel ≠ 0 then 0xFFFFFFFF else pixel) = pixel :=
    fun pixel => if_neg fun both => deep both.1
  rw [rowPixel, inlinegetPixel, if_neg deep, if_pos rfl]
  simp only [upright, Option.map_id']

/-- A load inside the row is defined. -/
theorem load32_isSome {row : List UInt8} {offset : Nat} (inside : offset + 4 ≤ row.length) :
    (load32 row offset).isSome := by
  rw [load32, List.getElem?_eq_getElem (by omega), List.getElem?_eq_getElem (by omega),
    List.getElem?_eq_getElem (by omega), List.getElem?_eq_getElem (by omega)]
  rfl

/-- A load that is defined is inside the row. -/
theorem load32_inside {row : List UInt8} {offset : Nat} {value : UInt32}
    (loaded : load32 row offset = some value) : offset + 4 ≤ row.length := by
  simp only [load32, Option.bind_eq_bind, Option.bind_eq_some_iff] at loaded
  obtain ⟨_, -, _, -, _, -, _, last, -⟩ := loaded
  have inside := (List.getElem?_eq_some_iff.mp last).1
  omega

theorem load32_congr {row other : List UInt8} {offset : Nat}
    (same : ∀ i, offset ≤ i → i < offset + 4 → other[i]? = row[i]?) :
    load32 other offset = load32 row offset := by
  rw [load32, load32, same offset (by omega) (by omega), same (offset + 1) (by omega) (by omega),
    same (offset + 2) (by omega) (by omega), same (offset + 3) (by omega) (by omega)]

/-- The last of the four bytes counts. -/
theorem load32_set_ne {length : Nat} (long : 4 ≤ length) :
    load32 ((List.replicate length 0).set 3 1) 0 ≠ load32 (List.replicate length 0) 0 := by
  have zero : ∀ i < 3, ((List.replicate length (0 : UInt8)).set 3 1)[i]? = some 0 := by
    intro i small
    rw [List.getElem?_set_ne (by omega), List.getElem?_replicate_of_lt (by omega)]
  have one : ((List.replicate length (0 : UInt8)).set 3 1)[0 + 3]? = some 1 := by
    rw [List.getElem?_set_self (by rw [List.length_replicate]; omega)]
  rw [load32, load32, zero 0 (by decide), zero (0 + 1) (by decide), zero (0 + 2) (by decide), one,
    List.getElem?_replicate_of_lt (by omega), List.getElem?_replicate_of_lt (by omega),
    List.getElem?_replicate_of_lt (by omega), List.getElem?_replicate_of_lt (by omega)]
  decide

/-- **Channels.** Images of eight bits are painted from their own bytes exactly when they
have no column or four channels, as have those with an alpha value and colours and those
with a palette. -/
theorem paintsOwnBytes_iff (header : PngHeader) (depth : header.bitDepth = 8) :
    PaintsOwnBytes (infoCallback header) ↔
      header.width = 0 ∨ header.colorType = .rgbAlpha ∨ header.colorType = .palette := by
  obtain ⟨positive, most, four⟩ := header.colorType.rowChannels_bounds
  rw [← four, infoCallback_eight header depth, PaintsOwnBytes]
  simp only [rowPixel_eight]
  generalize header.colorType.rowChannels = channels at positive most
  constructor
  · intro own
    by_contra neither
    obtain ⟨columns, fewer⟩ := not_or.mp neither
    obtain ⟨value, loaded, alone⟩ :=
      own (List.replicate (header.width * channels) 0) List.length_replicate 0
        (Nat.pos_of_ne_zero columns)
    have long := load32_inside loaded
    rw [List.length_replicate] at long
    -- The fourth byte read for the first pixel is not its own.
    have changed := alone ((List.replicate (header.width * channels) 0).set 3 1)
      (by rw [List.length_set, List.length_replicate]) (by
        intro i _ small
        rw [List.getElem?_set_ne (by omega)])
    exact load32_set_ne (by omega) (changed.trans loaded.symm)
  · intro cases newRow size n inside
    obtain empty | rfl := cases
    · omega
    · obtain ⟨value, loaded⟩ := Option.isSome_iff_exists.mp
        (load32_isSome (show 4 * n + 4 ≤ newRow.length by omega))
      refine ⟨value, loaded, fun other _ same => ?_⟩
      rw [load32_congr same, loaded]

/-- Images with an alpha value and colours are painted from their own bytes. -/
theorem paintsOwnBytes_rgbAlpha : PaintsOwnBytes (infoCallback ⟨640, 8, .rgbAlpha, 0⟩) :=
  (paintsOwnBytes_iff ⟨640, 8, .rgbAlpha, 0⟩ rfl).mpr (Or.inr (Or.inl rfl))

/-- In an image of one gray column, bytes behind the row are read. -/
theorem paintsOwnBytes_gray : ¬ PaintsOwnBytes (infoCallback ⟨1, 8, .gray, 0⟩) := by
  intro own
  obtain ⟨value, loaded, -⟩ := own [0] rfl 0 (by decide)
  cases loaded

end Channels

section Bits

variable {width : Nat} {row : List UInt8}

/-- The bit that is read for a pixel: that of the pixel before in its byte. -/
theorem inlinegetPixel_one {i : Nat} (inside : i < 8 * row.length) :
    inlinegetPixel row 1 i =
      some (if i % 8 ≠ 0 ∧ pixelBit row (i - 1) then 1 else 0) := by
  have byte : i / 8 < row.length := by omega
  rw [inlinegetPixel, if_pos rfl]
  dsimp only
  rw [Nat.one_mul, List.getElem?_eq_getElem byte, Option.map_some, Option.some.injEq]
  by_cases first : i % 8 = 0
  · have offset : 8 - (i - i / 8 * 8) = 8 := by omega
    have small : row[i / 8].toNat.testBit 8 = false :=
      Nat.testBit_lt_two_pow row[i / 8].toNat_lt
    rw [offset, small, if_neg Bool.false_ne_true, if_neg fun both => both.1 first]
  · have offset : 8 - (i - i / 8 * 8) = 7 - (i - 1) % 8 := by omega
    have same : (i - 1) / 8 = i / 8 := by omega
    rw [offset, pixelBit, same, List.getElem?_eq_getElem byte, Option.getD_some]
    exact if_congr (and_iff_right first).symm rfl rfl

theorem rowPixel_one {i : Nat} {set : Bool}
    (value : inlinegetPixel row 1 i = some (if set then 1 else 0)) :
    rowPixel row 1 i = some (if set then 0xFFFFFFFF else 0) := by
  rw [rowPixel, value, Option.map_some]
  cases set with
  | true => rfl
  | false => rfl

/-- The loop of `row_callback` paints the values it reads. -/
theorem rowCallback_painted {rows : ImageRows} {values : Nat → UInt32}
    (reads : ∀ n < rows.width, rowPixel row rows.pixelDepth n = some (values n)) (rowNum : Nat)
    (layer : Surface) :
    ∃ after, rowCallback rows row rowNum layer = some after ∧
      Painted layer after (imageRowPaint rows.width rowNum values) := by
  have turns : ∀ layer, ∀ n ∈ List.range rows.width, ∃ next,
      (rowPixel row rows.pixelDepth n).map (nsdlPointS layer n rowNum) = some next ∧
        Painted layer next (pointPaint n rowNum (values n)) := by
    intro layer n member
    rw [reads n (List.mem_range.mp member)]
    exact ⟨_, rfl, plot_painted layer n rowNum (values n)⟩
  obtain ⟨after, drawn, painted⟩ := foldlM_painted layer fun state _ => turns state
  refine ⟨after, drawn, ?_⟩
  have same : paintAll (fun n : Nat => pointPaint n rowNum (values n)) (List.range rows.width) =
      imageRowPaint rows.width rowNum values := by
    funext pX pY
    have unique : ∀ n : Nat, (pointPaint n rowNum (values n) pX pY).isSome → n = pX.toNat := by
      intro n painted
      have column := (pointPaint_isSome.mp painted).1
      omega
    rw [paintAll_of_unique unique, imageRowPaint, pointPaint, ← ite_and]
    apply if_congr _ rfl rfl
    rw [List.mem_range]
    omega
  rw [← same]
  exact painted

/-- A row is painted as it is once its pixels are read as they are. -/
theorem paintsBits_of_value
    (value : ∀ i < width, inlinegetPixel row 1 i = some (if pixelBit row i then 1 else 0)) :
    PaintsBits width row where
  value := value
  paints rows rowNum layer columns depth := by
    subst columns
    apply rowCallback_painted
    intro n inside
    rw [depth]
    exact rowPixel_one (value n inside)

/-- The pixels of a row are read as they are exactly when none is set. -/
theorem value_iff (long : width ≤ 8 * row.length) :
    (∀ i < width, inlinegetPixel row 1 i = some (if pixelBit row i then 1 else 0)) ↔
      ∀ i < width, pixelBit row i = false := by
  constructor
  · intro value i
    induction i with
    | zero =>
        intro inside
        have first := value 0 inside
        rw [inlinegetPixel_one (by omega), if_neg fun both => both.1 rfl, Option.some.injEq] at first
        by_contra set
        rw [Bool.not_eq_false] at set
        rw [set, if_pos rfl] at first
        exact absurd first (by decide)
    | succ i ih =>
        intro inside
        have read := value (i + 1) inside
        have before : ¬ ((i + 1) % 8 ≠ 0 ∧ pixelBit row (i + 1 - 1) = true) := by
          rintro ⟨-, set⟩
          rw [Nat.add_sub_cancel, ih (Nat.lt_of_succ_lt inside)] at set
          cases set
        rw [inlinegetPixel_one (by omega), if_neg before, Option.some.injEq] at read
        by_contra set
        rw [Bool.not_eq_false] at set
        rw [set, if_pos rfl] at read
        exact absurd read (by decide)
  · intro unset i inside
    have before : ¬ (i % 8 ≠ 0 ∧ pixelBit row (i - 1) = true) := by
      rintro ⟨-, set⟩
      rw [unset (i - 1) (by omega)] at set
      cases set
    rw [inlinegetPixel_one (by omega), if_neg before, unset i inside,
      if_neg Bool.false_ne_true]

/-- In rows of more than one pixel the second depends on the first. -/
theorem bitsApart_iff : BitsApart width ↔ width ≤ 1 := by
  constructor
  · intro apart
    by_contra wide
    have second : ∀ (byte : UInt8) (rest : List UInt8), pixelBit (byte :: rest) 1 =
        byte.toNat.testBit 6 := fun byte rest => rfl
    have value := apart (0x80 :: List.replicate width 0) (0 :: List.replicate width 0)
      (by rw [List.length_cons, List.length_replicate]; omega)
      (by rw [List.length_cons, List.length_replicate]; omega) 1 (by omega) (by
        rw [second, second]
        decide)
    have first : ∀ (byte : UInt8) (rest : List UInt8), inlinegetPixel (byte :: rest) 1 1 =
        some (if byte.toNat.testBit 7 then 1 else 0) := fun byte rest => rfl
    rw [first, first] at value
    exact absurd value (by decide)
  · intro narrow row other long long' i inside _
    obtain rfl : i = 0 := by omega
    rw [inlinegetPixel_one (by omega), inlinegetPixel_one (by omega),
      if_neg fun both => both.1 rfl, if_neg fun both => both.1 rfl]

/-- **Packed rows.** The pixels of a packed row are read and painted as they are exactly
when none is set; and no pixel depends on another's bit only in rows of one pixel. -/
theorem paintsBits_iff (width : Nat) (row : List UInt8) (long : width ≤ 8 * row.length) :
    (PaintsBits width row ↔ ∀ i < width, pixelBit row i = false) ∧
      (BitsApart width ↔ width ≤ 1) := by
  refine ⟨?_, bitsApart_iff⟩
  rw [← value_iff long]
  constructor
  · intro paints
    exact paints.value
  · intro value
    exact paintsBits_of_value value

/-- A row of ten pixels, none of which is set, is painted as it is; but its pixels are read
from the bits of others. -/
theorem paintsBits_unset : PaintsBits 10 [0, 0] ∧ ¬ BitsApart 10 := by
  obtain ⟨paints, apart⟩ := paintsBits_iff 10 [0, 0] (by decide)
  exact ⟨paints.mpr (by decide), fun alone => absurd (apart.mp alone) (by decide)⟩

/-- Of a row whose first pixel only is set, the second is painted. -/
theorem paintsBits_first : ¬ PaintsBits 2 [0x80] := by
  intro paints
  exact absurd (paints.value 1 (by decide)) (by decide)

end Bits

end Hackterm
