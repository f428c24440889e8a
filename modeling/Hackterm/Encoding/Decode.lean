import Hackterm.Codec.Sequences
import Mathlib.Data.Nat.Bitwise

/-! # The decoders of the terminal

A run of text is decoded by the encoding its first byte selects (`Hackterm.decodeText`): the
character set in use where the byte is below 0x80, and the UTF-8 decoder otherwise. The
UTF-8 decoders keep an unfinished sequence from one call to the next. Code points are
written to an array that has as many cells as the text has bytes, and writing more of them
is undefined.
-/

namespace BitFields

/-- Two bits hold nought. -/
scoped instance instNeZeroFour : NeZero 4 := ⟨Nat.succ_ne_zero 3⟩

/-- Four bits hold nought. -/
scoped instance instNeZeroSixteen : NeZero 16 := ⟨Nat.succ_ne_zero 15⟩

end BitFields

namespace Hackterm

/-- The encodings a character set can have. -/
inductive VTermEncoding where
  | utf8
  | decDrawing
  | uk
  | usascii
deriving DecidableEq

/-- A decoder goes on at a byte. -/
def VTermEncoding.takes : VTermEncoding → UInt8 → Bool
  | .utf8, c => 0x20 ≤ c
  | .usascii, c => 0x20 ≤ c && c < 0x80
  | .decDrawing, c | .uk, c => 0x20 ≤ c &&& 0x7F

/-- `vterm_lookup_encoding` for a set of 94 characters. -/
def vtermLookupEncoding (designation : UInt8) : Option VTermEncoding :=
  if designation = 0x30 then some .decDrawing
  else if designation = 0x41 then some .uk
  else if designation = 0x42 then some .usascii
  else none

/-- `UNICODE_INVALID`. -/
def unicodeInvalid : Nat := 0xFFFD

/-- `struct UTF8DecoderData`. -/
structure UTF8DecoderData where
  bytesRemaining : Nat
  bytesTotal : Nat
  thisCp : Nat
deriving DecidableEq

/-- `init_utf8`. -/
def initUtf8 (data : UTF8DecoderData) : UTF8DecoderData :=
  { data with bytesRemaining := 0, bytesTotal := 0 }

/-- The checks on a complete sequence: it is not overlong, no surrogate, and not one of the
two plain invalid code points. -/
def checkedCp (bytesTotal thisCp : Nat) : Nat :=
  let thisCp :=
    match bytesTotal with
    | 2 => if thisCp < 0x80 then unicodeInvalid else thisCp
    | 3 => if thisCp < 0x800 then unicodeInvalid else thisCp
    | 4 => if thisCp < 0x10000 then unicodeInvalid else thisCp
    | 5 => if thisCp < 0x200000 then unicodeInvalid else thisCp
    | 6 => if thisCp < 0x4000000 then unicodeInvalid else thisCp
    | _ => thisCp
  if 0xD800 ≤ thisCp ∧ thisCp ≤ 0xDFFF ∨ thisCp = 0xFFFE ∨ thisCp = 0xFFFF then unicodeInvalid
  else thisCp

/-- The code point for a sequence that is cut off. -/
def cutOff (data : UTF8DecoderData) : List Nat :=
  if data.bytesRemaining = 0 then [] else [unicodeInvalid]

/-- A byte that introduces a sequence of so many bytes. -/
def introduce (total value : Nat) (data : UTF8DecoderData) : UTF8DecoderData × List Nat :=
  (⟨total - 1, total, value⟩, cutOff data)

/-- A turn of the loop of `decode_utf8`, at a byte from 0x20 on. -/
def decodeUtf8 (data : UTF8DecoderData) (c : UInt8) : UTF8DecoderData × List Nat :=
  if c < 0x80 then ({ data with bytesRemaining := 0 }, cutOff data ++ [c.toNat])
  else if c < 0xC0 then
    if data.bytesRemaining = 0 then (data, [unicodeInvalid])
    else
      let thisCp := data.thisCp <<< 6 ||| (c.toNat &&& 0x3F)
      if data.bytesRemaining - 1 = 0 then
        let checked := checkedCp data.bytesTotal thisCp
        (⟨0, data.bytesTotal, checked⟩, [checked])
      else (⟨data.bytesRemaining - 1, data.bytesTotal, thisCp⟩, [])
  else if c < 0xE0 then introduce 2 (c.toNat &&& 0x1F) data
  else if c < 0xF0 then introduce 3 (c.toNat &&& 0x0F) data
  else if c < 0xF8 then introduce 4 (c.toNat &&& 0x07) data
  else if c < 0xFC then introduce 5 (c.toNat &&& 0x03) data
  else if c < 0xFE then introduce 6 (c.toNat &&& 0x01) data
  else (data, [unicodeInvalid])

/-- A turn of the loop of `decode_usascii`. -/
def decodeUsascii (data : UTF8DecoderData) (c : UInt8) : UTF8DecoderData × List Nat :=
  (data, [c.toNat])

/-- `encoding_DECdrawing`, from 0x60 on. -/
def encodingDecDrawing : List Nat :=
  [0x25C6, 0x2592, 0x2409, 0x240C, 0x240D, 0x240A, 0x00B0, 0x00B1, 0x2424, 0x240B, 0x2518, 0x2510,
    0x250C, 0x2514, 0x253C, 0x23BA, 0x23BB, 0x2500, 0x23BC, 0x23BD, 0x251C, 0x2524, 0x2534, 0x252C,
    0x2502, 0x2A7D, 0x2A7E, 0x03C0, 0x2260, 0x00A3, 0x00B7]

/-- `encoding_DECdrawing.chars`. -/
def decDrawingChars (c : Nat) : Nat := if 0x60 ≤ c then encodingDecDrawing.getD (c - 0x60) 0 else 0

/-- `encoding_uk.chars`. -/
def ukChars (c : Nat) : Nat := if c = 0x23 then 0xA3 else 0

/-- A turn of the loop of `decode_table`. -/
def decodeTable (chars : Nat → Nat) (data : UTF8DecoderData) (c : UInt8) :
    UTF8DecoderData × List Nat :=
  let c := (c &&& 0x7F).toNat
  (data, [if chars c = 0 then c else chars c])

/-- A turn of the loop of `enc->decode`. -/
def VTermEncoding.decodeByte : VTermEncoding → UTF8DecoderData → UInt8 →
    UTF8DecoderData × List Nat
  | .utf8 => decodeUtf8
  | .usascii => decodeUsascii
  | .decDrawing => decodeTable decDrawingChars
  | .uk => decodeTable ukChars

/-- `enc->decode`: the loop, which stops at a byte that the encoding does not take. It leaves
the data, the code points in their order, and how many bytes were eaten. -/
def VTermEncoding.decode (enc : VTermEncoding) : UTF8DecoderData → List UInt8 →
    UTF8DecoderData × List Nat × Nat
  | data, [] => (data, [], 0)
  | data, c :: rest =>
      if enc.takes c then
        let first := enc.decodeByte data c
        let later := enc.decode first.1 rest
        (later.1, first.2 ++ later.2.1, later.2.2 + 1)
      else (data, [], 0)

/-- `VTermEncodingInstance`. -/
structure VTermEncodingInstance where
  enc : VTermEncoding
  data : UTF8DecoderData
deriving DecidableEq

/-- The fields of `VTermState` that `on_text` decodes with. -/
structure Encodings where
  encoding : Fin 4 → VTermEncodingInstance
  encodingUtf8 : UTF8DecoderData
  glSet : Fin 4

namespace Encodings

/-- `encoding[set].data = data`. -/
def setData (set : Fin 4) (data : UTF8DecoderData) (encodings : Encodings) : Encodings :=
  { encodings with encoding := fun other =>
      if other = set then { encodings.encoding other with data := data }
      else encodings.encoding other }

/-- `encoding[set].enc = enc`, which is initialised if it has to be. -/
def setEncoding (set : Fin 4) (enc : VTermEncoding) (encodings : Encodings) : Encodings :=
  { encodings with encoding := fun other =>
      if other = set then
        ⟨enc, if enc = .utf8 then initUtf8 (encodings.encoding other).data
          else (encodings.encoding other).data⟩
      else encodings.encoding other }

/-- `gl_set = set`. -/
def setGl (set : Fin 4) (encodings : Encodings) : Encodings := { encodings with glSet := set }

/-- `on_control`, as far as it changes the character sets. -/
def control (control : UInt8) (encodings : Encodings) : Encodings :=
  if control = 0x0E then encodings.setGl 1
  else if control = 0x0F then encodings.setGl 0
  else encodings

/-- `SCS` in `on_escape`. -/
def designate (set : Fin 4) (designation : UInt8) (encodings : Encodings) : Encodings :=
  (vtermLookupEncoding designation).elim encodings fun newenc => encodings.setEncoding set newenc

/-- The character sets in `vterm_state_reset`. -/
def reset (defaultEnc : VTermEncoding) (encodings : Encodings) : Encodings :=
  { encodings with
    encoding := fun set => ⟨defaultEnc,
      if defaultEnc = .utf8 then initUtf8 (encodings.encoding set).data
      else (encodings.encoding set).data⟩
    glSet := 0 }

/-- `on_escape`, as far as it changes the character sets. -/
def escape (bytes : List UInt8) (encodings : Encodings) : Encodings :=
  match bytes with
  | [] => encodings
  | first :: rest =>
      if 0x28 ≤ first ∧ first ≤ 0x2B then
        match rest with
        | [designation] => encodings.designate (Fin.ofNat 4 (first.toNat - 0x28)) designation
        | _ => encodings
      else if first = 0x63 then encodings.reset .utf8
      else if first = 0x6E then encodings.setGl 2
      else if first = 0x6F then encodings.setGl 3
      else encodings

/-- The decoder that `on_text` uses for bytes that begin so. -/
def used (encodings : Encodings) (bytes : List UInt8) : VTermEncodingInstance :=
  if bytes.headD 0 &&& 0x80 = 0 then encodings.encoding encodings.glSet
  else ⟨.utf8, encodings.encodingUtf8⟩

end Encodings

/-- The decoders after `vterm_initialisation`, in memory that was zero. -/
def encodingsStart : Encodings := ⟨fun _ => ⟨.usascii, ⟨0, 0, 0⟩⟩, ⟨0, 0, 0⟩, 0⟩

/-- The decoding in `on_text`: the code points and how many bytes were eaten. -/
def decodeBytes (encodings : Encodings) (bytes : List UInt8) : Encodings × List Nat × Nat :=
  if bytes.headD 0 &&& 0x80 = 0 then
    let used := encodings.encoding encodings.glSet
    let result := used.enc.decode used.data bytes
    (encodings.setData encodings.glSet result.1, result.2)
  else
    let result := VTermEncoding.utf8.decode encodings.encodingUtf8 bytes
    ({ encodings with encodingUtf8 := result.1 }, result.2)

/-- The decoding with its array. More code points than bytes do not fit. -/
def decodeText (encodings : Encodings) (bytes : List UInt8) :
    Option (Encodings × List Nat × Nat) :=
  let decoded := decodeBytes encodings bytes
  if bytes.length < decoded.2.1.length then none else some decoded

/-- The machine that a decoder is, symbol by symbol. -/
def VTermEncoding.machine (enc : VTermEncoding) :
    Streaming.Transducer UTF8DecoderData UInt8 Nat := ⟨enc.decodeByte⟩

/-- The loop runs the machine over the bytes that the encoding takes. -/
theorem VTermEncoding.decode_eq (enc : VTermEncoding) (data : UTF8DecoderData)
    (bytes : List UInt8) :
    enc.decode data bytes =
      ((enc.machine.run data (bytes.takeWhile enc.takes)).1,
        (enc.machine.run data (bytes.takeWhile enc.takes)).2,
        (bytes.takeWhile enc.takes).length) := by
  induction bytes generalizing data with
  | nil => rfl
  | cons c rest ih =>
      rw [VTermEncoding.decode]
      split_ifs with taken
      · rw [List.takeWhile_cons_of_pos taken, enc.machine.run_cons, List.length_cons]
        dsimp only
        rw [ih]
        rfl
      · rw [List.takeWhile_cons_of_neg taken]
        rfl

theorem decodeText_eq_some_iff {encodings : Encodings} {bytes : List UInt8}
    {decoded : Encodings × List Nat × Nat} :
    decodeText encodings bytes = some decoded ↔
      decodeBytes encodings bytes = decoded ∧ decoded.2.1.length ≤ bytes.length := by
  unfold decodeText
  dsimp only
  rw [Option.ite_none_left_eq_some, Option.some.injEq, Nat.not_lt]
  constructor
  · rintro ⟨fits, rfl⟩
    exact ⟨rfl, fits⟩
  · rintro ⟨rfl, fits⟩
    exact ⟨fits, rfl⟩

/-- The code points that `on_text` writes, and the bytes it takes. -/
theorem decodeBytes_codepoints (encodings : Encodings) (bytes : List UInt8) :
    (decodeBytes encodings bytes).2 =
      (((encodings.used bytes).enc.machine.run (encodings.used bytes).data
          (bytes.takeWhile (encodings.used bytes).enc.takes)).2,
        (bytes.takeWhile (encodings.used bytes).enc.takes).length) := by
  unfold decodeBytes Encodings.used
  split_ifs <;>
    · dsimp only
      rw [VTermEncoding.decode_eq]

/-- No decoder takes a control. -/
theorem VTermEncoding.visible_of_takes {enc : VTermEncoding} {b : UInt8}
    (taken : enc.takes b = true) : 0x20 ≤ b := by
  cases enc with
  | utf8 => exact of_decide_eq_true taken
  | usascii => exact of_decide_eq_true (Bool.and_eq_true_iff.mp taken).1
  | decDrawing | uk => exact UInt8.le_trans (of_decide_eq_true taken) UInt8.and_le_left

theorem VTermEncoding.takes_del (encoding : VTermEncoding) : encoding.takes 0x7F = true := by
  cases encoding <;> decide

/-- Every encoding takes a byte below 0x80 that is no control. -/
theorem VTermEncoding.takes_ascii (encoding : VTermEncoding) (c : UInt8) (printable : 0x20 ≤ c)
    (ascii : c &&& 0x80 = 0) : encoding.takes c = true := by
  have below : ∀ c : Fin 256, UInt8.ofFin c &&& 0x80 = 0 →
      UInt8.ofFin c < 0x80 ∧ UInt8.ofFin c &&& 0x7F = UInt8.ofFin c := by
    decide +kernel
  obtain ⟨low, masked⟩ := below c.toFin ascii
  cases encoding with
  | utf8 => exact decide_eq_true printable
  | usascii => exact Bool.and_eq_true_iff.mpr ⟨decide_eq_true printable, decide_eq_true low⟩
  | decDrawing | uk =>
      apply decide_eq_true
      exact (congrArg (0x20 ≤ ·) masked).mpr printable

/-- The decoder of a text takes its first byte. -/
theorem Encodings.used_takes (encodings : Encodings) {c : UInt8} (rest : List UInt8)
    (printable : 0x20 ≤ c) : (encodings.used (c :: rest)).enc.takes c = true := by
  unfold Encodings.used
  rw [List.headD_cons]
  split_ifs with ascii
  · exact VTermEncoding.takes_ascii _ c printable ascii
  · exact decide_eq_true printable

end Hackterm
