import Hackterm.Base64.Written
import Hackterm.Inline.Calls

/-! # The arrays that images are decoded into

A chunk of an image is decoded into 10240 bytes, and what stands behind the magic word
in the buffer into 4096 bytes (`Hackterm.decodeCall`). The first array is large enough
for every chunk of a read. The second one is large enough exactly where at most 5462
characters are decoded (`Hackterm.decodeFits_iff`).
-/

namespace Hackterm

open Streaming

/-- The text behind the magic word, where the chunk opens a transfer. -/
def openingText (st : InlineData) (data : List UInt8) : Option (List UInt8) :=
  let buffer := (st.buffer.pushAll data).contents
  (bufferSearch buffer inlineMagic).map fun pos => buffer.drop (pos + inlineMagic.length)

/-- The call of `base64_decode` that `inline_data_receive` makes: the storage of the decoder,
the text, and the size of the array that is written. -/
def decodeCall (st : InlineData) (data : List UInt8) : Option (Base64 × List UInt8 × Nat) :=
  if st.processingPng then
    if st.fileEnd then none else some (st.base64, data, 10240)
  else (openingText st data).map fun text => (base64Init st.base64, text, 4096)

/-- The call writes no more bytes than the array has. -/
def DecodeFits (stray : UInt8 → Int) (st : InlineData) (data : List UInt8) : Prop :=
  ∀ storage text size, decodeCall st data = some (storage, text, size) →
    (base64DecodeStray stray storage text).2.output.length ≤ size

/-- A call that is defined and fits. -/
def DecodeDefined (storage : Base64) (text : List UInt8) (size : Nat) : Prop :=
  (base64Decode storage text).any fun call => call.2.output.length ≤ size

/-- What follows a call of `base64_decode` is defined where the call is defined and fits. -/
theorem decodeBase64_isSome_iff {β : Type} (st : InlineData) (text : List UInt8) (size : Nat)
    (left : InlineData × Decoded → β) :
    ((st.decodeBase64 text).bind fun call =>
        if size < call.2.output.length then none else some (left call)).isSome ↔
      DecodeDefined st.base64 text size := by
  unfold DecodeDefined InlineData.decodeBase64
  cases base64Decode st.base64 text with
  | none => simp
  | some call =>
      by_cases overrun : size < call.2.output.length
      · simp [overrun]
      · simp [overrun, Nat.le_of_not_lt overrun]

theorem receiveImage_isSome_iff (png : Libpng) (st : InlineData) (data : List UInt8)
    (running : st.fileEnd = false) :
    (receiveImage png st data).isSome ↔ DecodeDefined st.base64 data 10240 := by
  rw [receiveImage_decodes png st data running]
  exact decodeBase64_isSome_iff st data 10240 _

theorem openImage_isSome_iff (png : Libpng) (st : InlineData) (pos : Nat) :
    (openImage png st pos).isSome ↔ DecodeDefined (base64Init st.base64)
      (st.buffer.contents.drop (pos + inlineMagic.length)) 4096 := by
  rw [openImage_decodes]
  exact decodeBase64_isSome_iff (initializePngReader png (st.setProcessingPng true).initBase64)
    _ 4096 _

/-- Receiving a chunk is defined where its call of `base64_decode` is defined and fits. -/
theorem inlineDataReceive_isSome_iff (png : Libpng) (st : InlineData) (data : List UInt8) :
    (inlineDataReceive png st data).isSome ↔
      ∀ storage text size, decodeCall st data = some (storage, text, size) →
        DecodeDefined storage text size := by
  unfold inlineDataReceive decodeCall openingText
  by_cases processing : st.processingPng
  · rw [if_pos processing, if_pos processing]
    cases running : st.fileEnd with
    | true => simp [receiveImage, running]
    | false => simp [receiveImage_isSome_iff png st data running]
  · rw [if_neg processing, if_neg processing]
    obtain ⟨font, same⟩ := receiveText_eq png st data
    rw [same]
    dsimp only
    cases bufferSearch (st.buffer.pushAll data).contents inlineMagic with
    | none => simp
    | some pos =>
        dsimp only
        rw [openImage_isSome_iff]
        simp [InlineData.bufferPush, InlineData.setFileEnd]

/-- After `base64_init`, a byte for every eight bits of the characters taken. -/
theorem base64DecodeStray_init_length (stray : UInt8 → Int) (st : Base64) (text : List UInt8) :
    (base64DecodeStray stray (base64Init st) text).2.output.length =
      6 * sixBitChars base64Table stray text / 8 := by
  have start : ((base64Init st).bitPos : Nat) = 0 := rfl
  rw [base64DecodeStray_length, start, Nat.zero_add, base64Init]

/-- **The arrays are large enough** for a chunk of a read exactly where a chunk that opens
a transfer leaves at most 5462 characters behind the magic word to decode. -/
theorem decodeFits_iff (stray : UInt8 → Int) (st : InlineData) (data : List UInt8)
    (read : data.length ≤ 10240) :
    DecodeFits stray st data ↔ ∀ text, st.processingPng = false → openingText st data = some text →
      sixBitChars base64Table stray text ≤ 5462 := by
  unfold DecodeFits decodeCall
  cases processing : st.processingPng with
  | true =>
      refine iff_of_true ?_ (by simp)
      intro storage text size call
      rw [if_pos rfl] at call
      split_ifs at call
      obtain ⟨rfl, rfl, rfl⟩ : storage = st.base64 ∧ text = data ∧ size = 10240 := by
        simpa [eq_comm] using call
      have taken := sixBitChars_le_length st.base64.lookup stray text
      have inside := st.base64.bitPos.isLt
      rw [base64DecodeStray_length]
      omega
  | false =>
      rw [if_neg Bool.false_ne_true]
      constructor
      · intro fits text _ opening
        have bound := fits _ text 4096 (by rw [opening, Option.map_some])
        rw [base64DecodeStray_init_length] at bound
        omega
      · intro short storage text size call
        obtain ⟨behind, opening, same⟩ := Option.map_eq_some_iff.mp call
        obtain ⟨rfl, rfl, rfl⟩ : storage = base64Init st.base64 ∧ text = behind ∧ size = 4096 := by
          simpa [eq_comm] using same
        have bound := short text rfl opening
        rw [base64DecodeStray_init_length]
        omega

theorem decodeFits_iff_opening :
    DecodeFits (fun _ => 0) inlineStatic (inlineMagic ++ CString.ascii "AAAA") ↔
      ∀ text, inlineStatic.processingPng = false →
        openingText inlineStatic (inlineMagic ++ CString.ascii "AAAA") = some text →
          sixBitChars base64Table (fun _ => 0) text ≤ 5462 :=
  decodeFits_iff _ inlineStatic _ (by decide)

/-- The first chunk of all opens a transfer where it begins with the magic word. -/
theorem openingText_first (text : List UInt8) (more : text ≠ [])
    (fits : inlineMagic.length + text.length ≤ bufferSize) :
    openingText inlineStatic (inlineMagic ++ text) = some text := by
  have buffered : (inlineStatic.buffer.pushAll (inlineMagic ++ text)).contents =
      inlineMagic ++ text := by
    rw [Window.pushAll_contents]
    exact rtake_of_length_le _ _ (by simpa [inlineStatic] using fits)
  have found : bufferSearch (inlineMagic ++ text) inlineMagic = some 0 :=
    bufferSearch_written [] inlineMagic text inlineMagic_unbordered
      (not_occurs_of_length_lt (by decide)) more
  rw [openingText, buffered, found, Option.map_some, Nat.zero_add, List.drop_left]

/-- Letters are taken. -/
theorem sixBitChars_replicate (stray : UInt8 → Int) (count : Nat) :
    sixBitChars base64Table stray (List.replicate count 0x41) = count := by
  have taken : goesOn base64Table stray 0x41 = true := rfl
  have counts : isBlank 0x41 = false := rfl
  induction count with
  | zero => rfl
  | succ count ih => rw [List.replicate_succ, sixBitChars_take _ counts taken, ih]

/-- 5463 letters behind the magic word of the first chunk are decoded into 4097 bytes. -/
theorem decodeFits_overrun :
    ¬ DecodeFits (fun _ => -1) inlineStatic (inlineMagic ++ List.replicate 5463 0x41) := by
  intro fits
  have present : List.replicate 5463 (0x41 : UInt8) ≠ [] :=
    List.ne_nil_of_length_pos (by rw [List.length_replicate]; exact Nat.succ_pos _)
  have opening := openingText_first _ present
    (by rw [length_inlineMagic, List.length_replicate, bufferSize]; omega)
  have call : decodeCall inlineStatic (inlineMagic ++ List.replicate 5463 0x41) =
      some (base64Init inlineStatic.base64, List.replicate 5463 0x41, 4096) := by
    rw [decodeCall, opening]
    rfl
  have bound := fits _ _ _ call
  rw [base64DecodeStray_init_length, sixBitChars_replicate] at bound
  omega

end Hackterm
