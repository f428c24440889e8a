import Hackterm.Base64.Acceptance
import Hackterm.Inline.DecodeBuffer
import Hackterm.Inline.Metering
import Hackterm.Streaming.Run

/-! # The state of a transfer between calls

A transfer should be in progress exactly while a reader is allocated and its image has
not ended (`Hackterm.InlineData.Consistent`), and no reader should be allocated over
another one (`Hackterm.InlineData.Careful`). Both hold along a run exactly where what
ends a text and what ends its image agree (`Hackterm.consistent_iff_settles`).
-/

namespace Hackterm

open Streaming

/-- The calls of the program on the state of a transfer. -/
inductive InlineCall where
  | receive (data : List UInt8)
  | clear

/-- `inline_data_receive` and `inline_data_clear`, which clears the buffer and the layer. -/
def inlineCall (png : Libpng) (st : InlineData) : InlineCall → Option InlineData
  | .receive data => (inlineDataReceive png st data).map Prod.fst
  | .clear => some st.bufferClear

/-- A transfer is in progress exactly while a reader is allocated and the image has not
ended. -/
def InlineData.Consistent (st : InlineData) : Prop :=
  st.processingPng = true ↔ st.reader.isSome = true ∧ st.fileEnd = false

/-- The call does not enter `initialize_png_reader` while a reader is allocated. -/
def InlineData.Careful (st : InlineData) : InlineCall → Prop
  | .receive data =>
      st.processingPng = false → (openingText st data).isSome = true → st.reader = none
  | .clear => True

/-- What the reader makes of the bytes it is handed. -/
inductive PngOutcome where
  | goesOn
  | ended
  | failed
deriving DecidableEq

/-- The outcome of further bytes behind those already given. -/
def Libpng.outcome (png : Libpng) (given : List UInt8) : List UInt8 → PngOutcome
  | [] => .goesOn
  | byte :: data =>
      match png.callback given byte with
      | some .endCallback => .ended
      | some .longjmp => .failed
      | some .infoCallback | none => png.outcome (given ++ [byte]) data

/-- Whether a reader is still allocated, and whether the image has ended. -/
def PngOutcome.leaves : PngOutcome → Bool × Bool
  | .goesOn => (true, false)
  | .ended => (false, true)
  | .failed => (false, false)

/-- A call of `base64_decode` on the text is defined and its array is large enough. -/
def TextFits (pending : List Bool) (text : List UInt8) (size : Nat) : Prop :=
  (∀ c ∈ stopByte text, c < 0x80) ∧ (textOctets pending text).length ≤ size

/-- What ends the text and what ends the image agree. A reader that fails in the middle of
an image does so in a text that fails as well. No reader is left behind when a text is
searched for the magic word, and the text behind the word fails exactly when no reader
is left after it. -/
def InlineData.Settles (png : Libpng) (st : InlineData) : InlineCall → Prop
  | .receive data =>
      if st.processingPng then
        TextFits st.base64.pending data 10240 →
          png.outcome (st.reader.getD []) (textOctets st.base64.pending data) = .failed →
            TextFails data
      else
        st.reader = none ∧ ∀ text ∈ openingText st data, TextFits [] text 4096 →
          (TextFails text ↔ ¬ (png.createReadStruct st.finished.length = true ∧
            png.outcome [] (textOctets [] text) = .goesOn))
  | .clear => True

theorem pngProcessData_leaves (png : Libpng) (st : InlineData) (given data : List UInt8)
    (reader : st.reader = some given) (running : st.fileEnd = false) :
    ((pngProcessData png st data).reader.isSome, (pngProcessData png st data).fileEnd) =
      (png.outcome given data).leaves := by
  induction data generalizing st given with
  | nil =>
      rw [pngProcessData, reader, running]
      rfl
  | cons byte data ih =>
      rw [pngProcessData, reader, Libpng.outcome]
      dsimp only
      cases png.callback given byte with
      | none => exact ih _ _ rfl running
      | some callback =>
          cases callback with
          | infoCallback => exact ih _ _ rfl rfl
          | endCallback => rfl
          | longjmp => exact congrArg (Prod.mk false) running

/-- Bytes handed over leave a reader and an image as their outcome says. -/
theorem handOver_leaves (png : Libpng) (st : InlineData) (given data : List UInt8)
    (reader : st.reader = some given) (running : st.fileEnd = false) :
    ((handOver png st data).reader.isSome, (handOver png st data).fileEnd) =
      (png.outcome given data).leaves := by
  unfold handOver
  split
  · rename_i empty
    rw [reader, running, empty]
    rfl
  · unfold inlinepngProcessData
    dsimp only
    rw [reader, Option.isNone_some, if_neg Bool.false_ne_true]
    exact pngProcessData_leaves png _ given data rfl running

/-- Without a reader, no reader is left. -/
theorem handOver_unread (png : Libpng) (st : InlineData) (data : List UInt8)
    (absent : st.reader = none) : (handOver png st data).reader = none := by
  unfold handOver
  split
  · exact absent
  · unfold inlinepngProcessData
    dsimp only
    rw [absent, Option.isNone_none, if_pos rfl]
    rfl

/-- Handing over leaves the decoder and the flag of the transfer alone. -/
theorem handOver_frame (png : Libpng) (st : InlineData) (data : List UInt8) :
    (handOver png st data).base64 = st.base64 ∧
      (handOver png st data).processingPng = st.processingPng := by
  obtain ⟨base64, -, processing, -⟩ := handOver_spec png st data
  exact ⟨base64, processing⟩

/-- A call of `base64_decode` that is undefined, or that writes past its array. -/
theorem base64Decode_unfit (st : Base64) (table : st.lookup = base64Table) (text : List UInt8)
    (size : Nat) (unfit : ¬ TextFits st.pending text size) {next : Base64} {decoded : Decoded}
    (decodes : base64Decode st text = some (next, decoded)) : size < decoded.output.length := by
  by_cases low : ∀ c ∈ stopByte text, c < 0x80
  · obtain ⟨after, failflag, -, -, octets⟩ := base64Decode_octets st table text low
    obtain rfl := (Prod.mk.inj (Option.some.inj (decodes.symm.trans octets))).2
    exact Nat.lt_of_not_le fun fits => unfit ⟨low, fits⟩
  · obtain ⟨c, stop, high⟩ : ∃ c ∈ stopByte text, ¬ c < 0x80 := by simpa using low
    rw [base64Decode_outside st table text c stop (UInt8.not_lt.mp high)] at decodes
    cases decodes

/-- A chunk of an image leaves a consistent state unless its reader fails in a text that
does not. -/
theorem imageLeft_consistent (passed : InlineData) (decoded : Decoded) (outcome : PngOutcome)
    (processing : passed.processingPng = true)
    (leaves : (passed.reader.isSome, passed.fileEnd) = outcome.leaves)
    (unread : decoded.output = [] → outcome = .goesOn) :
    (imageLeft passed decoded).1.Consistent ↔ (outcome = .failed → decoded.failflag = true) := by
  obtain ⟨allocated, ended⟩ := Prod.mk.inj leaves
  unfold imageLeft InlineData.Consistent
  cases outcome with
  | goesOn =>
      cases decoded.failflag <;>
        simp [ended, allocated, processing, InlineData.setProcessingPng, InlineData.setFileEnd]
  | ended =>
      have present : decoded.output ≠ [] := by
        intro empty
        cases unread empty
      rw [if_pos ⟨present, ended⟩]
      simp [ended, InlineData.setProcessingPng]
  | failed =>
      cases decoded.failflag <;>
        simp [ended, allocated, processing, InlineData.setProcessingPng, InlineData.setFileEnd]

/-- The chunk that opens a transfer leaves a consistent state exactly where the text
fails without a reader left. -/
theorem openingLeft_consistent (passed : InlineData) (decoded : Decoded)
    (processing : passed.processingPng = true)
    (running : passed.reader.isSome = true → passed.fileEnd = false) :
    (openingLeft passed decoded).1.Consistent ↔
      (decoded.failflag = true ↔ passed.reader.isSome = false) := by
  unfold openingLeft InlineData.Consistent
  cases allocated : passed.reader.isSome with
  | false =>
      cases decoded.failflag <;>
        simp [allocated, processing, InlineData.setProcessingPng, InlineData.bufferClear]
  | true =>
      cases decoded.failflag <;>
        simp [allocated, processing, running allocated, InlineData.setProcessingPng,
          InlineData.bufferClear]

/-- A call that is defined leaves one state. -/
theorem forall_left_consistent (left : InlineData × Nat) :
    (∀ next code, some left = some (next, code) → next.Consistent) ↔ left.1.Consistent := by
  constructor
  · exact fun consistent => consistent left.1 left.2 rfl
  · intro consistent next code same
    obtain rfl := Option.some.inj same
    exact consistent

/-- A chunk of an image leaves a consistent state, if any, as the condition says. -/
theorem receiveImage_settles (png : Libpng) (st : InlineData) (data given : List UInt8)
    (table : st.base64.lookup = base64Table) (processing : st.processingPng = true)
    (reader : st.reader = some given) (running : st.fileEnd = false) :
    (∀ next code, receiveImage png st data = some (next, code) → next.Consistent) ↔
      (TextFits st.base64.pending data 10240 →
        png.outcome given (textOctets st.base64.pending data) = .failed → TextFails data) := by
  by_cases fits : TextFits st.base64.pending data 10240
  · have low := fits.1
    have room := fits.2
    obtain ⟨base64, failflag, -, fails, call⟩ :=
      base64Decode_octets st.base64 table data low
    have decodes : st.decodeBase64 data = some ({ st with base64 := base64 },
        ⟨textOctets st.base64.pending data, failflag⟩) := by
      rw [InlineData.decodeBase64, call]
      rfl
    have leaves := handOver_leaves png { st with base64 := base64 } given
      (textOctets st.base64.pending data) reader running
    have unread : textOctets st.base64.pending data = [] →
        png.outcome given (textOctets st.base64.pending data) = .goesOn := by
      intro empty
      rw [empty]
      rfl
    have kept := (handOver_frame png { st with base64 := base64 }
      (textOctets st.base64.pending data)).2.trans processing
    have settled := imageLeft_consistent _ ⟨_, failflag⟩ _ kept leaves unread
    rw [receiveImage_decodes png st data running, decodes, Option.bind_some,
      if_neg (Nat.not_lt.mpr room), ← fails]
    exact (forall_left_consistent _).trans (settled.trans (imp_iff_right fits).symm)
  · refine iff_of_true ?_ fun inside => absurd inside fits
    intro next code received
    obtain ⟨base64, decoded, decodes, room, -⟩ := receiveImage_received running received
    exact absurd room (Nat.not_le.mpr (base64Decode_unfit st.base64 table data 10240 fits decodes))

/-- A reader that may have been created takes the first bytes. -/
theorem handOver_opened (png : Libpng) (st : InlineData) (created : Bool) (data : List UInt8)
    (reader : st.reader = if created then some [] else none) (running : st.fileEnd = false) :
    ((handOver png st data).reader.isSome = true ↔
        created = true ∧ png.outcome [] data = .goesOn) ∧
      ((handOver png st data).reader.isSome = true → (handOver png st data).fileEnd = false) := by
  cases created with
  | false =>
      have unread := handOver_unread png st data reader
      simp [unread]
  | true =>
      obtain ⟨allocated, ended⟩ := Prod.mk.inj (handOver_leaves png st [] data reader running)
      rw [allocated, ended]
      cases png.outcome [] data with
      | goesOn => simp
      | ended => simp
      | failed => simp

/-- The chunk that opens a transfer leaves a consistent state, if any, as the condition
says. -/
theorem openImage_settles (png : Libpng) (st : InlineData) (pos : Nat) (text : List UInt8)
    (absent : st.reader = none) (running : st.fileEnd = false)
    (behind : st.buffer.contents.drop (pos + inlineMagic.length) = text) :
    (∀ next code, openImage png st pos = some (next, code) → next.Consistent) ↔
      (TextFits [] text 4096 →
        (TextFails text ↔ ¬ (png.createReadStruct st.finished.length = true ∧
          png.outcome [] (textOctets [] text) = .goesOn))) := by
  let opened := initializePngReader png (st.setProcessingPng true).initBase64
  have table : opened.base64.lookup = base64Table := rfl
  have reader : opened.reader = if png.createReadStruct st.finished.length then some [] else none := by
    simp [opened, initializePngReader, InlineData.initBase64, InlineData.setProcessingPng, absent]
  by_cases fits : TextFits [] text 4096
  · have low := fits.1
    have room := fits.2
    obtain ⟨base64, failflag, -, fails, call⟩ := base64Decode_octets opened.base64 table text low
    have decodes : opened.decodeBase64 text =
        some ({ opened with base64 := base64 }, ⟨textOctets [] text, failflag⟩) := by
      rw [InlineData.decodeBase64, call]
      rfl
    obtain ⟨left, goesOn⟩ := handOver_opened png { opened with base64 := base64 } _
      (textOctets [] text) reader running
    have kept := (handOver_frame png { opened with base64 := base64 } (textOctets [] text)).2
    have settled := openingLeft_consistent _ ⟨textOctets [] text, failflag⟩ kept goesOn
    rw [← Bool.not_eq_true, left, fails] at settled
    rw [openImage_decodes, behind, decodes, Option.bind_some, if_neg (Nat.not_lt.mpr room)]
    exact (forall_left_consistent _).trans (settled.trans (imp_iff_right fits).symm)
  · refine iff_of_true ?_ fun inside => absurd inside fits
    intro next code received
    obtain ⟨base64, decoded, decodes, room, -⟩ := openImage_opened received
    rw [behind] at decodes
    exact absurd room (Nat.not_le.mpr (base64Decode_unfit opened.base64 table text 4096 fits decodes))

/-- A chunk received while no image is leaves a consistent state, if any, as the condition
says. -/
theorem receiveText_settles (png : Libpng) (st : InlineData) (data : List UInt8)
    (idle : st.processingPng = false) (careful : st.Careful (.receive data)) :
    (∀ next code, receiveText png st data = some (next, code) → next.Consistent) ↔
      st.reader = none ∧ ∀ text ∈ openingText st data, TextFits [] text 4096 →
        (TextFails text ↔ ¬ (png.createReadStruct st.finished.length = true ∧
          png.outcome [] (textOctets [] text) = .goesOn)) := by
  obtain ⟨font, same⟩ := receiveText_eq png st data
  rw [same]
  cases found : bufferSearch (st.buffer.pushAll data).contents inlineMagic with
  | none =>
      have opening : openingText st data = none := by rw [openingText, found, Option.map_none]
      simp [opening, InlineData.Consistent, InlineData.setFileEnd, InlineData.bufferPush, idle]
  | some pos =>
      have opening : openingText st data = some
          ((st.buffer.pushAll data).contents.drop (pos + inlineMagic.length)) := by
        rw [openingText, found, Option.map_some]
      have absent : st.reader = none := careful idle (by rw [opening, Option.isSome_some])
      have settled := openImage_settles png
        { (st.setFileEnd false).bufferPush data with nunifont := font } pos _ absent rfl rfl
      dsimp only at settled ⊢
      rw [settled, opening]
      simp only [absent, Option.mem_some_iff, forall_eq', true_and]
      rfl

/-- A consistent state with the initialised table. -/
structure InlineData.Ideal (st : InlineData) : Prop where
  table : st.base64.lookup = base64Table
  consistent : st.Consistent

/-- While an image is being received, a consistent state has a reader for it. -/
theorem InlineData.Ideal.reading {st : InlineData} (ideal : st.Ideal)
    (processing : st.processingPng = true) :
    ∃ given, st.reader = some given ∧ st.fileEnd = false := by
  obtain ⟨allocated, running⟩ := ideal.consistent.mp processing
  obtain ⟨given, reader⟩ := Option.isSome_iff_exists.mp allocated
  exact ⟨given, reader, running⟩

theorem settles_image (png : Libpng) (st : InlineData) (data : List UInt8)
    (processing : st.processingPng = true) :
    st.Settles png (.receive data) ↔
      (TextFits st.base64.pending data 10240 →
        png.outcome (st.reader.getD []) (textOctets st.base64.pending data) = .failed →
          TextFails data) :=
  iff_of_eq (if_pos processing)

theorem settles_text (png : Libpng) (st : InlineData) (data : List UInt8)
    (idle : st.processingPng = false) :
    st.Settles png (.receive data) ↔
      st.reader = none ∧ ∀ text ∈ openingText st data, TextFits [] text 4096 →
        (TextFails text ↔ ¬ (png.createReadStruct st.finished.length = true ∧
          png.outcome [] (textOctets [] text) = .goesOn)) :=
  iff_of_eq (if_neg (Bool.not_eq_true _ ▸ idle))

theorem inlineDataReceive_settles (png : Libpng) (st : InlineData) (data : List UInt8)
    (ideal : st.Ideal) (careful : st.Careful (.receive data)) :
    (∀ next code, inlineDataReceive png st data = some (next, code) → next.Consistent) ↔
      st.Settles png (.receive data) := by
  unfold inlineDataReceive
  cases processing : st.processingPng with
  | true =>
      obtain ⟨given, reader, running⟩ := ideal.reading processing
      rw [if_pos rfl, settles_image png st data processing, reader, Option.getD_some]
      exact receiveImage_settles png st data given ideal.table processing reader running
  | false =>
      rw [if_neg Bool.false_ne_true, settles_text png st data processing]
      exact receiveText_settles png st data processing careful

/-- The table stays initialised. -/
theorem inlineDataReceive_table (png : Libpng) (st next : InlineData) (data : List UInt8)
    (code : Nat) (table : st.base64.lookup = base64Table)
    (received : inlineDataReceive png st data = some (next, code)) :
    next.base64.lookup = base64Table := by
  unfold inlineDataReceive at received
  split at received
  · rcases receiveImage_cases png st next data code received with ⟨-, rfl⟩ | ⟨_, decodes, -⟩
    · exact table
    · exact (base64Decode_bits _ _ table _ _ decodes).1
  · obtain ⟨font, same⟩ := receiveText_eq png st data
    rw [same] at received
    dsimp only at received
    split at received
    · obtain ⟨rfl, -⟩ := Prod.mk.inj (Option.some.inj received)
      exact table
    · obtain ⟨_, decodes, -⟩ := openImage_cases png _ next _ code received
      exact (base64Decode_bits _ _ rfl _ _ decodes).1

/-- **Consistency of transfers.** Along a run from the initial state, every state is
consistent and no reader is allocated over another one exactly where every call settles
its text and its image alike. -/
theorem consistent_iff_settles (png : Libpng) (calls : List InlineCall) :
    Throughout (inlineCall png) inlineStatic calls InlineData.Consistent ∧
        EveryCall (inlineCall png) inlineStatic calls InlineData.Careful ↔
      EveryCall (inlineCall png) inlineStatic calls (InlineData.Settles png) := by
  have cautious : ∀ (st : InlineData) (call : InlineCall), st.Settles png call →
      st.Careful call := by
    intro st call settles
    cases call with
    | clear => trivial
    | receive data =>
        intro idle _
        exact ((settles_text png st data idle).mp settles).1
  apply throughout_iff_everyCall InlineData.Ideal
  · intro st ideal
    exact ideal.consistent
  · intro st call _ settles
    exact cautious st call settles
  · intro st call after ideal settles stepped
    cases call with
    | clear =>
        obtain rfl := Option.some.inj stepped
        exact ⟨ideal.table, ideal.consistent⟩
    | receive data =>
        obtain ⟨⟨next, code⟩, received, rfl⟩ := Option.map_eq_some_iff.mp stepped
        refine ⟨inlineDataReceive_table png st next data code ideal.table received, ?_⟩
        exact (inlineDataReceive_settles png st data ideal (cautious st _ settles)).mpr settles
          next code received
  · intro st call ideal careful holds
    cases call with
    | clear => trivial
    | receive data =>
        apply (inlineDataReceive_settles png st data ideal careful).mp
        intro next code received
        exact holds next (Option.map_eq_some_iff.mpr ⟨(next, code), received, rfl⟩)
  · exact ⟨rfl, by simp [InlineData.Consistent, inlineStatic]⟩

/-- A library whose readers take every byte. -/
def patientLibpng : Libpng := ⟨fun _ => true, fun _ _ => none⟩

/-- After the magic word and an asterisk no transfer is in progress, but its reader is
allocated and the image has not ended. -/
theorem consistent_lost : ¬ (
    Throughout (inlineCall patientLibpng) inlineStatic
        [.receive (inlineMagic ++ CString.ascii "*")] InlineData.Consistent ∧
      EveryCall (inlineCall patientLibpng) inlineStatic
        [.receive (inlineMagic ++ CString.ascii "*")] InlineData.Careful) := by
  rintro ⟨throughout, -⟩
  obtain ⟨last, received, idle, reader, running⟩ : ∃ last,
      inlineCall patientLibpng inlineStatic (.receive (inlineMagic ++ CString.ascii "*")) =
          some last ∧
        last.processingPng = false ∧ last.reader = some [] ∧ last.fileEnd = false :=
    ⟨_, rfl, rfl, rfl, rfl⟩
  have consistent := throughout [_] last (List.prefix_refl _)
    (by rw [List.foldlM_cons, received]; rfl)
  have processing := consistent.mpr ⟨by rw [reader, Option.isSome_some], running⟩
  rw [idle] at processing
  cases processing

end Hackterm
