import Hackterm.Inline.Receive
import Hackterm.Streaming.Word

/-! # What the calls of a transfer do

One lemma for each function a transfer goes through: where the search finds the
magic word, what a buffer does to the reader it is handed to, and which part of
the state each call leaves alone.
-/

namespace Hackterm

open Streaming

/-- The bytes every reader was given, oldest reader first. -/
def InlineData.readers (st : InlineData) : List (List UInt8) :=
  st.finished.reverse ++ st.reader.toList

/-- The bytes handed to `inlinepng_process_data`, in order. -/
def InlineData.handedData (st : InlineData) : List UInt8 := st.handed.reverse.flatten

/-- The reader does not fail on the image, and does not end it before its last byte. -/
def Libpng.Accepts (png : Libpng) (image : List UInt8) : Prop :=
  ∀ front byte back, image = front ++ byte :: back →
    png.callback front byte ≠ some .longjmp ∧
      (png.callback front byte = some .endCallback → back = [])

/-- The reader ends the image at its last byte. -/
def Libpng.Ends (png : Libpng) (image : List UInt8) : Prop :=
  ∃ front byte, image = front ++ [byte] ∧ png.callback front byte = some .endCallback

theorem length_inlineMagic : inlineMagic.length = 13 := rfl

theorem inlineMagic_unbordered : Unbordered inlineMagic := by decide

/-- The search finds the first occurrence, unless it ends the buffer. -/
theorem bufferSearch_eq_some_iff (buffer v : List UInt8) (n : Nat) :
    bufferSearch buffer v = some n ↔
      n + v.length < buffer.length ∧ OccursAt v buffer n ∧ ∀ m < n, ¬ OccursAt v buffer m := by
  unfold bufferSearch
  split
  · simp only [reduceCtorEq, false_iff]
    omega
  · rw [List.find?_range_eq_some]
    simp only [List.isPrefixOf_iff_prefix, List.mem_range, Bool.not_eq_true', OccursAt,
      ← Bool.not_eq_true]
    constructor
    · rintro ⟨here, below, first⟩
      exact ⟨by omega, here, first⟩
    · rintro ⟨below, here, first⟩
      exact ⟨here, by omega, first⟩

theorem bufferSearch_eq_none (buffer v : List UInt8)
    (absent : ∀ n, n + v.length < buffer.length → ¬ OccursAt v buffer n) :
    bufferSearch buffer v = none := by
  rw [Option.eq_none_iff_forall_not_mem]
  intro n found
  obtain ⟨below, here, _⟩ := (bufferSearch_eq_some_iff buffer v n).mp found
  exact absent n below here

theorem bufferSearch_short (buffer v : List UInt8) (short : buffer.length < v.length) :
    bufferSearch buffer v = none :=
  if_pos short

/-- The search finds the word behind a text without it. -/
theorem bufferSearch_written (front v back : List UInt8) (unbordered : Unbordered v)
    (plain : ¬ Occurs v front) (more : back ≠ []) :
    bufferSearch (front ++ v ++ back) v = some front.length := by
  have positive := List.length_pos_iff.mpr more
  rw [bufferSearch_eq_some_iff]
  refine ⟨?_, occursAt_append front v back, ?_⟩
  · simp only [List.length_append]
    omega
  · intro m before occurs
    exact plain ⟨m, occurs.of_append_word unbordered before⟩

/-- The search waits while nothing stands behind the word. -/
theorem bufferSearch_waiting (buffer front v text : List UInt8) (unbordered : Unbordered v)
    (plain : ¬ Occurs v front) (recent : buffer <:+ text) (early : text <+: front ++ v) :
    bufferSearch buffer v = none := by
  refine bufferSearch_eq_none buffer v fun n below occurs => ?_
  obtain ⟨back, whole⟩ := early
  have shorter := recent.length_le
  have length := congrArg List.length whole
  rw [List.length_append, List.length_append] at length
  have inText := occurs.of_suffix recent
  have present : v ≠ [] := by
    rintro rfl
    exact plain ⟨0, List.nil_prefix⟩
  have inWhole := inText.append_right back present
  rw [whole, ← List.append_nil (front ++ v)] at inWhole
  exact plain ⟨_, inWhole.of_append_word unbordered (by omega)⟩

/-- The search finds a word of the buffer, behind its first byte. -/
def InlineData.obeys (st : InlineData) (word : List UInt8) : Bool :=
  (bufferSearch st.buffer.contents word).any fun npos => 0 < npos

theorem obeySize_eq (word : List UInt8) (size : Int) (st : InlineData) :
    obeySize word size st =
      if st.obeys word then { st with nunifont := nunifontSize size st.nunifont } else st := by
  unfold obeySize InlineData.obeys
  cases bufferSearch st.buffer.contents word with
  | none => rfl
  | some npos => simp

/-- The size commands only change the font. -/
theorem sizeCommands_eq (st : InlineData) : ∃ font, sizeCommands st = { st with nunifont := font } := by
  rw [sizeCommands, obeySize_eq, obeySize_eq]
  split_ifs
  all_goals exact ⟨_, rfl⟩

/-- A chunk of text is buffered, and a magic word in the buffer opens a transfer. -/
theorem receiveText_eq (png : Libpng) (st : InlineData) (data : List UInt8) :
    ∃ font, let text := { (st.setFileEnd false).bufferPush data with nunifont := font }
      receiveText png st data =
        match bufferSearch (st.buffer.pushAll data).contents inlineMagic with
        | none => some (text, 0)
        | some pos => openImage png text pos := by
  obtain ⟨font, same⟩ := sizeCommands_eq ((st.setFileEnd false).bufferPush data)
  refine ⟨font, ?_⟩
  unfold receiveText
  rw [same]
  rfl

/-- The end of `inline_data_receive` in an image, behind `inlinepng_process_data`. -/
def imageLeft (passed : InlineData) (decoded : Decoded) : InlineData × Nat :=
  if decoded.output ≠ [] ∧ passed.fileEnd then (passed.setProcessingPng false, 1)
  else if decoded.failflag then ((passed.setFileEnd true).setProcessingPng false, 2)
  else if passed.fileEnd then (passed.setProcessingPng false, 1)
  else (passed, 1)

/-- A chunk of an image that has not ended is decoded and handed over. -/
theorem receiveImage_decodes (png : Libpng) (st : InlineData) (data : List UInt8)
    (running : st.fileEnd = false) :
    receiveImage png st data = (st.decodeBase64 data).bind fun call =>
      if 10240 < call.2.output.length then none
      else some (imageLeft (handOver png call.1 call.2.output) call.2) := by
  unfold receiveImage imageLeft
  rw [running, if_neg Bool.false_ne_true, Option.bind_eq_bind]
  congr 1
  funext call
  dsimp only
  split_ifs
  all_goals rfl

/-- The end of `inline_data_receive` behind the magic word. -/
def openingLeft (passed : InlineData) (decoded : Decoded) : InlineData × Nat :=
  if decoded.failflag then (passed.bufferClear.setProcessingPng false, 0)
  else (passed.bufferClear, 2)

/-- The text behind the magic word is decoded and handed to a new reader. -/
theorem openImage_decodes (png : Libpng) (st : InlineData) (pos : Nat) :
    openImage png st pos =
      ((initializePngReader png (st.setProcessingPng true).initBase64).decodeBase64
        (st.buffer.contents.drop (pos + inlineMagic.length))).bind fun call =>
          if 4096 < call.2.output.length then none
          else some (openingLeft (handOver png call.1 call.2.output) call.2) := by
  have buffered : (initializePngReader png (st.setProcessingPng true).initBase64).buffer =
      st.buffer := rfl
  unfold openImage openingLeft
  dsimp only
  rw [buffered, Option.bind_eq_bind]
  congr 1
  funext call
  split_ifs
  all_goals rfl

/-- Behind `inlinepng_process_data` only the flags of the transfer are set. -/
theorem imageLeft_eq (passed : InlineData) (decoded : Decoded) :
    ∃ processing fileEnd, (imageLeft passed decoded).1 =
      { passed with processingPng := processing, fileEnd := fileEnd } := by
  unfold imageLeft
  split_ifs
  all_goals exact ⟨_, _, rfl⟩

/-- Behind `inlinepng_process_data` the buffer is cleared and a flag set. -/
theorem openingLeft_eq (passed : InlineData) (decoded : Decoded) :
    ∃ processing, (openingLeft passed decoded).1 =
      { passed.bufferClear with processingPng := processing } := by
  unfold openingLeft
  split_ifs
  all_goals exact ⟨_, rfl⟩

/-- A chunk of an image that is received is decoded and handed over. -/
theorem receiveImage_received {png : Libpng} {st next : InlineData} {data : List UInt8}
    {code : Nat} (running : st.fileEnd = false)
    (received : receiveImage png st data = some (next, code)) :
    ∃ base64 decoded, base64Decode st.base64 data = some (base64, decoded) ∧
      decoded.output.length ≤ 10240 ∧
      next = (imageLeft (handOver png { st with base64 := base64 } decoded.output) decoded).1 := by
  rw [receiveImage_decodes png st data running] at received
  obtain ⟨⟨middle, _⟩, decoding, received⟩ := Option.bind_eq_some_iff.mp received
  obtain ⟨⟨base64, decoded⟩, decodes, same⟩ := Option.map_eq_some_iff.mp decoding
  obtain ⟨rfl, rfl⟩ := Prod.mk.inj same
  obtain ⟨room, left⟩ := Option.ite_none_left_eq_some.mp received
  exact ⟨base64, decoded, decodes, Nat.le_of_not_lt room, (congrArg Prod.fst
    (Option.some.inj left)).symm⟩

/-- A transfer that is opened decodes what stands behind the magic word, and hands it over. -/
theorem openImage_opened {png : Libpng} {st next : InlineData} {pos code : Nat}
    (opened : openImage png st pos = some (next, code)) :
    ∃ base64 decoded, base64Decode (base64Init st.base64)
        (st.buffer.contents.drop (pos + inlineMagic.length)) = some (base64, decoded) ∧
      decoded.output.length ≤ 4096 ∧
      next = (openingLeft (handOver png
        { initializePngReader png (st.setProcessingPng true).initBase64 with base64 := base64 }
        decoded.output) decoded).1 := by
  rw [openImage_decodes] at opened
  obtain ⟨⟨middle, _⟩, decoding, opened⟩ := Option.bind_eq_some_iff.mp opened
  obtain ⟨⟨base64, decoded⟩, decodes, same⟩ := Option.map_eq_some_iff.mp decoding
  obtain ⟨rfl, rfl⟩ := Prod.mk.inj same
  obtain ⟨room, left⟩ := Option.ite_none_left_eq_some.mp opened
  exact ⟨base64, decoded, decodes, Nat.le_of_not_lt room, (congrArg Prod.fst
    (Option.some.inj left)).symm⟩

/-- What the reader does to a buffer stays in the reader, and it does not count
more bytes than it was given. -/
theorem pngProcessData_eq (png : Libpng) (st : InlineData) (data : List UInt8) :
    ∃ reader finished fileEnd,
      pngProcessData png st data =
        { st with reader := reader, finished := finished, fileEnd := fileEnd } ∧
      (finished.reverse ++ reader.toList).flatten.length ≤
        st.readers.flatten.length + data.length := by
  induction data generalizing st with
  | nil => exact ⟨st.reader, st.finished, st.fileEnd, rfl, le_rfl⟩
  | cons byte data ih =>
      rw [pngProcessData]
      cases allocated : st.reader with
      | none =>
          refine ⟨none, st.finished, st.fileEnd, ?_, by simp [InlineData.readers, allocated]⟩
          dsimp only
          rw [← allocated]
      | some given =>
          have grown : (st.finished.reverse ++ [given ++ [byte]]).flatten.length =
              st.readers.flatten.length + 1 := by
            simp [InlineData.readers, allocated, Nat.add_assoc]
          dsimp only
          split
          · obtain ⟨reader, finished, fileEnd, same, bound⟩ :=
              ih { st with reader := some (given ++ [byte]) }
            refine ⟨reader, finished, fileEnd, same, bound.trans ?_⟩
            simp only [InlineData.readers, Option.toList_some, List.length_cons] at grown ⊢
            omega
          · obtain ⟨reader, finished, fileEnd, same, bound⟩ :=
              ih { st with reader := some (given ++ [byte]), fileEnd := false }
            refine ⟨reader, finished, fileEnd, same, bound.trans ?_⟩
            simp only [InlineData.readers, Option.toList_some, List.length_cons] at grown ⊢
            omega
          · refine ⟨none, (given ++ [byte]) :: st.finished, true, rfl, ?_⟩
            rw [List.reverse_cons, Option.toList_none, List.append_nil, grown, List.length_cons]
            omega
          · refine ⟨none, (given ++ [byte]) :: st.finished, st.fileEnd, rfl, ?_⟩
            rw [List.reverse_cons, Option.toList_none, List.append_nil, grown, List.length_cons]
            omega

/-- A buffer handed over is recorded, and otherwise only touches the reader. -/
theorem inlinepngProcessData_eq (png : Libpng) (st : InlineData) (data : List UInt8) :
    ∃ reader finished fileEnd,
      inlinepngProcessData png st data =
        { st with reader := reader, finished := finished, fileEnd := fileEnd,
                  handed := data :: st.handed } ∧
      (finished.reverse ++ reader.toList).flatten.length ≤
        st.readers.flatten.length + data.length := by
  unfold inlinepngProcessData
  dsimp only
  split
  · rename_i absent
    have gone : st.reader = none := by simpa using absent
    exact ⟨none, st.finished, true, by
      simp [pngCleanup, pngDestroyReadStruct, InlineData.setFileEnd, gone], by
      simp [InlineData.readers, gone]⟩
  · obtain ⟨reader, finished, fileEnd, same, bound⟩ :=
      pngProcessData_eq png { st with handed := data :: st.handed } data
    exact ⟨reader, finished, fileEnd, same, bound⟩

/-- Handing over lengthens the record by the buffer and the readers by at most that,
and leaves the decoder and the text buffer alone. -/
theorem handOver_spec (png : Libpng) (st : InlineData) (data : List UInt8) :
    (handOver png st data).base64 = st.base64 ∧ (handOver png st data).buffer = st.buffer ∧
      (handOver png st data).processingPng = st.processingPng ∧
      (handOver png st data).handedData = st.handedData ++ data ∧
      (handOver png st data).readers.flatten.length ≤ st.readers.flatten.length + data.length := by
  unfold handOver
  split
  · rename_i empty
    exact ⟨rfl, rfl, rfl, by rw [empty, List.append_nil], by omega⟩
  · obtain ⟨reader, finished, fileEnd, same, bound⟩ := inlinepngProcessData_eq png st data
    rw [same]
    exact ⟨rfl, rfl, rfl, by simp [InlineData.handedData], bound⟩

/-- A new reader was given nothing yet. -/
theorem initializePngReader_readers (png : Libpng) (st : InlineData) :
    (initializePngReader png st).readers.flatten = st.readers.flatten := by
  cases allocated : st.reader with
  | none =>
      simp only [initializePngReader, InlineData.readers, allocated]
      split <;> simp
  | some given =>
      simp only [initializePngReader, InlineData.readers, allocated]
      split <;> simp

/-- A byte that neither ends the image nor fails is taken. -/
theorem pngProcessData_quiet (png : Libpng) (st : InlineData) (given : List UInt8) (byte : UInt8)
    (data : List UInt8) (reader : st.reader = some given) (running : st.fileEnd = false)
    (sound : png.callback given byte ≠ some .longjmp)
    (quiet : png.callback given byte ≠ some .endCallback) :
    pngProcessData png st (byte :: data) =
      pngProcessData png { st with reader := some (given ++ [byte]) } data := by
  rw [pngProcessData, reader]
  dsimp only
  split
  · rfl
  · rw [← running]
    rfl
  · rename_i ended
    exact absurd ended quiet
  · rename_i failed
    exact absurd failed sound

/-- The next bytes of an image go to its reader, which is gone after the last one
if it ends the image there. -/
theorem pngProcessData_accepted (png : Libpng) (image given data rest : List UInt8)
    (accepted : png.Accepts image) (st : InlineData) (reader : st.reader = some given)
    (running : st.fileEnd = false) (split : image = given ++ data ++ rest) :
    (pngProcessData png st data = { st with reader := some (given ++ data) } ∧
        (rest = [] → data ≠ [] → ¬ png.Ends image)) ∨
      (rest = [] ∧
        pngProcessData png st data =
          { st with reader := none, finished := image :: st.finished, fileEnd := true }) := by
  induction data generalizing st given with
  | nil =>
      refine Or.inl ⟨?_, fun _ absent => absurd rfl absent⟩
      rw [pngProcessData, List.append_nil, ← reader]
  | cons byte data ih =>
      have here : image = given ++ byte :: (data ++ rest) := by simpa using split
      obtain ⟨sound, last⟩ := accepted given byte (data ++ rest) here
      by_cases ended : png.callback given byte = some .endCallback
      · obtain ⟨rfl, rfl⟩ := List.append_eq_nil_iff.mp (last ended)
        refine Or.inr ⟨rfl, ?_⟩
        rw [pngProcessData, reader, here]
        simp only [ended]
        rfl
      · rw [pngProcessData_quiet png st given byte data reader running sound ended]
        have further : image = given ++ [byte] ++ data ++ rest := by simpa using split
        rcases ih (given ++ [byte]) { st with reader := some (given ++ [byte]) } rfl running further
          with ⟨same, notEnd⟩ | ⟨whole, same⟩
        · refine Or.inl ⟨by rw [same, List.append_assoc, List.singleton_append], ?_⟩
          rintro done - ⟨front, final, spelled, ends⟩
          cases data with
          | nil =>
              have joined : given ++ [byte] = front ++ [final] := by
                rw [← spelled, further, done, List.append_nil, List.append_nil]
              obtain ⟨rfl, rfl⟩ := List.append_singleton_inj.mp joined
              exact ended ends
          | cons next data => exact notEnd done (by simp) ⟨front, final, spelled, ends⟩
        · exact Or.inr ⟨whole, same⟩

/-- The next bytes of an image go to its reader. -/
theorem handOver_accepted (png : Libpng) (image given data rest : List UInt8)
    (accepted : png.Accepts image) (st : InlineData) (reader : st.reader = some given)
    (running : st.fileEnd = false) (split : image = given ++ data ++ rest) :
    let next := handOver png st data
    (next.reader = some (given ++ data) ∧ next.finished = st.finished ∧ next.fileEnd = false ∧
        (rest = [] → data ≠ [] → ¬ png.Ends image)) ∨
      (rest = [] ∧ data ≠ [] ∧ next.reader = none ∧ next.finished = image :: st.finished ∧
        next.fileEnd = true) := by
  unfold handOver
  split
  · rename_i empty
    exact Or.inl ⟨by rw [reader, empty, List.append_nil], rfl, running,
      fun _ present => absurd empty present⟩
  · rename_i present
    have allocated : ({ st with handed := data :: st.handed } : InlineData).reader.isNone = false :=
      by rw [reader, Option.isNone_some]
    unfold inlinepngProcessData
    simp only [allocated, Bool.false_eq_true, ↓reduceIte]
    rcases pngProcessData_accepted png image given data rest accepted
      { st with handed := data :: st.handed } reader running split with
      ⟨same, notEnd⟩ | ⟨whole, same⟩
    · rw [same]
      exact Or.inl ⟨rfl, rfl, running, notEnd⟩
    · rw [same]
      exact Or.inr ⟨whole, present, rfl, rfl, rfl⟩

end Hackterm
