import Hackterm.Base64.RoundTrip
import Hackterm.Inline.Calls

/-! # One image on its way

An image arrives as the magic word followed by its base64 text, cut into chunks
of text. The chunks before the one with the first byte of the base64 text are
only buffered (`Hackterm.waiting_run`). That chunk opens the transfer, provided
that its share of the base64 text decodes into the array of that call
(`Hackterm.openImage_opens`). From then on every chunk hands the reader the next
bytes of the image, until the image is there (`Hackterm.receiving_run`).
-/

namespace Hackterm

open Streaming

/-- The most bytes of text one chunk can have: `console_poll` reads no more at once. -/
def consolePollSize : Nat := 10240

/-- The part of the chunk with the first byte past `skip` that lies past `skip`. -/
def openingShare (skip : Nat) : List (List UInt8) → List UInt8
  | [] => []
  | chunk :: chunks =>
      if chunk.length ≤ skip then openingShare (skip - chunk.length) chunks else chunk.drop skip

/-- The chunks after the one with the first byte past `skip`. -/
def afterOpening (skip : Nat) : List (List UInt8) → List (List UInt8)
  | [] => []
  | chunk :: chunks =>
      if chunk.length ≤ skip then afterOpening (skip - chunk.length) chunks else chunks

/-- The chunks of a stream, split at the place where its second part begins. -/
theorem opening_split (front back : List UInt8) (more : back ≠ []) (chunks : List (List UInt8))
    (cut : chunks.flatten = front ++ back) :
    ∃ before part, chunks = before ++
        (part ++ openingShare front.length chunks) :: afterOpening front.length chunks ∧
      before.flatten ++ part = front ∧ openingShare front.length chunks ≠ [] ∧
      openingShare front.length chunks ++ (afterOpening front.length chunks).flatten = back := by
  induction chunks generalizing front with
  | nil =>
      have empty := List.append_eq_nil_iff.mp cut.symm
      exact absurd empty.2 more
  | cons chunk chunks ih =>
      rw [List.flatten_cons] at cut
      simp only [openingShare, afterOpening]
      split
      · rename_i early
        obtain ⟨middle, rfl⟩ : ∃ middle, front = chunk ++ middle := by
          obtain ⟨middle, same⟩ := List.prefix_of_prefix_length_le
            (List.prefix_append chunk chunks.flatten) (cut ▸ List.prefix_append front back) early
          exact ⟨middle, same.symm⟩
        rw [List.append_assoc, List.append_cancel_left_eq] at cut
        obtain ⟨before, part, split, joined, present, rest⟩ := ih middle cut
        rw [List.length_append, Nat.add_sub_cancel_left]
        exact ⟨chunk :: before, part, by rw [List.cons_append, ← split], by
          rw [List.flatten_cons, List.append_assoc, joined], present, rest⟩
      · rename_i late
        refine ⟨[], front, ?_, rfl, ?_, ?_⟩
        · have here := congrArg (List.take front.length) cut
          rw [List.take_left, List.take_append_of_le_length (by omega)] at here
          rw [List.nil_append, ← here, List.length_take_of_le (by omega), List.take_append_drop]
        · rw [Ne, List.drop_eq_nil_iff]
          omega
        · have here := congrArg (List.drop front.length) cut
          rwa [List.drop_left, List.drop_append_of_le_length (by omega)] at here

/-- The share of the opening chunk fits the array if the image does, or if the share
is short. -/
theorem openingShare_fits (image share rest : List UInt8)
    (split : Rfc4648.encode image = share ++ rest) :
    (Rfc4648.decoder.run [] share).2.length ≤ 4096 ↔
      image.length ≤ 4096 ∨ share.length ≤ 5462 := by
  have letters := Rfc4648.length_sextets image
  have part := congrArg List.length (Rfc4648.decoder_run_prefix image share rest split)
  rw [List.length_append] at part
  by_cases early : share.length < (Rfc4648.sextets image).length
  · obtain ⟨enough, spare⟩ := Rfc4648.decoder_run_prefix_length image share rest split early
    omega
  · obtain ⟨whole, _⟩ := Rfc4648.decoder_run_prefix_whole image share rest split (by omega)
    rw [whole]
    omega

/-- In the middle of an image: a part of its text was received, and the reader was
given what that part decodes to. -/
structure InlineData.Receiving (png : Libpng) (earlier : List (List UInt8))
    (before image taken : List UInt8) (st : InlineData) : Prop where
  processing : st.processingPng = true
  running : st.fileEnd = false
  table : st.base64.lookup = base64Table
  pending : st.base64.pending = (Rfc4648.decoder.run [] taken).1
  reader : st.reader = some (Rfc4648.decoder.run [] taken).2
  finished : st.finished.reverse = earlier
  record : st.handedData = before ++ (Rfc4648.decoder.run [] taken).2
  drained : st.buffer = Window.empty
  further : (Rfc4648.decoder.run [] taken).2 = image → ¬ png.Ends image

/-- The image is there and its reader is gone. What is left of its text is padding,
and is buffered as text. -/
structure InlineData.Delivered (earlier : List (List UInt8)) (before image rest : List UInt8)
    (st : InlineData) : Prop where
  reader : st.reader = none
  finished : st.finished.reverse = earlier ++ [image]
  record : st.handedData = before ++ image
  ended : st.processingPng = true → st.fileEnd = true
  drained : st.processingPng = true → st.buffer = Window.empty
  buffered : st.buffer.contents.length + rest.length ≤ 2

/-- The image went to one new reader. -/
theorem InlineData.Delivered.readers_eq {earlier : List (List UInt8)}
    {before image rest : List UInt8} {st : InlineData}
    (done : st.Delivered earlier before image rest) : st.readers = earlier ++ [image] := by
  rw [InlineData.readers, done.finished, done.reader, Option.toList_none, List.append_nil]

section Waiting

variable (png : Libpng)

theorem inlineDataReceive_text (st : InlineData) (data : List UInt8)
    (idle : st.processingPng = false) :
    inlineDataReceive png st data = receiveText png st data :=
  if_neg (by simp [idle])

theorem inlineDataReceive_image (st : InlineData) (data : List UInt8)
    (processing : st.processingPng = true) :
    inlineDataReceive png st data = receiveImage png st data :=
  if_pos processing

/-- Text without the whole magic word and more is only buffered. -/
theorem receiveText_waiting (st : InlineData) (data : List UInt8)
    (absent : bufferSearch (st.buffer.pushAll data).contents inlineMagic = none) :
    ∃ font, receiveText png st data =
      some ({ (st.setFileEnd false).bufferPush data with nunifont := font }, 0) := by
  obtain ⟨font, same⟩ := receiveText_eq png st data
  rw [absent] at same
  exact ⟨font, same⟩

/-- Chunks up to the end of the magic word are buffered, and nothing else happens. -/
theorem waiting_run (front : List UInt8) (plain : ¬ Occurs inlineMagic front)
    (chunks : List (List UInt8)) (st : InlineData) (idle : st.processingPng = false)
    (text : List UInt8) (held : st.buffer.contents = text.rtake bufferSize)
    (early : text ++ chunks.flatten <+: front ++ inlineMagic) :
    ∃ last codes, feed (inlineDataReceive png) st chunks = some (last, codes) ∧
      last.processingPng = false ∧ last.readers = st.readers ∧ last.handedData = st.handedData ∧
      last.buffer.contents = (text ++ chunks.flatten).rtake bufferSize := by
  induction chunks generalizing st text with
  | nil => exact ⟨st, [], rfl, idle, rfl, rfl, by simpa using held⟩
  | cons chunk chunks ih =>
      rw [List.flatten_cons, ← List.append_assoc] at early ⊢
      have pushed : (st.buffer.pushAll chunk).contents = (text ++ chunk).rtake bufferSize := by
        rw [Window.pushAll_contents, held, rtake_rtake_append]
      have absent : bufferSearch (st.buffer.pushAll chunk).contents inlineMagic = none := by
        rw [pushed]
        exact bufferSearch_waiting _ front inlineMagic (text ++ chunk) inlineMagic_unbordered plain
          (rtake_suffix _ _) ((List.prefix_append _ _).trans early)
      obtain ⟨font, call⟩ := receiveText_waiting png st chunk absent
      obtain ⟨last, codes, fed, kept⟩ :=
        ih { (st.setFileEnd false).bufferPush chunk with nunifont := font } idle (text ++ chunk)
          pushed early
      refine ⟨last, 0 :: codes, ?_, kept⟩
      rw [feed_cons, inlineDataReceive_text png st chunk idle, call, Option.bind_some, fed]
      rfl

end Waiting

section Image

variable (png : Libpng) {image : List UInt8} (accepted : png.Accepts image) (present : image ≠ [])

/-- Decoding a well padded text moves the decoder of the state along. -/
theorem decodeBase64_refines (st : InlineData) (table : st.base64.lookup = base64Table)
    (text : List UInt8) (padded : WellPadded text) :
    ∃ base64 : Base64, base64.lookup = base64Table ∧
      base64.pending = (Rfc4648.decoder.run st.base64.pending text).1 ∧
      st.decodeBase64 text = some ({ st with base64 := base64 },
        ⟨(Rfc4648.decoder.run st.base64.pending text).2, false⟩) := by
  obtain ⟨base64, kept, reached, call⟩ := base64Decode_refines st.base64 table text padded
  exact ⟨base64, kept, reached, by rw [InlineData.decodeBase64, call]; rfl⟩

/-- Text of the image in a chunk decodes to the next bytes of the image. -/
theorem next_bytes (taken text rest : List UInt8)
    (split : Rfc4648.encode image = taken ++ text ++ rest) :
    ∃ later, image = (Rfc4648.decoder.run [] taken).2 ++
        (Rfc4648.decoder.run (Rfc4648.decoder.run [] taken).1 text).2 ++ later ∧
      (Rfc4648.decoder.run [] (taken ++ text)).2 = (Rfc4648.decoder.run [] taken).2 ++
        (Rfc4648.decoder.run (Rfc4648.decoder.run [] taken).1 text).2 := by
  have whole := Rfc4648.decoder_run_prefix image (taken ++ text) rest split
  have joined : (Rfc4648.decoder.run [] (taken ++ text)).2 = (Rfc4648.decoder.run [] taken).2 ++
      (Rfc4648.decoder.run (Rfc4648.decoder.run [] taken).1 text).2 := by
    rw [Transducer.run_append]
  exact ⟨(Rfc4648.decoder.run (Rfc4648.decoder.run [] (taken ++ text)).1 rest).2,
    by rw [← joined]; exact whole, joined⟩

theorem bufferClear_eq (st : InlineData) (drained : st.buffer = Window.empty) :
    st.bufferClear = st := by
  rw [InlineData.bufferClear, ← drained]

include accepted in
/-- Handing over what the next text of the image decodes to. -/
theorem handOver_progress (st : InlineData) (earlier : List (List UInt8))
    (before taken text rest : List UInt8)
    (split : Rfc4648.encode image = taken ++ text ++ rest) (processing : st.processingPng = true)
    (running : st.fileEnd = false) (table : st.base64.lookup = base64Table)
    (pending : st.base64.pending = (Rfc4648.decoder.run [] (taken ++ text)).1)
    (reader : st.reader = some (Rfc4648.decoder.run [] taken).2)
    (finished : st.finished.reverse = earlier)
    (record : st.handedData = before ++ (Rfc4648.decoder.run [] taken).2)
    (further : (Rfc4648.decoder.run [] taken).2 = image → ¬ png.Ends image) :
    let data := (Rfc4648.decoder.run (Rfc4648.decoder.run [] taken).1 text).2
    let next := (handOver png st data).bufferClear
    next.Receiving png earlier before image (taken ++ text) ∨
      data ≠ [] ∧ next.processingPng = true ∧ next.Delivered earlier before image rest := by
  obtain ⟨later, bytes, joined⟩ := next_bytes taken text rest split
  generalize (Rfc4648.decoder.run (Rfc4648.decoder.run [] taken).1 text).2 = data at *
  generalize (Rfc4648.decoder.run [] taken).2 = given at *
  obtain ⟨sameDecoder, _, sameMode, longer, _⟩ := handOver_spec png st data
  intro data' next
  rcases handOver_accepted png image given data later accepted st reader running bytes with
    ⟨grown, kept, going, notEnd⟩ | ⟨rfl, some, gone, kept, ended⟩
  · refine Or.inl ⟨sameMode.trans processing, going, ?_, ?_, ?_, ?_, ?_, rfl, ?_⟩
    · exact (congrArg Base64.lookup sameDecoder).trans table
    · exact (congrArg Base64.pending sameDecoder).trans pending
    · rw [joined]
      exact grown
    · exact (congrArg List.reverse kept).trans finished
    · rw [joined, ← List.append_assoc, ← record]
      exact longer
    · intro whole
      rw [joined] at whole
      rw [whole] at bytes
      have done : later = [] := List.self_eq_append_right.mp bytes
      by_cases empty : data = []
      · exact further (by rwa [empty, List.append_nil] at whole)
      · exact notEnd done empty
  · rw [List.append_nil] at bytes
    refine Or.inr ⟨some, sameMode.trans processing, gone, ?_, ?_, fun _ => ended, fun _ => rfl, ?_⟩
    · rw [← finished, ← List.reverse_cons]
      exact congrArg List.reverse kept
    · rw [bytes, ← List.append_assoc, ← record]
      exact longer
    · have short := Rfc4648.decoder_run_prefix_eq image (taken ++ text) rest split
        (joined.trans bytes.symm)
      have drained : next.buffer.contents.length = 0 := rfl
      omega

/-- The state in which a new transfer has decoded its first share. -/
def InlineData.opened (st : InlineData) (base64 : Base64) : InlineData :=
  { initializePngReader png (st.setProcessingPng true).initBase64 with base64 := base64 }

theorem opened_readers (created : ∀ count, png.createReadStruct count = true) (st : InlineData)
    (base64 : Base64) :
    (st.opened png base64).reader = some [] ∧
      (st.opened png base64).finished.reverse = st.readers := by
  refine ⟨if_pos (created _), ?_⟩
  have behind : (st.opened png base64).finished = st.reader.toList ++ st.finished := rfl
  rw [behind, List.reverse_append, InlineData.readers]
  cases st.reader <;> rfl

/-- What the call that finds the magic word does with the share of the image. -/
theorem openImage_eq (st : InlineData) (front share rest : List UInt8)
    (held : st.buffer.contents = front ++ inlineMagic ++ share)
    (split : Rfc4648.encode image = share ++ rest) :
    ∃ base64 : Base64, base64.lookup = base64Table ∧
      base64.pending = (Rfc4648.decoder.run [] share).1 ∧
      openImage png st front.length =
        if 4096 < (Rfc4648.decoder.run [] share).2.length then none
        else some ((handOver png (st.opened png base64)
          (Rfc4648.decoder.run [] share).2).bufferClear, 2) := by
  have behind : st.buffer.contents.drop (front.length + inlineMagic.length) = share := by
    rw [held, ← List.length_append, List.drop_left]
  have padded : WellPadded share := (split ▸ wellPadded_encode image).of_append.1
  obtain ⟨base64, table, pending, decodes⟩ := decodeBase64_refines
    (initializePngReader png (st.setProcessingPng true).initBase64) rfl share padded
  refine ⟨base64, table, pending, ?_⟩
  unfold openImage
  dsimp only
  rw [show (initializePngReader png (st.setProcessingPng true).initBase64).buffer.contents.drop
    (front.length + inlineMagic.length) = share from behind, decodes]
  rfl

include accepted present in
/-- The call that finds the magic word opens a reader, and hands it the share of
the image that the buffer holds. -/
theorem openImage_opens (created : ∀ count, png.createReadStruct count = true) (st : InlineData)
    (running : st.fileEnd = false) (front share rest : List UInt8)
    (held : st.buffer.contents = front ++ inlineMagic ++ share)
    (split : Rfc4648.encode image = share ++ rest)
    (fits : (Rfc4648.decoder.run [] share).2.length ≤ 4096) :
    ∃ next, openImage png st front.length = some (next, 2) ∧
      (next.Receiving png st.readers st.handedData image share ∨
        next.processingPng = true ∧ next.Delivered st.readers st.handedData image rest) := by
  obtain ⟨base64, table, pending, call⟩ := openImage_eq png st front share rest held split
  obtain ⟨fresh, finished⟩ := opened_readers png created st base64
  refine ⟨_, call.trans (if_neg (by omega)), ?_⟩
  rcases handOver_progress png accepted (st.opened png base64) st.readers st.handedData [] share
    rest split rfl running table pending fresh finished (List.append_nil _).symm
    (fun empty => absurd empty.symm present) with receiving | ⟨_, mode, delivered⟩
  · exact Or.inl receiving
  · exact Or.inr ⟨mode, delivered⟩

/-- A share that does not fit the array is undefined. -/
theorem openImage_overflows (st : InlineData) (front share rest : List UInt8)
    (held : st.buffer.contents = front ++ inlineMagic ++ share)
    (split : Rfc4648.encode image = share ++ rest)
    (large : ¬ (Rfc4648.decoder.run [] share).2.length ≤ 4096) :
    openImage png st front.length = none := by
  obtain ⟨base64, _, _, call⟩ := openImage_eq png st front share rest held split
  rw [call, if_pos (by omega)]

/-- What a call during a transfer does with a chunk that decodes. -/
theorem receiveImage_eq (st : InlineData) (running : st.fileEnd = false) (data : List UInt8)
    (base64 : Base64) (output : List UInt8)
    (decodes : base64Decode st.base64 data = some (base64, ⟨output, false⟩))
    (fits : output.length ≤ 10240) :
    let next := handOver png { st with base64 := base64 } output
    receiveImage png st data =
      some (if next.fileEnd then next.setProcessingPng false else next, 1) := by
  have decoded : st.decodeBase64 data = some ({ st with base64 := base64 }, ⟨output, false⟩) := by
    rw [InlineData.decodeBase64, decodes]
    rfl
  rw [receiveImage_decodes png st data running, decoded, Option.bind_some,
    if_neg (Nat.not_lt.mpr fits), imageLeft, if_neg Bool.false_ne_true]
  intro next
  by_cases ended : next.fileEnd = true
  · rw [if_pos ended, if_pos ended, ite_self]
  · rw [if_neg ended, if_neg ended, if_neg fun both => ended both.2]

include accepted in
/-- A chunk of the image goes to its reader. -/
theorem receiving_step (st : InlineData) (earlier : List (List UInt8))
    (before taken chunk rest : List UInt8) (size : chunk.length ≤ consolePollSize)
    (split : Rfc4648.encode image = taken ++ chunk ++ rest)
    (receiving : st.Receiving png earlier before image taken) :
    ∃ next, inlineDataReceive png st chunk = some (next, 1) ∧
      (next.Receiving png earlier before image (taken ++ chunk) ∨
        next.processingPng = false ∧ next.Delivered earlier before image rest) := by
  have padded : WellPadded chunk :=
    (split ▸ wellPadded_encode image).of_append.1.of_append.2
  obtain ⟨base64, table, pending, decodes⟩ :=
    base64Decode_refines st.base64 receiving.table chunk padded
  have bits := (base64Decode_bits _ _ receiving.table _ _ decodes).2
  have counted : letters chunk ≤ chunk.length := List.countP_le_length
  have unfinished := st.base64.bitPos.isLt
  rw [← length_pending] at unfinished
  rw [receiving.pending] at pending decodes
  have progress := handOver_progress png accepted { st with base64 := base64 } earlier before taken
    chunk rest split receiving.processing receiving.running table
    (by rw [Transducer.run_append]; exact pending) receiving.reader receiving.finished
    receiving.record receiving.further
  have call := receiveImage_eq png st receiving.running chunk base64 _ decodes
    (by rw [← receiving.pending]; unfold consolePollSize at size; dsimp only at bits; omega)
  obtain ⟨_, sameBuffer, _⟩ := handOver_spec png { st with base64 := base64 }
    (Rfc4648.decoder.run (Rfc4648.decoder.run [] taken).1 chunk).2
  dsimp only at progress call
  rw [bufferClear_eq _ (sameBuffer.trans receiving.drained)] at progress
  rw [inlineDataReceive_image png st chunk receiving.processing, call]
  rcases progress with going | ⟨_, mode, delivered⟩
  · exact ⟨_, by rw [if_neg (by simp [going.running])], Or.inl going⟩
  · refine ⟨_, by rw [if_pos (delivered.ended mode)], Or.inr ⟨rfl, ?_⟩⟩
    exact ⟨delivered.reader, delivered.finished, delivered.record, nofun, nofun,
      delivered.buffered⟩

/-- Padding after the image is text, and waits in the buffer, except for the chunk
that the end of the image makes the code drop. -/
theorem delivered_step (st : InlineData) (earlier : List (List UInt8))
    (before chunk rest : List UInt8)
    (delivered : st.Delivered earlier before image (chunk ++ rest)) :
    ∃ next code, inlineDataReceive png st chunk = some (next, code) ∧
      next.processingPng = false ∧ next.Delivered earlier before image rest := by
  have short := delivered.buffered
  rw [List.length_append] at short
  cases mode : st.processingPng with
  | true =>
      refine ⟨st.setProcessingPng false, 1, ?_, rfl, ?_⟩
      · rw [inlineDataReceive_image png st chunk mode]
        exact if_pos (delivered.ended mode)
      · refine ⟨delivered.reader, delivered.finished, delivered.record, nofun, nofun, ?_⟩
        change st.buffer.contents.length + rest.length ≤ 2
        omega
  | false =>
      have pushed : (st.buffer.pushAll chunk).contents.length =
          st.buffer.contents.length + chunk.length := by
        rw [Window.pushAll_contents, rtake_of_length_le _ _ (by
          rw [List.length_append]
          exact short.trans' (by omega) |>.trans (by decide)), List.length_append]
      obtain ⟨font, call⟩ := receiveText_waiting png st chunk
        (bufferSearch_short _ _ (by rw [pushed, length_inlineMagic]; omega))
      refine ⟨_, 0, (inlineDataReceive_text png st chunk mode).trans call, mode, ?_⟩
      refine ⟨delivered.reader, delivered.finished, delivered.record, fun on => ?_, fun on => ?_, ?_⟩
      · exact absurd (mode.symm.trans on) Bool.false_ne_true
      · exact absurd (mode.symm.trans on) Bool.false_ne_true
      · change (st.buffer.pushAll chunk).contents.length + rest.length ≤ 2
        omega

/-- Padding after the image changes nothing, whatever its cuts. -/
theorem delivered_run (chunks : List (List UInt8)) (st : InlineData)
    (earlier : List (List UInt8)) (before : List UInt8)
    (delivered : st.Delivered earlier before image chunks.flatten) :
    ∃ last codes, feed (inlineDataReceive png) st chunks = some (last, codes) ∧
      last.Delivered earlier before image [] ∧
      (chunks ≠ [] ∨ st.processingPng = false → last.processingPng = false) := by
  induction chunks generalizing st with
  | nil => exact ⟨st, [], rfl, delivered, fun idle => idle.resolve_left fun more => more rfl⟩
  | cons chunk chunks ih =>
      obtain ⟨next, code, call, mode, further⟩ :=
        delivered_step png st earlier before chunk chunks.flatten delivered
      obtain ⟨last, codes, fed, final, idle⟩ := ih next further
      exact ⟨last, code :: codes, by rw [feed_cons, call, Option.bind_some, fed]; rfl, final,
        fun _ => idle (Or.inr mode)⟩

include accepted in
/-- **The chunks after the opening one deliver the image.** -/
theorem receiving_run (chunks : List (List UInt8))
    (sizes : ∀ chunk ∈ chunks, chunk.length ≤ consolePollSize) (st : InlineData)
    (earlier : List (List UInt8)) (before taken : List UInt8)
    (split : Rfc4648.encode image = taken ++ chunks.flatten)
    (receiving : st.Receiving png earlier before image taken) :
    ∃ last codes, feed (inlineDataReceive png) st chunks = some (last, codes) ∧
      (last.Receiving png earlier before image (Rfc4648.encode image) ∨
        chunks ≠ [] ∧ last.processingPng = false ∧ last.Delivered earlier before image []) := by
  induction chunks generalizing st taken with
  | nil =>
      rw [List.flatten_nil, List.append_nil] at split
      rw [split]
      exact ⟨st, [], rfl, Or.inl receiving⟩
  | cons chunk chunks ih =>
      obtain ⟨next, call, further⟩ := receiving_step png accepted st earlier before taken chunk
        chunks.flatten (sizes chunk List.mem_cons_self) (by simpa using split) receiving
      rcases further with going | ⟨mode, delivered⟩
      · obtain ⟨last, codes, fed, final⟩ := ih (fun other member => sizes other
          (List.mem_cons_of_mem _ member)) next (taken ++ chunk) (by simpa using split) going
        exact ⟨last, 1 :: codes, by rw [feed_cons, call, Option.bind_some, fed]; rfl,
          final.imp_right fun done => ⟨List.cons_ne_nil _ _, done.2⟩⟩
      · obtain ⟨last, codes, fed, final, idle⟩ :=
          delivered_run png chunks next earlier before delivered
        exact ⟨last, 1 :: codes, by rw [feed_cons, call, Option.bind_some, fed]; rfl,
          Or.inr ⟨List.cons_ne_nil _ _, idle (Or.inr mode), final⟩⟩

end Image

end Hackterm
