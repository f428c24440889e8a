import Hackterm.Inline.Metering
import Hackterm.Inline.Transfer

/-! # When an image is delivered

Whether an image arrives is decided by the chunk that brings the first byte of its
base64 text. If the share of the text in that chunk decodes into the array of the
call, the image arrives (`Hackterm.transfer_delivered`). If not, the call overruns
the array, or the chunk has pushed the magic word out of the buffer, and the rest
cannot pay for the image (`Hackterm.transfer_lost`).
-/

namespace Hackterm

open Streaming

/-- The share of the image in the opening chunk fits the array of that call. -/
def OpeningFits (image : List UInt8) (skip : Nat) (chunks : List (List UInt8)) : Prop :=
  image.length ≤ 4096 ∨ (openingShare skip chunks).length ≤ 5462

instance (image : List UInt8) (skip : Nat) (chunks : List (List UInt8)) :
    Decidable (OpeningFits image skip chunks) :=
  inferInstanceAs (Decidable (_ ∨ _))

theorem letters_encode (image : List UInt8) :
    6 * letters (Rfc4648.encode image) ≤ 8 * image.length + 4 := by
  have padding : letters (List.replicate (Rfc4648.padding image) Rfc4648.pad) = 0 := by
    rw [letters, List.countP_replicate, if_neg (by decide)]
  have spelled := letters_le_length ((Rfc4648.sextets image).map Rfc4648.letter)
  rw [Rfc4648.encode, letters_append, padding]
  rw [List.length_map, Rfc4648.length_sextets] at spelled
  omega

theorem length_encode_le (image : List UInt8) :
    3 * (Rfc4648.encode image).length ≤ 4 * image.length + 8 := by
  rw [Rfc4648.encode, List.length_append, List.length_map, Rfc4648.length_sextets,
    List.length_replicate, Rfc4648.padding]
  omega

theorem encode_ne_nil (image : List UInt8) (present : image ≠ []) : Rfc4648.encode image ≠ [] := by
  intro empty
  have spelled := congrArg List.length empty
  have positive := List.length_pos_iff.mpr present
  rw [Rfc4648.encode, List.length_append, List.length_map, Rfc4648.length_sextets,
    List.length_nil] at spelled
  omega

/-- A magic word without its first letter pays for no image. -/
theorem underpaid (image : List UInt8) (present : image ≠ []) (start : Nat) (last : InlineData)
    (budget : Nat) (short : budget ≤ 6 * (12 + letters (Rfc4648.encode image)))
    (metered : last.Metered start budget) :
    last.handedData.length < start + image.length := by
  have positive := List.length_pos_iff.mpr present
  have spelled := letters_encode image
  rcases metered.total with same | paid
  · omega
  · rw [magicBits] at paid
    omega

/-- A text that starts inside the magic word has at most twelve letters of it. -/
theorem letters_behind_cut (text behind : List UInt8)
    (cut : ∃ dropped, dropped ≠ [] ∧ dropped ++ text = inlineMagic ++ behind) :
    letters text ≤ 12 + letters behind := by
  obtain ⟨dropped, present, split⟩ := cut
  obtain ⟨first, others, rfl⟩ := List.exists_cons_of_ne_nil present
  have tail := congrArg List.tail split
  rw [List.cons_append, List.tail_cons, List.tail_append_of_ne_nil (by decide)] at tail
  have fewer := letters_le_of_suffix (tail ▸ List.suffix_append others text)
  rw [letters_append, show letters inlineMagic.tail = 12 by decide] at fewer
  exact fewer

/-- A window with room for the magic word and the share finds the word in front of it. -/
theorem window_found (text share : List UInt8) (plain : ¬ Occurs inlineMagic text)
    (some : share ≠ []) (room : (inlineMagic ++ share).length ≤ bufferSize) :
    ∃ kept, (text ++ (inlineMagic ++ share)).rtake bufferSize = kept ++ inlineMagic ++ share ∧
      bufferSearch (kept ++ inlineMagic ++ share) inlineMagic = Option.some kept.length := by
  refine ⟨text.rtake (bufferSize - (inlineMagic ++ share).length), ?_, ?_⟩
  · rw [rtake_append_of_le _ _ _ room, List.append_assoc]
  · exact bufferSearch_written _ inlineMagic share inlineMagic_unbordered
      (fun occurs => plain (occurs.of_suffix (rtake_suffix _ _))) some

section Transfer

variable (png : Libpng) (st : InlineData) (idle : st.processingPng = false) (front : List UInt8)
  (plain : ¬ Occurs inlineMagic (st.buffer.contents ++ front))

include idle plain in
/-- Nothing happens before the opening chunk, and its call finds the share of the
image at the end of the buffer. -/
theorem transfer_opening (before : List (List UInt8)) (part share : List UInt8)
    (joined : before.flatten ++ part = front ++ inlineMagic) (after : List (List UInt8)) :
    ∃ (middle : InlineData) (codes : List Nat), middle.processingPng = false ∧
      middle.readers = st.readers ∧ middle.handedData = st.handedData ∧
      (middle.buffer.pushAll (part ++ share)).contents =
        (st.buffer.contents ++ front ++ (inlineMagic ++ share)).rtake bufferSize ∧
      feed (inlineDataReceive png) st (before ++ (part ++ share) :: after) =
        (receiveText png middle (part ++ share)).bind fun first =>
          (feed (inlineDataReceive png) first.1 after).map fun rest =>
            (rest.1, codes ++ first.2 :: rest.2) := by
  have held : st.buffer.contents = st.buffer.contents.rtake bufferSize :=
    (rtake_of_length_le _ _ st.buffer.bounded).symm
  have early : st.buffer.contents ++ before.flatten <+:
      st.buffer.contents ++ front ++ inlineMagic :=
    ⟨part, by rw [List.append_assoc, joined, List.append_assoc]⟩
  obtain ⟨middle, codes, fed, still, readers, handed, contents⟩ := waiting_run png
    (st.buffer.contents ++ front) plain before st idle st.buffer.contents held early
  refine ⟨middle, codes, still, readers, handed, ?_, ?_⟩
  · have text : before.flatten ++ (part ++ share) = front ++ (inlineMagic ++ share) := by
      rw [← List.append_assoc, joined, List.append_assoc]
    rw [Window.pushAll_contents, contents, rtake_rtake_append, List.append_assoc, text,
      List.append_assoc]
  · rw [feed_append, fed, Option.bind_some, feed_cons, inlineDataReceive_text png _ _ still,
      Option.map_bind]
    simp only [Function.comp_def, Option.map_map]

variable {image : List UInt8} (present : image ≠ []) (chunks : List (List UInt8))
  (stream : chunks.flatten = front ++ inlineMagic ++ Rfc4648.encode image)

include idle plain present stream in
/-- **The image arrives** when its share in the opening chunk fits the array: the
buffers handed over are the image, and they went to one new reader. If the reader
ends the image, the code waits for text again, unless the opening chunk was the
last one. -/
theorem transfer_delivered (accepted : png.Accepts image)
    (created : ∀ count, png.createReadStruct count = true)
    (sizes : ∀ chunk ∈ chunks, chunk.length ≤ consolePollSize)
    (fits : OpeningFits image (front ++ inlineMagic).length chunks) :
    ∃ last codes, feed (inlineDataReceive png) st chunks = some (last, codes) ∧
      last.handedData = st.handedData ++ image ∧ last.readers = st.readers ++ [image] ∧
      (png.Ends image → last.Delivered st.readers st.handedData image [] ∧
        (last.processingPng = true ↔
          afterOpening (front ++ inlineMagic).length chunks = [])) := by
  obtain ⟨before, part, split, joined, some, whole⟩ := opening_split (front ++ inlineMagic)
    (Rfc4648.encode image) (encode_ne_nil image present) chunks stream
  unfold OpeningFits at fits
  generalize openingShare (front ++ inlineMagic).length chunks = share at *
  generalize afterOpening (front ++ inlineMagic).length chunks = after at *
  subst split
  obtain ⟨middle, codes, still, readers, handed, pushed, fed⟩ :=
    transfer_opening png st idle front plain before part share joined after
  have room : (inlineMagic ++ share).length ≤ bufferSize := by
    have text := congrArg List.length whole
    have bound := length_encode_le image
    rw [List.length_append] at text
    rw [List.length_append, length_inlineMagic, bufferSize]
    omega
  obtain ⟨kept, window, found⟩ := window_found _ share plain some room
  rw [window] at pushed
  have sizesAfter : ∀ chunk ∈ after, chunk.length ≤ consolePollSize := fun chunk member =>
    sizes chunk (List.mem_append_right _ (List.mem_cons_of_mem _ member))
  obtain ⟨font, opens⟩ := receiveText_eq png middle (part ++ share)
  rw [pushed, found] at opens
  obtain ⟨next, opening, progress⟩ := openImage_opens png accepted present created
    { (middle.setFileEnd false).bufferPush (part ++ share) with nunifont := font } rfl kept share
    after.flatten pushed whole.symm ((openingShare_fits image share _ whole.symm).mpr fits)
  change next.Receiving png middle.readers middle.handedData image share ∨
    next.processingPng = true ∧ next.Delivered middle.readers middle.handedData image after.flatten
    at progress
  rw [readers, handed] at progress
  rcases progress with receiving | ⟨on, delivered⟩
  · obtain ⟨last, others, later, final⟩ := receiving_run png accepted after sizesAfter next _ _ share
      whole.symm receiving
    refine ⟨last, codes ++ 2 :: others, ?_, ?_⟩
    · rw [fed, opens.trans opening, Option.bind_some, later]
      rfl
    · rcases final with going | ⟨more, mode, done⟩
      · have record := going.record
        have reader := going.reader
        rw [Rfc4648.decoder_run_encode] at record reader
        refine ⟨record, ?_, fun ends => absurd ends (going.further ?_)⟩
        · rw [InlineData.readers, going.finished, reader]
          rfl
        · rw [Rfc4648.decoder_run_encode]
      · exact ⟨done.record, done.readers_eq, fun _ => ⟨done, by simp [mode, more]⟩⟩
  · obtain ⟨last, others, later, done, mode⟩ := delivered_run png after next _ _ delivered
    refine ⟨last, codes ++ 2 :: others, ?_, done.record, done.readers_eq, fun _ => ⟨done, ?_⟩⟩
    · rw [fed, opens.trans opening, Option.bind_some, later]
      rfl
    · cases after with
      | nil =>
          obtain ⟨rfl, -⟩ := Prod.mk.inj (Option.some.inj later)
          simp [on]
      | cons chunk after => simp [mode (Or.inl (List.cons_ne_nil _ _))]

include idle plain present stream in
/-- **The image is lost** when its share in the opening chunk does not fit the array:
the run is undefined, or less than the image is handed over. -/
theorem transfer_lost (large : ¬ OpeningFits image (front ++ inlineMagic).length chunks)
    (last : InlineData) (codes : List Nat)
    (fed : feed (inlineDataReceive png) st chunks = some (last, codes)) :
    last.handedData.length < st.handedData.length + image.length ∧
      last.readers.flatten.length < st.readers.flatten.length + image.length := by
  obtain ⟨before, part, split, joined, some, whole⟩ := opening_split (front ++ inlineMagic)
    (Rfc4648.encode image) (encode_ne_nil image present) chunks stream
  unfold OpeningFits at large
  generalize openingShare (front ++ inlineMagic).length chunks = share at *
  generalize afterOpening (front ++ inlineMagic).length chunks = after at *
  subst split
  obtain ⟨middle, earlier, still, readers, handed, pushed, run⟩ :=
    transfer_opening png st idle front plain before part share joined after
  rw [run] at fed
  obtain ⟨⟨next, code⟩, opens, rest⟩ := Option.bind_eq_some_iff.mp fed
  obtain ⟨⟨final, others⟩, later, same⟩ := Option.map_eq_some_iff.mp rest
  obtain ⟨reached, -⟩ := Prod.mk.inj same
  dsimp only at reached later
  subst reached
  by_cases room : (inlineMagic ++ share).length ≤ bufferSize
  · -- the call finds the magic word, and overruns its array
    obtain ⟨kept, window, found⟩ := window_found _ share plain some room
    rw [window] at pushed
    obtain ⟨font, same⟩ := receiveText_eq png middle (part ++ share)
    rw [same, pushed, found] at opens
    have undefined := openImage_overflows png
      { (middle.setFileEnd false).bufferPush (part ++ share) with nunifont := font } kept share
      after.flatten pushed whole.symm (by rwa [openingShare_fits image share _ whole.symm])
    cases undefined.symm.trans opens
  · -- the magic word has left the buffer, in part or whole
    rw [rtake_append_of_ge _ _ _ (by omega)] at pushed
    have cut : letters (middle.buffer.pushAll (part ++ share)).contents ≤ 12 + letters share := by
      refine letters_behind_cut _ share ⟨(inlineMagic ++ share).take
        ((inlineMagic ++ share).length - bufferSize), ?_, ?_⟩
      · rw [Ne, List.take_eq_nil_iff, not_or, ← List.length_eq_zero_iff]
        omega
      · rw [pushed, List.rtake, List.take_append_drop]
    have metered : next.Metered middle.handedData.length (6 * (12 + letters share)) := by
      apply receiveText_metered png still _ opens
      exact Or.inl ⟨rfl, by omega⟩
    obtain ⟨paid, volume⟩ := feed_metered png after next _ _ others metered later
    have step := inlineDataReceive_volume png
      ((inlineDataReceive_text png middle (part ++ share) still).trans opens)
    rw [← Nat.mul_add, Nat.add_assoc, ← letters_append, whole] at paid
    have less := underpaid image present _ _ _ le_rfl paid
    rw [readers, handed] at step
    rw [handed] at less
    omega

end Transfer

end Hackterm
