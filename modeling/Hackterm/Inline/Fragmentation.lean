import Hackterm.Inline.Delivery

/-! # One image, cut anywhere

A stream of text with one inline image in it is cut into chunks. Where the cuts
fall does not matter, with one exception: the chunk with the first byte of the
base64 text must bring at most 5462 bytes of it, unless the whole image has at
most 4096 bytes (`Hackterm.inline_fragmentation`).
-/

namespace Hackterm

open Streaming

/-- No image is being received, the buffer is empty and `base64_init` was called. -/
structure InlineData.Idle (st : InlineData) : Prop where
  waiting : st.processingPng = false
  drained : st.buffer = Window.empty
  decoder : st.base64.lookup = base64Table ∧ st.base64.bitPos = 0

/-- The run over the chunks is defined, and the buffers it hands over are the image. -/
def Delivers (png : Libpng) (st : InlineData) (chunks : List (List UInt8))
    (image : List UInt8) : Prop :=
  ∃ last codes, feed (inlineDataReceive png) st chunks = some (last, codes) ∧
    last.handedData = st.handedData ++ image

/-- **Fragmentation of an inline image.** A stream with one image in it, cut into
chunks of the sizes that `console_poll` reads, delivers the image if and only if
the share of its base64 text in the opening chunk fits the array of that call. -/
theorem inline_fragmentation (png : Libpng) (created : ∀ count, png.createReadStruct count = true)
    (st : InlineData) (idle : st.Idle) (front image : List UInt8)
    (plain : ¬ Occurs inlineMagic front) (accepted : png.Accepts image)
    (chunks : List (List UInt8))
    (sizes : ∀ chunk ∈ chunks, 1 ≤ chunk.length ∧ chunk.length ≤ consolePollSize)
    (stream : chunks.flatten = front ++ inlineMagic ++ Rfc4648.encode image) :
    Delivers png st chunks image ↔ OpeningFits image (front ++ inlineMagic).length chunks := by
  have plainBehind : ¬ Occurs inlineMagic (st.buffer.contents ++ front) := by
    rwa [idle.drained, Window.contents_empty, List.nil_append]
  constructor
  · rintro ⟨last, codes, fed, record⟩
    by_contra large
    have present : image ≠ [] := by
      rintro rfl
      exact large (Or.inl (Nat.zero_le _))
    have less := (transfer_lost png st idle.waiting front plainBehind present chunks stream large
      last codes fed).1
    rw [record, List.length_append] at less
    omega
  · intro fits
    by_cases present : image ≠ []
    · obtain ⟨last, codes, fed, record, _⟩ := transfer_delivered png st idle.waiting front
        plainBehind present chunks stream accepted created (fun chunk member =>
          (sizes chunk member).2) fits
      exact ⟨last, codes, fed, record⟩
    · obtain rfl : image = [] := by simpa using present
      have held : st.buffer.contents = st.buffer.contents.rtake bufferSize :=
        (rtake_of_length_le _ _ st.buffer.bounded).symm
      obtain ⟨last, codes, fed, _, _, record, _⟩ := waiting_run png (st.buffer.contents ++ front)
        plainBehind chunks st idle.waiting _ held ⟨[], by
          rw [stream, show Rfc4648.encode [] = [] from rfl]
          simp⟩
      exact ⟨last, codes, fed, by rw [record, List.append_nil]⟩

/-- A PNG image of one grey pixel, with a further chunk behind its header. -/
def pixelPng (comment : List UInt8) : List UInt8 :=
  [137, 80, 78, 71, 13, 10, 26, 10, 0, 0, 0, 13, 73, 72, 68, 82, 0, 0, 0, 1, 0, 0, 0, 1, 8, 0, 0,
    0, 0, 58, 126, 155, 85] ++ comment ++
  [0, 0, 0, 10, 73, 68, 65, 84, 120, 218, 99, 248, 15, 0, 1, 1, 1, 0, 28, 176, 140, 153,
    0, 0, 0, 0, 73, 69, 78, 68, 174, 66, 96, 130]

/-- A `tEXt` chunk with a comment of 4096 spaces. -/
def longComment : List UInt8 :=
  [0, 0, 16, 8, 116, 69, 88, 116, 67, 111, 109, 109, 101, 110, 116, 0] ++
    List.replicate 4096 32 ++ [151, 137, 60, 212]

theorem length_pixelPng (comment : List UInt8) :
    (pixelPng comment).length = 67 + comment.length := by
  rw [pixelPng, List.length_append, List.length_append]
  simp only [List.length_cons, List.length_nil]
  omega

theorem length_longComment : longComment.length = 4116 := by
  rw [longComment, List.length_append, List.length_append, List.length_replicate]
  rfl

/-- The PNG library on an image of so many bytes whose first `IDAT` header ends after
so many bytes: the header is complete there, and the image at its last byte. -/
def libpngOn (header size : Nat) : Libpng where
  createReadStruct _ := true
  callback given _ :=
    if given.length + 1 = size then some .endCallback
    else if given.length + 1 = header then some .infoCallback else none

theorem libpngOn_accepts (header : Nat) (image : List UInt8) :
    (libpngOn header image.length).Accepts image := by
  rintro front byte back rfl
  simp only [libpngOn, List.length_append, List.length_cons]
  refine ⟨by split_ifs <;> simp, fun ends => ?_⟩
  by_cases last : front.length + 1 = front.length + (back.length + 1)
  · rw [← List.length_eq_zero_iff]
    omega
  · rw [if_neg last] at ends
    split_ifs at ends
    cases ends

theorem inlineStatic_idle : inlineStatic.Idle := ⟨rfl, rfl, rfl, rfl⟩

/-- A small image in three chunks, one cut being inside the magic word and one inside
the base64 text. -/
theorem inline_fragmentation_pixel :
    let image := pixelPng []
    let text := inlineMagic ++ Rfc4648.encode image
    let chunks := [CString.ascii "$ " ++ text.take 5, (text.drop 5).take 9, text.drop 14]
    Delivers (libpngOn 41 image.length) inlineStatic chunks image ↔
      OpeningFits image (CString.ascii "$ " ++ inlineMagic).length chunks :=
  inline_fragmentation (libpngOn 41 (pixelPng []).length) (fun _ => rfl) inlineStatic
    inlineStatic_idle (CString.ascii "$ ") (pixelPng []) (not_occurs_of_length_lt (by decide))
    (libpngOn_accepts 41 _) _ (by decide +kernel) (by decide +kernel)

/-- An image of 4183 bytes that comes in one chunk with its magic word is not
delivered: decoding it overruns the array of that call. -/
theorem inline_fragmentation_overrun :
    let image := pixelPng longComment
    let png := libpngOn (41 + longComment.length) image.length
    let chunks := [inlineMagic ++ Rfc4648.encode image]
    (∀ count, png.createReadStruct count = true) ∧ inlineStatic.Idle ∧ ¬ Occurs inlineMagic [] ∧
      png.Accepts image ∧
      (∀ chunk ∈ chunks, 1 ≤ chunk.length ∧ chunk.length ≤ consolePollSize) ∧
      chunks.flatten = [] ++ inlineMagic ++ Rfc4648.encode image ∧
      ¬ Delivers png inlineStatic chunks image := by
  intro image png chunks
  have size : image.length = 4183 := by
    rw [length_pixelPng, length_longComment]
  have text : (Rfc4648.encode image).length = 5580 := by
    rw [Rfc4648.encode, List.length_append, List.length_map, Rfc4648.length_sextets,
      List.length_replicate, Rfc4648.padding, size]
  have stream : chunks.flatten = [] ++ inlineMagic ++ Rfc4648.encode image := by
    rw [List.flatten_singleton, List.nil_append]
  have plain : ¬ Occurs inlineMagic [] := not_occurs_of_length_lt (by decide)
  have present : image ≠ [] := by
    rw [← List.length_pos_iff]
    omega
  refine ⟨fun _ => rfl, inlineStatic_idle, plain, libpngOn_accepts _ _, ?_, stream, ?_⟩
  · intro chunk member
    rw [List.mem_singleton.mp member, List.length_append, text, length_inlineMagic, consolePollSize]
    omega
  · rintro ⟨last, codes, fed, record⟩
    have large : ¬ OpeningFits image ([] ++ inlineMagic).length chunks := by
      have behind : openingShare ([] ++ inlineMagic).length chunks = Rfc4648.encode image := by
        rw [List.nil_append, openingShare, if_neg (by rw [List.length_append]; omega),
          List.drop_left]
      rw [OpeningFits, behind, size, text]
      omega
    have less := (transfer_lost png inlineStatic rfl [] plain present chunks stream large last codes
      fed).1
    rw [record, List.length_append] at less
    omega

end Hackterm
