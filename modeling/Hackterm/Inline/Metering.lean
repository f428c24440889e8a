import Hackterm.Base64.RoundTrip
import Hackterm.Inline.Calls

/-! # Bytes are paid for by letters

However libpng answers and whatever the text is, every byte handed to the reader
is paid for by the base64 letters received, eight bits of them a byte, and the
thirteen letters of the magic word that opened the transfer pay for none. A state
is *metered* by a budget of bits when its count of handed bytes respects this
(`Hackterm.InlineData.Metered`); a chunk raises the budget by the bits of its
letters (`Hackterm.feed_metered`).
-/

namespace Hackterm

open Streaming

/-- The bits the thirteen letters of the magic word would carry. -/
def magicBits : Nat := 78

/-- Beyond the `start` bytes handed over before, the letters of the budget pay for
the bytes handed over since and for the text that is still buffered. -/
structure InlineData.Metered (start budget : Nat) (st : InlineData) : Prop where
  idle : st.processingPng = false →
    st.handedData.length = start ∧ 6 * letters st.buffer.contents ≤ budget ∨
      8 * st.handedData.length + magicBits + 6 * letters st.buffer.contents ≤ 8 * start + budget
  table : st.processingPng = true → st.base64.lookup = base64Table
  drained : st.processingPng = true → st.buffer = Window.empty
  busy : st.processingPng = true →
    8 * st.handedData.length + magicBits + st.base64.pending.length ≤ 8 * start + budget

theorem letters_append (front back : List UInt8) :
    letters (front ++ back) = letters front + letters back :=
  List.countP_append

theorem letters_le_of_suffix {suffix text : List UInt8} (ends : suffix <:+ text) :
    letters suffix ≤ letters text :=
  ends.sublist.countP_le

theorem letters_le_length (text : List UInt8) : letters text ≤ text.length :=
  List.countP_le_length

theorem letters_inlineMagic : letters inlineMagic = 13 := by decide

/-- The text behind a found magic word has thirteen letters less than the buffer. -/
theorem letters_behind_magic (buffer : List UInt8) (pos : Nat)
    (found : bufferSearch buffer inlineMagic = some pos) :
    13 + letters (buffer.drop (pos + inlineMagic.length)) ≤ letters buffer := by
  obtain ⟨_, ⟨back, here⟩, _⟩ := (bufferSearch_eq_some_iff _ _ _).mp found
  have behind : buffer.drop (pos + inlineMagic.length) = back := by
    rw [← List.drop_drop, ← here, List.drop_left]
  have inside := letters_le_of_suffix (List.drop_suffix pos buffer)
  rw [← here, letters_append, letters_inlineMagic] at inside
  rwa [behind]

/-- One chunk of a transfer: it is dropped, or what it decodes to is handed over. -/
theorem receiveImage_cases (png : Libpng) (st next : InlineData) (data : List UInt8) (code : Nat)
    (call : receiveImage png st data = some (next, code)) :
    (st.fileEnd = true ∧ next = st.setProcessingPng false) ∨
      ∃ decoded, base64Decode st.base64 data = some (next.base64, decoded) ∧
        next.buffer = st.buffer ∧ next.handedData = st.handedData ++ decoded.output ∧
        next.readers.flatten.length ≤ st.readers.flatten.length + decoded.output.length := by
  cases running : st.fileEnd with
  | true =>
      rw [receiveImage, running, if_pos rfl] at call
      exact Or.inl ⟨rfl, (Prod.mk.inj (Option.some.inj call)).1.symm⟩
  | false =>
      obtain ⟨base64, decoded, decodes, -, rfl⟩ := receiveImage_received running call
      obtain ⟨sameDecoder, sameBuffer, _, record, volume⟩ :=
        handOver_spec png { st with base64 := base64 } decoded.output
      obtain ⟨processing, fileEnd, same⟩ :=
        imageLeft_eq (handOver png { st with base64 := base64 } decoded.output) decoded
      rw [same]
      exact Or.inr ⟨decoded, decodes.trans (congrArg (fun left => some (left, decoded))
        sameDecoder.symm), sameBuffer, record, volume⟩

/-- An opened transfer hands over what stands behind the magic word, and empties the
buffer. -/
theorem openImage_cases (png : Libpng) (st next : InlineData) (pos : Nat) (code : Nat)
    (call : openImage png st pos = some (next, code)) :
    ∃ decoded,
      base64Decode (base64Init st.base64)
          (st.buffer.contents.drop (pos + inlineMagic.length)) = some (next.base64, decoded) ∧
        next.buffer = Window.empty ∧ next.handedData = st.handedData ++ decoded.output ∧
        next.readers.flatten.length ≤ st.readers.flatten.length + decoded.output.length := by
  obtain ⟨base64, decoded, decodes, -, rfl⟩ := openImage_opened call
  have fresh := initializePngReader_readers png (st.setProcessingPng true).initBase64
  obtain ⟨sameDecoder, _, _, record, volume⟩ := handOver_spec png
    { initializePngReader png (st.setProcessingPng true).initBase64 with base64 := base64 }
    decoded.output
  obtain ⟨processing, same⟩ := openingLeft_eq (handOver png
    { initializePngReader png (st.setProcessingPng true).initBase64 with base64 := base64 }
    decoded.output) decoded
  rw [same]
  exact ⟨decoded, decodes.trans (congrArg (fun left => some (left, decoded)) sameDecoder.symm), rfl,
    record, volume.trans (Nat.add_le_add_right (congrArg List.length fresh).le _)⟩

section Metered

variable (png : Libpng) {st next : InlineData} {data : List UInt8} {code start budget : Nat}

/-- A metered state has handed over nothing, or paid for a magic word as well. -/
theorem InlineData.Metered.total (metered : st.Metered start budget) :
    st.handedData.length = start ∨
      8 * st.handedData.length + magicBits ≤ 8 * start + budget := by
  cases mode : st.processingPng with
  | false =>
      rcases metered.idle mode with ⟨same, _⟩ | paid
      · exact Or.inl same
      · exact Or.inr (by omega)
  | true =>
      have paid := metered.busy mode
      exact Or.inr (by omega)

/-- With an empty buffer and a freshly counted decoder, paying once pays in both modes. -/
theorem InlineData.Metered.of_paid (table : st.base64.lookup = base64Table)
    (drained : st.buffer = Window.empty)
    (paid : 8 * st.handedData.length + magicBits + st.base64.pending.length ≤ 8 * start + budget) :
    st.Metered start budget := by
  refine ⟨fun _ => Or.inr ?_, fun _ => table, fun _ => drained, fun _ => paid⟩
  rw [drained, Window.contents_empty, letters, List.countP_nil]
  omega

theorem receiveImage_metered (processing : st.processingPng = true)
    (metered : st.Metered start budget) (call : receiveImage png st data = some (next, code)) :
    next.Metered start (budget + 6 * letters data) := by
  have paid := metered.busy processing
  have table := metered.table processing
  have drained := metered.drained processing
  rcases receiveImage_cases png st next data code call with
    ⟨_, rfl⟩ | ⟨decoded, decodes, sameBuffer, record, _⟩
  · exact .of_paid table drained (paid.trans (by omega))
  · obtain ⟨kept, bits⟩ := base64Decode_bits _ _ table _ _ decodes
    refine .of_paid kept (sameBuffer.trans drained) ?_
    rw [record, List.length_append]
    omega

/-- The budget of a call on text only has to cover what the buffer still holds. -/
theorem receiveText_metered (idle : st.processingPng = false)
    (covered : let pushed := letters (st.buffer.pushAll data).contents
      st.handedData.length = start ∧ 6 * pushed ≤ budget ∨
        8 * st.handedData.length + magicBits + 6 * pushed ≤ 8 * start + budget)
    (call : receiveText png st data = some (next, code)) : next.Metered start budget := by
  obtain ⟨font, same⟩ := receiveText_eq png st data
  rw [same] at call
  split at call
  · simp only [Option.some.injEq, Prod.mk.injEq] at call
    rw [← call.1]
    have mode : ((st.setFileEnd false).bufferPush data).processingPng = false := idle
    exact ⟨fun _ => covered, by simp [mode], by simp [mode], by simp [mode]⟩
  · rename_i pos found
    obtain ⟨decoded, decodes, drained, record, _⟩ := openImage_cases png _ _ _ _ call
    obtain ⟨table, bits⟩ := base64Decode_bits _ _ rfl _ _ decodes
    have behind := letters_behind_magic _ pos found
    refine .of_paid table drained ?_
    rw [pending_base64Init, List.length_nil] at bits
    rw [record, List.length_append]
    dsimp only [InlineData.handedData, InlineData.bufferPush, InlineData.setFileEnd, magicBits]
      at covered behind bits ⊢
    omega

/-- A chunk raises the budget by the bits of its letters. -/
theorem inlineDataReceive_metered (metered : st.Metered start budget)
    (call : inlineDataReceive png st data = some (next, code)) :
    next.Metered start (budget + 6 * letters data) := by
  unfold inlineDataReceive at call
  split at call
  · rename_i processing
    exact receiveImage_metered png processing metered call
  · rename_i idle
    have mode : st.processingPng = false := by simpa using idle
    refine receiveText_metered png mode ?_ call
    have kept : letters (st.buffer.pushAll data).contents ≤
        letters st.buffer.contents + letters data := by
      rw [Window.pushAll_contents, ← letters_append]
      exact letters_le_of_suffix (rtake_suffix _ _)
    rcases metered.idle mode with ⟨same, covered⟩ | covered
    · exact Or.inl ⟨same, by omega⟩
    · exact Or.inr (by omega)

/-- The bytes the readers were given were handed over. -/
theorem inlineDataReceive_volume (call : inlineDataReceive png st data = some (next, code)) :
    next.readers.flatten.length + st.handedData.length ≤
      st.readers.flatten.length + next.handedData.length := by
  unfold inlineDataReceive at call
  split at call
  · rcases receiveImage_cases png st next data code call with
      ⟨_, rfl⟩ | ⟨decoded, _, _, record, volume⟩
    · exact le_rfl
    · rw [record, List.length_append]
      omega
  · obtain ⟨font, same⟩ := receiveText_eq png st data
    rw [same] at call
    split at call
    · simp only [Option.some.injEq, Prod.mk.injEq] at call
      rw [← call.1]
      rfl
    · rename_i pos found
      obtain ⟨decoded, _, _, record, volume⟩ := openImage_cases png _ _ _ _ call
      rw [record, List.length_append]
      dsimp only [InlineData.handedData, InlineData.readers, InlineData.bufferPush,
        InlineData.setFileEnd] at volume ⊢
      omega

/-- **A run is metered by the letters received**, and its readers by what was
handed over. -/
theorem feed_metered (chunks : List (List UInt8)) (st last : InlineData) (budget : Nat)
    (codes : List Nat) (metered : st.Metered start budget)
    (fed : feed (inlineDataReceive png) st chunks = some (last, codes)) :
    last.Metered start (budget + 6 * letters chunks.flatten) ∧
      last.readers.flatten.length + st.handedData.length ≤
        st.readers.flatten.length + last.handedData.length := by
  induction chunks generalizing st budget codes with
  | nil =>
      simp only [feed_nil, Option.some.injEq, Prod.mk.injEq] at fed
      rw [← fed.1]
      exact ⟨metered, le_rfl⟩
  | cons chunk chunks ih =>
      rw [feed_cons] at fed
      obtain ⟨⟨next, code⟩, call, rest⟩ := Option.bind_eq_some_iff.mp fed
      obtain ⟨⟨final, others⟩, later, same⟩ := Option.map_eq_some_iff.mp rest
      simp only [Prod.mk.injEq] at same
      obtain ⟨reached, volume⟩ := ih next _ others (inlineDataReceive_metered png metered call)
        (by rw [later, same.1])
      have step := inlineDataReceive_volume png call
      rw [List.flatten_cons, letters_append, Nat.mul_add, ← Nat.add_assoc]
      exact ⟨reached, by omega⟩

end Metered

end Hackterm
