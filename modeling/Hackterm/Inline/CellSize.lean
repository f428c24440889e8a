import Hackterm.Inline.Calls

/-! # Size commands in the text stream

Which cell size a chunk of text commands follows from the window it is pushed into
(`Hackterm.commandedSize`). Nothing else in the reception of a chunk touches the
font (`Hackterm.inlineDataReceive_nunifont`).
-/

namespace Hackterm

/-- The size a chunk of text commands, if it commands any: the double size goes before
the normal size. Text is not searched while an image is being received. -/
def commandedSize (st : InlineData) (data : List UInt8) : Option Int :=
  if st.processingPng then none
  else if (st.bufferPush data).obeys (CString.ascii "HTERMFDOUBLE") then some 32
  else if (st.bufferPush data).obeys (CString.ascii "HTERMFNORMAL") then some 16
  else none

/-- The font under a commanded size. -/
def commandedFont (font : Nunifont) (size : Option Int) : Nunifont :=
  size.elim font fun size => nunifontSize size font

theorem handOver_nunifont (png : Libpng) (st : InlineData) (data : List UInt8) :
    (handOver png st data).nunifont = st.nunifont := by
  unfold handOver
  split
  · rfl
  · obtain ⟨reader, finished, fileEnd, same, -⟩ := inlinepngProcessData_eq png st data
    rw [same]

theorem receiveImage_nunifont {png : Libpng} {st after : InlineData} {data : List UInt8}
    {value : Nat} (received : receiveImage png st data = some (after, value)) :
    after.nunifont = st.nunifont := by
  cases running : st.fileEnd with
  | true =>
      rw [receiveImage, running, if_pos rfl] at received
      obtain ⟨rfl, -⟩ := Prod.mk.inj (Option.some.inj received)
      rfl
  | false =>
      obtain ⟨base64, decoded, -, -, rfl⟩ := receiveImage_received running received
      obtain ⟨processing, fileEnd, same⟩ :=
        imageLeft_eq (handOver png { st with base64 := base64 } decoded.output) decoded
      rw [same]
      exact handOver_nunifont png _ _

theorem openImage_nunifont {png : Libpng} {st after : InlineData} {pos value : Nat}
    (opened : openImage png st pos = some (after, value)) : after.nunifont = st.nunifont := by
  obtain ⟨base64, decoded, -, -, rfl⟩ := openImage_opened opened
  obtain ⟨processing, same⟩ := openingLeft_eq (handOver png
    { initializePngReader png (st.setProcessingPng true).initBase64 with base64 := base64 }
    decoded.output) decoded
  rw [same]
  exact handOver_nunifont png _ _

/-- The two size commands leave the commanded font. -/
theorem sizeCommands_nunifont (st : InlineData) (data : List UInt8)
    (text : st.processingPng = false) :
    (sizeCommands ((st.setFileEnd false).bufferPush data)).nunifont =
      commandedFont st.nunifont (commandedSize st data) := by
  have double : ∀ font, InlineData.obeys
      { (st.setFileEnd false).bufferPush data with nunifont := font }
      (CString.ascii "HTERMFDOUBLE") = (st.bufferPush data).obeys (CString.ascii "HTERMFDOUBLE") :=
    fun _ => rfl
  have normal : ((st.setFileEnd false).bufferPush data).obeys (CString.ascii "HTERMFNORMAL") =
      (st.bufferPush data).obeys (CString.ascii "HTERMFNORMAL") := rfl
  rw [sizeCommands, obeySize_eq, obeySize_eq, commandedSize, text, normal]
  cases (st.bufferPush data).obeys (CString.ascii "HTERMFNORMAL") with
  | true =>
      rw [if_pos rfl, double]
      cases (st.bufferPush data).obeys (CString.ascii "HTERMFDOUBLE") with
      | true => rfl
      | false => rfl
  | false =>
      rw [if_neg Bool.false_ne_true]
      rw [show ((st.setFileEnd false).bufferPush data).obeys (CString.ascii "HTERMFDOUBLE") = _ from
        double st.nunifont]
      cases (st.bufferPush data).obeys (CString.ascii "HTERMFDOUBLE") with
      | true => rfl
      | false => rfl

/-- **Cell size and text.** A chunk changes the font as it commands, and in no other way. -/
theorem inlineDataReceive_nunifont {png : Libpng} {st after : InlineData} {data : List UInt8}
    {value : Nat} (received : inlineDataReceive png st data = some (after, value)) :
    after.nunifont = commandedFont st.nunifont (commandedSize st data) := by
  unfold inlineDataReceive at received
  cases processing : st.processingPng with
  | true =>
      rw [processing, if_pos rfl] at received
      rw [receiveImage_nunifont received, commandedSize, if_pos processing]
      rfl
  | false =>
      rw [processing, if_neg Bool.false_ne_true] at received
      rw [← sizeCommands_nunifont st data processing]
      unfold receiveText at received
      dsimp only at received
      split at received
      · obtain ⟨rfl, -⟩ := Prod.mk.inj (Option.some.inj received)
        rfl
      · exact openImage_nunifont received

end Hackterm
