import Hackterm.Base64.Decode
import Hackterm.Nunifont
import Hackterm.Streaming.Window

/-! # Inline data in the text stream

Text from the host is searched for a magic word in a window of the latest bytes.
The text behind the word is a base64 image, decoded as it arrives and handed to
the progressive PNG reader (`Hackterm.inlineDataReceive`). The reader reports the
end of the image through a callback, which may fire inside any call that hands it
bytes. Two further words in the same window set the font size.
-/

namespace Hackterm

open Streaming

/-- The callbacks of the PNG reader that touch the state of a transfer, and its
way out of a call on an error. `row_callback` only paints. -/
inductive PngCallback where
  | infoCallback
  | endCallback
  | longjmp
deriving DecidableEq

/-- The PNG library. Whether a reader can be allocated may depend on how many
were before, and which callback a byte causes depends on all bytes given to the
reader up to it. -/
structure Libpng where
  createReadStruct : Nat → Bool
  callback : List UInt8 → UInt8 → Option PngCallback

/-- `BUFFERSIZE`. -/
def bufferSize : Nat := 10241

/-- `inline_magic`. -/
def inlineMagic : List UInt8 := CString.ascii "HTERMFILEXFER"

/-- The state of the transfers. `reader` is `Gpng_ptr`, with the bytes given to the
reader so far. `finished` keeps the bytes given to the earlier readers and
`handed` the buffers handed to `inlinepng_process_data`, latest first; the code
does not look at either. -/
structure InlineData where
  base64 : Base64
  processingPng : Bool
  fileEnd : Bool
  reader : Option (List UInt8)
  finished : List (List UInt8)
  handed : List (List UInt8)
  buffer : Window UInt8 bufferSize
  nunifont : Nunifont

/-- The state before any text. -/
def inlineStatic : InlineData where
  base64 := base64Init base64Static
  processingPng := false
  fileEnd := false
  reader := none
  finished := []
  handed := []
  buffer := Window.empty
  nunifont := ⟨8, 16, 0⟩

namespace InlineData

/-- `processing_png = on`. -/
def setProcessingPng (on : Bool) (st : InlineData) : InlineData := { st with processingPng := on }

/-- `file_end = on`. -/
def setFileEnd (on : Bool) (st : InlineData) : InlineData := { st with fileEnd := on }

/-- `base64_init` and `base64_decode` on the static storage of the decoder. -/
def initBase64 (st : InlineData) : InlineData := { st with base64 := base64Init st.base64 }

@[inherit_doc initBase64]
def decodeBase64 (st : InlineData) (text : List UInt8) : Option (InlineData × Decoded) :=
  (base64Decode st.base64 text).map fun call => ({ st with base64 := call.1 }, call.2)

/-- `buffer_push`. -/
def bufferPush (data : List UInt8) (st : InlineData) : InlineData :=
  { st with buffer := st.buffer.pushAll data }

/-- `buffer_clear`. -/
def bufferClear (st : InlineData) : InlineData := { st with buffer := Window.empty }

end InlineData

/-- `png_destroy_read_struct`. -/
def pngDestroyReadStruct (st : InlineData) : InlineData :=
  { st with reader := none, finished := st.reader.toList ++ st.finished }

/-- `png_cleanup`, which is all `end_callback` does. -/
def pngCleanup (st : InlineData) : InlineData := (pngDestroyReadStruct st).setFileEnd true

/-- `png_process_data`: the reader takes the bytes in order. It is gone after
`end_callback` and after a jump to the error branch of `inlinepng_process_data`,
and the rest of the buffer is then not looked at. That it returns then is an assumption:
behind `end_callback` `libpng` still touches the structures that were freed there. -/
def pngProcessData (png : Libpng) (st : InlineData) : List UInt8 → InlineData
  | [] => st
  | byte :: data =>
      match st.reader with
      | none => st
      | some given =>
          let st := { st with reader := some (given ++ [byte]) }
          match png.callback given byte with
          | none => pngProcessData png st data
          | some .infoCallback => pngProcessData png (st.setFileEnd false) data
          | some .endCallback => pngCleanup st
          | some .longjmp => pngDestroyReadStruct st

/-- `inlinepng_process_data`. -/
def inlinepngProcessData (png : Libpng) (st : InlineData) (data : List UInt8) : InlineData :=
  let st := { st with handed := data :: st.handed }
  if st.reader.isNone then pngCleanup st else pngProcessData png st data

/-- `inlinepng_process_data` on what a call of `base64_decode` wrote, if it wrote
anything. -/
def handOver (png : Libpng) (st : InlineData) (decoded : List UInt8) : InlineData :=
  if decoded = [] then st else inlinepngProcessData png st decoded

/-- `initialize_png_reader`. A reader that is still allocated is left behind. -/
def initializePngReader (png : Libpng) (st : InlineData) : InlineData :=
  let finished := st.reader.toList ++ st.finished
  { st with
    reader := if png.createReadStruct finished.length then some [] else none
    finished := finished }

/-- `buffer_search`. The length of the pattern is subtracted from the size of the
buffer, and the offsets below the difference are tried. -/
def bufferSearch (buffer v : List UInt8) : Option Nat :=
  if buffer.length < v.length then none
  else (List.range (buffer.length - v.length)).find? fun n => v.isPrefixOf (buffer.drop n)

/-- A size command in the buffer is obeyed, unless it stands at the first byte. -/
def obeySize (word : List UInt8) (size : Int) (st : InlineData) : InlineData :=
  match bufferSearch st.buffer.contents word with
  | some npos => if 0 < npos then { st with nunifont := nunifontSize size st.nunifont } else st
  | none => st

/-- The size commands `HTERMFNORMAL` and `HTERMFDOUBLE`, in the order they are
looked for. -/
def sizeCommands (st : InlineData) : InlineData :=
  obeySize (CString.ascii "HTERMFDOUBLE") 32 (obeySize (CString.ascii "HTERMFNORMAL") 16 st)

/-- `inline_data_receive` while `processing_png` is set. Writing more than the
10240 bytes of the array on the stack is undefined. -/
def receiveImage (png : Libpng) (st : InlineData) (data : List UInt8) :
    Option (InlineData × Nat) :=
  if st.fileEnd then some (st.setProcessingPng false, 1)
  else do
    let (st, decoded) ← st.decodeBase64 data
    if 10240 < decoded.output.length then none
    else
      let st := handOver png st decoded.output
      if decoded.output ≠ [] ∧ st.fileEnd then some (st.setProcessingPng false, 1)
      else if decoded.failflag then some ((st.setFileEnd true).setProcessingPng false, 2)
      else if st.fileEnd then some (st.setProcessingPng false, 1)
      else some (st, 1)

/-- `inline_data_receive` from the place where the magic word was found. The array
on the stack has 4096 bytes. -/
def openImage (png : Libpng) (st : InlineData) (pos : Nat) : Option (InlineData × Nat) := do
  let st := initializePngReader png (st.setProcessingPng true).initBase64
  let (st, decoded) ← st.decodeBase64 (st.buffer.contents.drop (pos + inlineMagic.length))
  if 4096 < decoded.output.length then none
  else
    let st := (handOver png st decoded.output).bufferClear
    if decoded.failflag then some (st.setProcessingPng false, 0) else some (st, 2)

/-- `inline_data_receive` while no image is being received. -/
def receiveText (png : Libpng) (st : InlineData) (data : List UInt8) :
    Option (InlineData × Nat) :=
  let st := sizeCommands ((st.setFileEnd false).bufferPush data)
  match bufferSearch st.buffer.contents inlineMagic with
  | none => some (st, 0)
  | some pos => openImage png st pos

/-- `inline_data_receive`: the state after a chunk of text, and the value returned. -/
def inlineDataReceive (png : Libpng) (st : InlineData) (data : List UInt8) :
    Option (InlineData × Nat) :=
  if st.processingPng then receiveImage png st data else receiveText png st data

end Hackterm
