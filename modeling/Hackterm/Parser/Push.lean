import Hackterm.Encoding.Decode
import Mathlib.Algebra.Ring.Int.Defs

/-! # The parser of the terminal and its hooks

The bytes read from the host are pushed into the parser of `libvterm`
(`Hackterm.vtermPushBytes`), which calls the hooks of the program for text, escape
sequences, CSI sequences, OSC and DCS strings (`Hackterm.HookEvent`). A string is read
as the part of the present read that starts at `string_start`; what of it came
before, in another read or in front of a byte that does not belong to it, is saved
in `strbuffer`.

The parser is set to UTF-8 when the terminal is created and stays so. Of the state
behind the parser only the decoders of text matter here: they decide how many bytes a
call for text takes, and whether its code points fit into the array of `on_text`.
-/

namespace Hackterm

/-- `enum VTermParserState`. -/
inductive VTermParserState where
  | normal
  | csi
  | osc
  | dcs
  | esc
  | escInOsc
  | escInDcs
deriving DecidableEq

/-- What `csi_handler` is called with. No leader and no intermediate bytes are null
pointers in the code. -/
structure CsiEvent where
  leader : List UInt8
  args : List Int
  intermed : List UInt8
  command : UInt8
deriving DecidableEq

/-- The calls of the hooks `text_handler`, `esc_handler`, `csi_handler`, `osc_handler`
and `dcs_handler`. -/
inductive HookEvent where
  | text (bytes : List UInt8)
  | escape (bytes : List UInt8)
  | csi (event : CsiEvent)
  | osc (command : List UInt8)
  | dcs (command : List UInt8)
deriving DecidableEq

/-- `strbuffer_len`. -/
def strbufferLen : Nat := 1024000

/-- The state of the parser and the decoders of text behind it. `strbuffer` holds the
`strbuffer_cur` bytes in use. -/
structure VTerm where
  parserState : VTermParserState
  strbuffer : List UInt8
  encodings : Encodings

/-- The terminal after `vterm_initialisation`. The screen is reset before the parser is
set to UTF-8. -/
def vtermStart : VTerm := ⟨.normal, [], encodingsStart⟩

namespace VTerm

/-- `parser_state = state`. -/
def setParserState (state : VTermParserState) (vt : VTerm) : VTerm :=
  { vt with parserState := state }

/-- `strbuffer_cur = 0`. -/
def clearStrbuffer (vt : VTerm) : VTerm := { vt with strbuffer := [] }

end VTerm

/-- `strncpy` of all bytes of an array: behind a NUL there are only NULs. -/
def strncpyAll (str : List UInt8) : List UInt8 :=
  let string := str.takeWhile (· != 0)
  string ++ List.replicate (str.length - string.length) 0

/-- `append_strbuffer`. What does not fit is dropped. -/
def appendStrbuffer (str : List UInt8) (vt : VTerm) : VTerm :=
  { vt with
    strbuffer := vt.strbuffer ++ strncpyAll (str.take (strbufferLen - vt.strbuffer.length)) }

/-- `do_control`, as far as it changes the decoders. -/
def doControl (control : UInt8) (vt : VTerm) : VTerm :=
  { vt with encodings := vt.encodings.control control }

/-- `on_escape`, as far as it changes the decoders. -/
def onEscape (bytes : List UInt8) (vt : VTerm) : VTerm :=
  { vt with encodings := vt.encodings.escape bytes }

/-- `on_text`: the decoders behind it and how many bytes it takes. The code points are written
to an array of as many cells as there are bytes, and writing more of them is undefined. -/
def onText (vt : VTerm) (bytes : List UInt8) : Option (VTerm × Nat) :=
  (decodeText vt.encodings bytes).map fun (encodings, _, eaten) =>
    ({ vt with encodings := encodings }, eaten)

/-- `CSI_ARG_MISSING`. -/
def csiArgMissing : Int := 2 ^ 31 - 1

/-- `arg | CSI_ARG_FLAG_MORE`: the bit 31 and those above it are set. -/
def csiArgMore (arg : Int) : Int := arg % 2 ^ 31 - 2 ^ 31

/-- The loop that reads the arguments: the argument being read, those still to come, and
the bytes left. A number is kept exactly where a `long` would overflow. -/
def csiArgs : Int → Nat → List UInt8 → List Int × List UInt8
  | arg, more, [] => (arg :: List.replicate more csiArgMissing, [])
  | arg, more, c :: rest =>
      if 0x30 ≤ c ∧ c ≤ 0x39 then
        csiArgs ((if arg = csiArgMissing then 0 else arg) * 10 + (c.toNat - 0x30 : Nat)) more rest
      else if c = 0x3A ∨ c = 0x3B then
        let arg := if c = 0x3A then csiArgMore arg else arg
        match more with
        | 0 => ([arg], rest)
        | more + 1 =>
            let others := csiArgs csiArgMissing more rest
            (arg :: others.1, others.2)
      else (arg :: List.replicate more csiArgMissing, c :: rest)

/-- `do_string_csi`. At most 15 bytes are kept as leader and as intermediate bytes, and
at most 16 arguments. -/
def doStringCsi (args : List UInt8) (command : UInt8) : CsiEvent :=
  let leaders := args.takeWhile fun c => 0x3C ≤ c && c ≤ 0x3F
  let leader := leaders.take 15
  let separators := (args.drop leaders.length).countP fun c => c == 0x3B || c == 0x3A
  let argcount := min (1 + separators) 16
  let read := csiArgs csiArgMissing (argcount - 1) (args.drop leader.length)
  let intermeds := read.2.takeWhile fun c => c &&& 0xF0 == 0x20
  ⟨leader, read.1, intermeds.take 15, command⟩

/-- `do_string`: the hooks called, and how many bytes of text were taken. A DCS string
that starts with `$q` is answered by the terminal itself. -/
def doString (vt : VTerm) (strFrag : List UInt8) : Option (VTerm × List HookEvent × Nat) :=
  let string := if vt.strbuffer = [] then strFrag else (appendStrbuffer strFrag vt).strbuffer
  let vt := vt.clearStrbuffer
  match vt.parserState with
  | .normal =>
      (onText vt string).map fun (vt, eaten) =>
        (vt, if eaten = 0 then [] else [.text (string.take eaten)], eaten)
  | .esc =>
      match string with
      | [c] =>
          if 0x40 ≤ c ∧ c < 0x60 then some (doControl (c + 0x40) vt, [], 0)
          else some (onEscape string vt, [.escape string], 0)
      | _ => some (onEscape string vt, [.escape string], 0)
  | .csi => string.getLast?.map fun command => (vt, [.csi (doStringCsi string.dropLast command)], 0)
  | .osc => some (vt, [.osc string], 0)
  | .dcs => some (vt, if [0x24, 0x71] <+: string then [] else [.dcs string], 0)
  | .escInOsc | .escInDcs => some (vt, [], 0)

/-- The loop of `vterm_push_bytes` in front of a byte. `stringStart` is the bytes from
`string_start` up to this byte, or none where it is the null pointer, and `skip` is
how many of the next bytes were taken as text already. -/
structure PushLoop where
  vt : VTerm
  stringStart : Option (List UInt8)
  skip : Nat

namespace PushLoop

/-- The part of the string that lies in the present read. -/
def fragment (loop : PushLoop) : List UInt8 := loop.stringStart.getD []

/-- `ENTER_STRING_STATE`. -/
def enterString (state : VTermParserState) (loop : PushLoop) : PushLoop :=
  ⟨loop.vt.setParserState state, some [], 0⟩

/-- `ENTER_NORMAL_STATE`. -/
def enterNormal (loop : PushLoop) : PushLoop := ⟨loop.vt.setParserState .normal, none, 0⟩

/-- The byte belongs to the string. -/
def extend (c : UInt8) (loop : PushLoop) : PushLoop :=
  { loop with stringStart := some (loop.fragment ++ [c]) }

/-- The string goes on behind the byte, which does not belong to it. -/
def save (loop : PushLoop) : PushLoop :=
  if loop.vt.parserState = .normal then loop
  else ⟨appendStrbuffer loop.fragment loop.vt, some [], 0⟩

/-- The string is complete. -/
def finish (strFrag : List UInt8) (loop : PushLoop) : Option (PushLoop × List HookEvent) :=
  (doString loop.vt strFrag).map fun done => (enterNormal ⟨done.1, none, 0⟩, done.2.1)

/-- A byte in the state `ESC`. -/
def escByte (c : UInt8) (loop : PushLoop) : Option (PushLoop × List HookEvent) :=
  if c = 0x50 then some (loop.enterString .dcs, [])
  else if c = 0x5B then some (loop.enterString .csi, [])
  else if c = 0x5D then some (loop.enterString .osc, [])
  else if 0x30 ≤ c ∧ c < 0x7F then loop.finish (loop.fragment ++ [c])
  else some (loop.extend c, [])

/-- A backslash or another byte behind the ESC in a string. The length of a string that
ends in front of an ESC of an earlier read comes out as -1, and the bytes behind the
read are copied. -/
def escInStringByte (state : VTermParserState) (c : UInt8) (loop : PushLoop) :
    Option (PushLoop × List HookEvent) :=
  if c = 0x5C then
    if loop.fragment = [] then none
    else finish loop.fragment.dropLast { loop with vt := loop.vt.setParserState state }
  else escByte c (loop.enterString .esc)

/-- A byte of text. When none is taken, the rest of the read is saved and the loop left. -/
def textByte (c : UInt8) (rest : List UInt8) (loop : PushLoop) :
    Option (PushLoop × List HookEvent) :=
  (doString loop.vt (c :: rest)).map fun (vt, events, eaten) =>
    if eaten = 0 then (⟨vt, some (c :: rest), rest.length⟩, events)
    else (⟨vt, loop.stringStart, eaten - 1⟩, events)

/-- An ESC. In an OSC or DCS string it may begin the string terminator. -/
def escape (loop : PushLoop) : PushLoop :=
  match loop.vt.parserState with
  | .osc => { loop.extend 0x1B with vt := loop.vt.setParserState .escInOsc }
  | .dcs => { loop.extend 0x1B with vt := loop.vt.setParserState .escInDcs }
  | _ => loop.enterString .esc

/-- The `switch` over the state, for a byte that is no control. -/
def switchByte (c : UInt8) (rest : List UInt8) (loop : PushLoop) :
    Option (PushLoop × List HookEvent) :=
  match loop.vt.parserState with
  | .escInOsc => loop.escInStringByte .osc c
  | .escInDcs => loop.escInStringByte .dcs c
  | .esc => loop.escByte c
  | .csi =>
      if 0x40 ≤ c ∧ c ≤ 0x7F then loop.finish (loop.fragment ++ [c])
      else some (loop.extend c, [])
  | .osc | .dcs => if c = 0x07 then loop.finish loop.fragment else some (loop.extend c, [])
  | .normal => loop.textByte c rest

end PushLoop

/-- A BEL can stand for the string terminator in the states `OSC` and `DCS`. Any other byte
below 0x20 is a control. -/
def isControl (parserState : VTermParserState) (c : UInt8) : Bool :=
  c < 0x20 ∧ ¬ (c = 0x07 ∧ (parserState = .osc ∨ parserState = .dcs))

/-- One turn of the loop of `vterm_push_bytes`. -/
def pushByte (loop : PushLoop) (c : UInt8) (rest : List UInt8) :
    Option (PushLoop × List HookEvent) :=
  match loop.skip with
  | skip + 1 => some ({ loop with skip := skip }, [])
  | 0 =>
      if c = 0x00 ∨ c = 0x7F then some (loop.save, [])
      else if c = 0x18 ∨ c = 0x1A then some (loop.enterNormal, [])
      else if c = 0x1B then some (loop.escape, [])
      else if isControl loop.vt.parserState c then
        some ({ loop.save with vt := doControl c loop.save.vt }, [])
      else loop.switchByte c rest

/-- The loop of `vterm_push_bytes`. -/
def pushLoop : PushLoop → List UInt8 → Option (PushLoop × List HookEvent)
  | loop, [] => some (loop, [])
  | loop, c :: rest =>
      (pushByte loop c rest).bind fun (next, events) =>
        (pushLoop next rest).map fun (last, later) => (last, events ++ later)

/-- The loop at the start of a read. -/
def readStart (vt : VTerm) : PushLoop :=
  ⟨vt, if vt.parserState = .normal then none else some [], 0⟩

/-- `vterm_push_bytes`. What is left of a string is saved for the next read. -/
def vtermPushBytes (vt : VTerm) (bytes : List UInt8) : Option (VTerm × List HookEvent) :=
  (pushLoop (readStart vt) bytes).map fun (loop, events) =>
    (appendStrbuffer loop.fragment loop.vt, events)

end Hackterm
