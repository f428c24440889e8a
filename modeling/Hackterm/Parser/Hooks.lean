import Hackterm.Parser.Push
import Hackterm.Streaming.Transducer

/-! # What the hooks should see

The parser as a machine that takes the stream of the host byte by byte and keeps the
whole of the open string itself (`Hackterm.hooks`): no byte of it lies in a read or
in a buffer, so nothing here depends on reads. Text comes out byte by byte; the calls
of the text hook are compared with it after they are spread over their bytes
(`Hackterm.HookEvent.spread`).
-/

namespace Hackterm

/-- A call for text as one event a byte. Two lists of calls spread to the same list
exactly when they have the same other calls in the same order and the same bytes of
text between them. -/
def HookEvent.spread : HookEvent → List HookEvent
  | .text bytes => bytes.map fun c => .text [c]
  | event => [event]

/-- Spread all calls of a list. -/
def spreadAll (events : List HookEvent) : List HookEvent := events.flatMap HookEvent.spread

theorem spreadAll_append (front back : List HookEvent) :
    spreadAll (front ++ back) = spreadAll front ++ spreadAll back :=
  List.flatMap_append

/-- The open string with all its bytes. Behind an ESC in an OSC or DCS string the ESC
is its last byte. `inText` says that the last byte of the stream was text. -/
structure HookState where
  parserState : VTermParserState
  pending : List UInt8
  inText : Bool

namespace HookState

/-- No string is open and no text was read. -/
def start : HookState := ⟨.normal, [], false⟩

/-- The open string without an ESC that may end it. -/
def string (state : HookState) : List UInt8 :=
  match state.parserState with
  | .escInOsc | .escInDcs => state.pending.dropLast
  | _ => state.pending

theorem pending_length_le (state : HookState) :
    state.pending.length ≤ state.string.length + 1 := by
  unfold string
  split
  case h_1 | h_2 => rw [List.length_dropLast]; omega
  case h_3 => exact Nat.le_succ _

/-- A string begins. -/
def openString (parserState : VTermParserState) : HookState := ⟨parserState, [], false⟩

/-- The byte belongs to the open string. -/
def extend (c : UInt8) (state : HookState) : HookState :=
  ⟨state.parserState, state.pending ++ [c], false⟩

/-- The byte is no text and does not belong to the open string either. -/
def endText (state : HookState) : HookState := { state with inText := false }

end HookState

/-- The calls for a complete string. -/
def stringEvents (parserState : VTermParserState) (string : List UInt8) : List HookEvent :=
  match parserState with
  | .esc =>
      match string with
      | [c] => if 0x40 ≤ c ∧ c < 0x60 then [] else [.escape string]
      | _ => [.escape string]
  | .csi =>
      string.getLast?.toList.map fun command => .csi (doStringCsi string.dropLast command)
  | .osc => [.osc string]
  | .dcs => if [0x24, 0x71] <+: string then [] else [.dcs string]
  | .normal | .escInOsc | .escInDcs => []

/-- A byte behind an ESC. -/
def hookEscByte (c : UInt8) (pending : List UInt8) : HookState × List HookEvent :=
  if c = 0x50 then (.openString .dcs, [])
  else if c = 0x5B then (.openString .csi, [])
  else if c = 0x5D then (.openString .osc, [])
  else if 0x30 ≤ c ∧ c < 0x7F then (.start, stringEvents .esc (pending ++ [c]))
  else (⟨.esc, pending ++ [c], false⟩, [])

/-- An ESC. -/
def hookEscape (state : HookState) : HookState :=
  match state.parserState with
  | .osc => ⟨.escInOsc, state.pending ++ [0x1B], false⟩
  | .dcs => ⟨.escInDcs, state.pending ++ [0x1B], false⟩
  | _ => .openString .esc

/-- A byte that is no control. -/
def hookByte (state : HookState) (c : UInt8) : HookState × List HookEvent :=
  match state.parserState with
  | .escInOsc =>
      if c = 0x5C then (.start, stringEvents .osc state.pending.dropLast) else hookEscByte c []
  | .escInDcs =>
      if c = 0x5C then (.start, stringEvents .dcs state.pending.dropLast) else hookEscByte c []
  | .esc => hookEscByte c state.pending
  | .csi =>
      if 0x40 ≤ c ∧ c ≤ 0x7F then (.start, stringEvents .csi (state.pending ++ [c]))
      else (state.extend c, [])
  | .osc | .dcs =>
      if c = 0x07 then (.start, stringEvents state.parserState state.pending)
      else (state.extend c, [])
  | .normal => (⟨.normal, [], true⟩, [.text [c]])

/-- The parser on the uncut stream. A DEL is text behind text. -/
def hooks : Streaming.Transducer HookState UInt8 HookEvent where
  step state c :=
    if c = 0x7F ∧ state.inText then (state, [.text [c]])
    else if c = 0x00 ∨ c = 0x7F then (state.endText, [])
    else if c = 0x18 ∨ c = 0x1A then (.start, [])
    else if c = 0x1B then (hookEscape state, [])
    else if isControl state.parserState c then (state.endText, [])
    else hookByte state c

/-- The strings of a stream are shorter than `strbuffer_len`. -/
def ShortStrings : HookState → List UInt8 → Prop
  | state, [] => state.string.length < strbufferLen
  | state, c :: rest =>
      state.string.length < strbufferLen ∧ ShortStrings (hooks.step state c).1 rest

instance decidableShortStrings : (state : HookState) → (stream : List UInt8) →
    Decidable (ShortStrings state stream)
  | state, [] => inferInstanceAs (Decidable (state.string.length < strbufferLen))
  | state, c :: rest =>
      have := decidableShortStrings (hooks.step state c).1 rest
      inferInstanceAs (Decidable (_ ∧ _))

end Hackterm
