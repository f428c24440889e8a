import Hackterm.Parser.Push

/-! # The calls of the terminal behind the parser

Besides the hooks of the program, the parser calls the terminal emulator itself
(`Hackterm.ParserCall`). A call for text hands over all that is left of the read
(`Hackterm.vtermPushCalls`), and the terminal answers how much of it it takes. The parser
keeps of the terminal only the decoders, on which that answer depends. Over any read they are
what the calls leave in the terminal (`Hackterm.vtermPushCalls_sets`).
-/

namespace Hackterm

open BitFields

/-- The calls of `parser_callbacks`. -/
inductive ParserCall where
  | text (bytes : List UInt8)
  | control (control : UInt8)
  | escape (bytes : List UInt8)
  | csi (event : CsiEvent)
  | osc (command : List UInt8)
  | dcs (command : List UInt8)
deriving DecidableEq

/-- The string that `do_string` hands over. -/
def handedString (vt : VTerm) (strFrag : List UInt8) : List UInt8 :=
  if vt.strbuffer = [] then strFrag else (appendStrbuffer strFrag vt).strbuffer

/-- `do_string`, by the state and the string. -/
theorem doString_handed (vt : VTerm) (strFrag : List UInt8) :
    doString vt strFrag =
      let string := handedString vt strFrag
      let cleared := vt.clearStrbuffer
      match vt.parserState with
      | .normal =>
          (onText cleared string).map fun (vt, eaten) =>
            (vt, if eaten = 0 then [] else [.text (string.take eaten)], eaten)
      | .esc =>
          match string with
          | [c] =>
              if 0x40 ≤ c ∧ c < 0x60 then some (doControl (c + 0x40) cleared, [], 0)
              else some (onEscape string cleared, [.escape string], 0)
          | _ => some (onEscape string cleared, [.escape string], 0)
      | .csi =>
          string.getLast?.map fun command =>
            (cleared, [.csi (doStringCsi string.dropLast command)], 0)
      | .osc => some (cleared, [.osc string], 0)
      | .dcs => some (cleared, if [0x24, 0x71] <+: string then [] else [.dcs string], 0)
      | .escInOsc | .escInDcs => some (cleared, [], 0) :=
  rfl

/-- The call of `do_string` in each state. -/
def doStringCalls (vt : VTerm) (strFrag : List UInt8) : List ParserCall :=
  let string := handedString vt strFrag
  match vt.parserState with
  | .normal => [.text string]
  | .esc =>
      match string with
      | [c] => if 0x40 ≤ c ∧ c < 0x60 then [.control (c + 0x40)] else [.escape string]
      | _ => [.escape string]
  | .csi =>
      match string.getLast? with
      | some command => [.csi (doStringCsi string.dropLast command)]
      | none => []
  | .osc => [.osc string]
  | .dcs => [.dcs string]
  | .escInOsc | .escInDcs => []

namespace PushLoop

/-- The calls at a byte in the state `ESC`. -/
def escByteCalls (c : UInt8) (loop : PushLoop) : List ParserCall :=
  if c = 0x50 ∨ c = 0x5B ∨ c = 0x5D then []
  else if 0x30 ≤ c ∧ c < 0x7F then doStringCalls loop.vt (loop.fragment ++ [c])
  else []

/-- The calls at a byte behind the ESC in a string. -/
def escInStringCalls (state : VTermParserState) (c : UInt8) (loop : PushLoop) : List ParserCall :=
  if c = 0x5C then doStringCalls (loop.vt.setParserState state) loop.fragment.dropLast
  else escByteCalls c (loop.enterString .esc)

/-- The calls of the `switch` over the state. -/
def switchCalls (c : UInt8) (rest : List UInt8) (loop : PushLoop) : List ParserCall :=
  match loop.vt.parserState with
  | .escInOsc => loop.escInStringCalls .osc c
  | .escInDcs => loop.escInStringCalls .dcs c
  | .esc => loop.escByteCalls c
  | .csi => if 0x40 ≤ c ∧ c ≤ 0x7F then doStringCalls loop.vt (loop.fragment ++ [c]) else []
  | .osc | .dcs => if c = 0x07 then doStringCalls loop.vt loop.fragment else []
  | .normal => doStringCalls loop.vt (c :: rest)

end PushLoop

/-- The calls of one turn of the loop of `vterm_push_bytes`. -/
def pushByteCalls (loop : PushLoop) (c : UInt8) (rest : List UInt8) : List ParserCall :=
  match loop.skip with
  | _ + 1 => []
  | 0 =>
      if c = 0x00 ∨ c = 0x7F then []
      else if c = 0x18 ∨ c = 0x1A then []
      else if c = 0x1B then []
      else if isControl loop.vt.parserState c then [.control c]
      else loop.switchCalls c rest

section NoText

variable {loop : PushLoop} {c : UInt8}

theorem doStringCalls_noText {vt : VTerm} (string : vt.parserState ≠ .normal)
    (strFrag bytes : List UInt8) : .text bytes ∉ doStringCalls vt strFrag := by
  unfold doStringCalls
  generalize handedString vt strFrag = handed
  dsimp only
  cases state : vt.parserState with
  | normal => exact absurd state string
  | esc =>
      dsimp only
      split
      · split_ifs <;> simp
      · simp
  | csi =>
      dsimp only
      split <;> simp
  | osc | dcs | escInOsc | escInDcs => simp

theorem escByteCalls_noText (string : loop.vt.parserState ≠ .normal) (bytes : List UInt8) :
    .text bytes ∉ loop.escByteCalls c := by
  unfold PushLoop.escByteCalls
  split_ifs
  · exact List.not_mem_nil
  · exact doStringCalls_noText string _ bytes
  · exact List.not_mem_nil

/-- No text is handed over at a byte that is no text. -/
theorem pushByteCalls_noText (noText : loop.vt.parserState = .normal → c < 0x20)
    (rest bytes : List UInt8) : .text bytes ∉ pushByteCalls loop c rest := by
  have inString : ∀ state, state ≠ .normal → .text bytes ∉ loop.escInStringCalls state c := by
    intro state string
    unfold PushLoop.escInStringCalls
    split_ifs
    · exact @doStringCalls_noText (loop.vt.setParserState state) string _ bytes
    · exact @escByteCalls_noText (loop.enterString .esc) c (nomatch ·) bytes
  unfold pushByteCalls
  split
  · exact List.not_mem_nil
  · split_ifs with nul cancel esc control
    · exact List.not_mem_nil
    · exact List.not_mem_nil
    · exact List.not_mem_nil
    · simp
    · unfold PushLoop.switchCalls
      cases state : loop.vt.parserState with
      | normal => simp [isControl, state, noText state] at control
      | escInOsc => exact inString .osc (by decide)
      | escInDcs => exact inString .dcs (by decide)
      | esc => exact escByteCalls_noText (by simp [state]) bytes
      | csi | osc | dcs =>
          dsimp only
          split_ifs
          · exact doStringCalls_noText (by simp [state]) _ bytes
          · exact List.not_mem_nil

end NoText

/-- The calls of the loop. -/
def pushLoopCalls : PushLoop → List UInt8 → Option (PushLoop × List ParserCall)
  | loop, [] => some (loop, [])
  | loop, c :: rest =>
      (pushByte loop c rest).bind fun (next, _) =>
        (pushLoopCalls next rest).map fun (last, later) =>
          (last, pushByteCalls loop c rest ++ later)

/-- `vterm_push_bytes`, with the calls of the terminal. -/
def vtermPushCalls (vt : VTerm) (bytes : List UInt8) : Option (VTerm × List ParserCall) :=
  (pushLoopCalls (readStart vt) bytes).map fun (loop, calls) =>
    (appendStrbuffer loop.fragment loop.vt, calls)

/-- The hooks and the terminal are called in the same turns. -/
theorem pushLoopCalls_fst (loop : PushLoop) (bytes : List UInt8) :
    (pushLoopCalls loop bytes).map Prod.fst = (pushLoop loop bytes).map Prod.fst := by
  induction bytes generalizing loop with
  | nil => rfl
  | cons c rest ih =>
      rw [pushLoopCalls, pushLoop]
      cases pushByte loop c rest with
      | none => rfl
      | some turn =>
          have later := ih turn.1
          cases calls : pushLoopCalls turn.1 rest <;> cases hooks : pushLoop turn.1 rest <;>
            simp_all

namespace Encodings

/-- What a call makes of the decoders, and the code points of its text. -/
def call (encodings : Encodings) : ParserCall → Option (Encodings × List Nat)
  | .text bytes => (decodeText encodings bytes).map fun decoded => (decoded.1, decoded.2.1)
  | .control c => some (encodings.control c, [])
  | .escape bytes => some (encodings.escape bytes, [])
  | .csi _ | .osc _ | .dcs _ => some (encodings, [])

/-- The calls of a read, in their order. -/
def calls : Encodings → List ParserCall → Option (Encodings × List Nat)
  | encodings, [] => some (encodings, [])
  | encodings, first :: others =>
      (encodings.call first).bind fun (next, codepoints) =>
        (next.calls others).map fun (last, later) => (last, codepoints ++ later)

theorem calls_append (encodings : Encodings) (front back : List ParserCall) :
    encodings.calls (front ++ back) =
      (encodings.calls front).bind fun first =>
        (first.1.calls back).map fun last => (last.1, first.2 ++ last.2) := by
  induction front generalizing encodings with
  | nil => simp [calls]
  | cons call front ih =>
      rw [List.cons_append, calls, calls]
      cases encodings.call call with
      | none => rfl
      | some next =>
          simp only [Option.bind_some, ih]
          cases next.1.calls front with
          | none => rfl
          | some middle =>
              simp only [Option.bind_some, Option.map_some]
              cases middle.1.calls back with
              | none => rfl
              | some last => simp

theorem calls_singleton (encodings : Encodings) (call : ParserCall) :
    encodings.calls [call] = encodings.call call := by
  rw [calls]
  cases encodings.call call with
  | none => rfl
  | some next => simp [calls]

/-- The calls make these decoders of those. -/
def Makes (encodings : Encodings) (called : List ParserCall) (after : Encodings) : Prop :=
  ∃ codepoints, encodings.calls called = some (after, codepoints)

variable {encodings middle after : Encodings}

theorem makes_nil : encodings.Makes [] encodings := ⟨[], rfl⟩

theorem Makes.append {front back : List ParserCall} (first : encodings.Makes front middle)
    (others : middle.Makes back after) : encodings.Makes (front ++ back) after := by
  obtain ⟨codepoints, here⟩ := first
  obtain ⟨later, behind⟩ := others
  refine ⟨codepoints ++ later, ?_⟩
  rw [calls_append, here, Option.bind_some, behind, Option.map_some]

theorem makes_one {one : ParserCall} {codepoints : List Nat}
    (called : encodings.call one = some (after, codepoints)) : encodings.Makes [one] after :=
  ⟨codepoints, (encodings.calls_singleton one).trans called⟩

end Encodings

section Turn

variable {loop : PushLoop} {turn : PushLoop × List HookEvent} {c : UInt8}

/-- What `do_string` leaves in the parser, its call leaves in the terminal. -/
theorem doString_makes {vt : VTerm} {strFrag : List UInt8} {after : VTerm × List HookEvent × Nat}
    (done : doString vt strFrag = some after) :
    vt.encodings.Makes (doStringCalls vt strFrag) after.1.encodings := by
  rw [doString_handed] at done
  unfold doStringCalls
  dsimp only at done ⊢
  generalize handedString vt strFrag = string at done ⊢
  cases state : vt.parserState with
  | normal =>
      simp only [state] at done ⊢
      obtain ⟨read, taken, rfl⟩ := Option.map_eq_some_iff.mp done
      obtain ⟨⟨encodings, codepoints, eaten⟩, decodes, rfl⟩ := Option.map_eq_some_iff.mp taken
      change decodeText vt.encodings string = _ at decodes
      refine Encodings.makes_one (?_ : _ = some (encodings, codepoints))
      rw [Encodings.call, decodes, Option.map_some]
  | esc =>
      simp only [state] at done ⊢
      split at done
      case h_1 c =>
          split_ifs at done ⊢
          all_goals
            rw [← Option.some.inj done]
            exact Encodings.makes_one rfl
      case h_2 =>
          rw [← Option.some.inj done]
          exact Encodings.makes_one rfl
  | csi =>
      simp only [state] at done ⊢
      cases last : string.getLast? with
      | none => simp [last] at done
      | some command =>
          simp only [last, Option.map_some] at done ⊢
          rw [← Option.some.inj done]
          exact Encodings.makes_one rfl
  | osc | dcs =>
      simp only [state] at done ⊢
      rw [← Option.some.inj done]
      exact Encodings.makes_one rfl
  | escInOsc | escInDcs =>
      simp only [state] at done ⊢
      rw [← Option.some.inj done]
      exact Encodings.makes_nil

theorem finish_makes {strFrag : List UInt8} (done : loop.finish strFrag = some turn) :
    loop.vt.encodings.Makes (doStringCalls loop.vt strFrag) turn.1.vt.encodings := by
  obtain ⟨after, string, rfl⟩ := Option.map_eq_some_iff.mp done
  exact doString_makes string

theorem escByte_makes (taken : loop.escByte c = some turn) :
    loop.vt.encodings.Makes (loop.escByteCalls c) turn.1.vt.encodings := by
  unfold PushLoop.escByte at taken
  unfold PushLoop.escByteCalls
  by_cases opens : c = 0x50 ∨ c = 0x5B ∨ c = 0x5D
  · rw [if_pos opens]
    rcases opens with rfl | rfl | rfl <;>
      · rw [← Option.some.inj taken]
        exact Encodings.makes_nil
  · obtain ⟨dcs, csi, osc⟩ : c ≠ 0x50 ∧ c ≠ 0x5B ∧ c ≠ 0x5D := by tauto
    rw [if_neg dcs, if_neg csi, if_neg osc] at taken
    rw [if_neg opens]
    split_ifs at taken ⊢ with final
    · exact finish_makes taken
    · rw [← Option.some.inj taken]
      exact Encodings.makes_nil

theorem switchByte_makes {rest : List UInt8} (taken : loop.switchByte c rest = some turn) :
    loop.vt.encodings.Makes (loop.switchCalls c rest) turn.1.vt.encodings := by
  have inString : ∀ state, loop.escInStringByte state c = some turn →
      loop.vt.encodings.Makes (loop.escInStringCalls state c) turn.1.vt.encodings := by
    intro state taken
    unfold PushLoop.escInStringByte at taken
    unfold PushLoop.escInStringCalls
    split_ifs at taken ⊢ with final
    · exact @finish_makes { loop with vt := loop.vt.setParserState state } turn _ taken
    · exact @escByte_makes (loop.enterString .esc) turn c taken
  unfold PushLoop.switchByte at taken
  unfold PushLoop.switchCalls
  cases state : loop.vt.parserState with
  | escInOsc | escInDcs =>
      simp only [state] at taken ⊢
      exact inString _ taken
  | esc =>
      simp only [state] at taken ⊢
      exact escByte_makes taken
  | csi | osc | dcs =>
      simp only [state] at taken ⊢
      split_ifs at taken ⊢ with final
      · exact finish_makes taken
      · rw [← Option.some.inj taken]
        exact Encodings.makes_nil
  | normal =>
      simp only [state] at taken ⊢
      obtain ⟨after, string, rfl⟩ := Option.map_eq_some_iff.mp taken
      have behind := doString_makes string
      dsimp only
      split_ifs <;> exact behind

/-- **A turn of the loop** makes of the decoders what its calls make of them. -/
theorem pushByte_makes {rest : List UInt8} (taken : pushByte loop c rest = some turn) :
    loop.vt.encodings.Makes (pushByteCalls loop c rest) turn.1.vt.encodings := by
  have saved : loop.save.vt.encodings = loop.vt.encodings := by
    unfold PushLoop.save
    split_ifs <;> rfl
  unfold pushByte at taken
  unfold pushByteCalls
  cases skip : loop.skip with
  | succ more =>
      simp only [skip] at taken ⊢
      rw [← Option.some.inj taken]
      exact Encodings.makes_nil
  | zero =>
      simp only [skip] at taken ⊢
      split_ifs at taken ⊢
      · rw [← Option.some.inj taken, saved]
        exact Encodings.makes_nil
      · rw [← Option.some.inj taken]
        exact Encodings.makes_nil
      · have escaped : loop.escape.vt.encodings = loop.vt.encodings := by
          unfold PushLoop.escape
          split <;> rfl
        rw [← Option.some.inj taken, escaped]
        exact Encodings.makes_nil
      · rw [← Option.some.inj taken, ← saved]
        exact Encodings.makes_one rfl
      · exact switchByte_makes taken

end Turn

/-- The loop over a read makes of the decoders what its calls make of them. -/
theorem pushLoopCalls_makes {loop last : PushLoop} {bytes : List UInt8} {called : List ParserCall}
    (pushed : pushLoopCalls loop bytes = some (last, called)) :
    loop.vt.encodings.Makes called last.vt.encodings := by
  induction bytes generalizing loop called with
  | nil =>
      obtain ⟨rfl, rfl⟩ := Prod.mk.inj (Option.some.inj pushed)
      exact Encodings.makes_nil
  | cons c rest ih =>
      obtain ⟨turn, taken, others⟩ := Option.bind_eq_some_iff.mp pushed
      obtain ⟨⟨reached, later⟩, behind, same⟩ := Option.map_eq_some_iff.mp others
      obtain ⟨rfl, rfl⟩ := Prod.mk.inj same
      exact (pushByte_makes taken).append (ih behind)

/-- **The parser knows the decoders.** After any read, what the parser keeps of the terminal
is what the calls of the read have made of it. -/
theorem vtermPushCalls_sets (vt : VTerm) (bytes : List UInt8) (after : VTerm)
    (called : List ParserCall) (pushed : vtermPushCalls vt bytes = some (after, called)) :
    ∃ codepoints, vt.encodings.calls called = some (after.encodings, codepoints) := by
  obtain ⟨⟨loop, calls⟩, looped, same⟩ := Option.map_eq_some_iff.mp pushed
  obtain ⟨rfl, rfl⟩ := Prod.mk.inj same
  exact pushLoopCalls_makes looped

end Hackterm
