import Hackterm.Encoding.Overrun
import Hackterm.Parser.Hooks
import Mathlib.Data.List.TakeWhile
import Mathlib.Tactic.SplitIfs

/-! # A turn of the parser

The parser keeps the open string in two parts, the bytes saved in `strbuffer` and those
of the present read (`Hackterm.Follows`). A careful turn of its loop at a byte that is
no text makes the same calls as the machine that keeps the whole string
(`Hackterm.Follows.turn`).
-/

namespace Hackterm

/-- The byte gives up the open string without a call for it. -/
def givesUp : VTermParserState → UInt8 → Bool
  | .normal, _ => false
  | .osc, c | .dcs, c => c = 0x18 ∨ c = 0x1A
  | .csi, c => c = 0x18 ∨ c = 0x1A ∨ c = 0x1B
  | .esc, c => c ∈ [0x18, 0x1A, 0x1B, 0x50, 0x5B, 0x5D]
  | .escInOsc, c | .escInDcs, c =>
      c = 0x18 ∨ c = 0x1A ∨ c = 0x1B ∨ 0x20 ≤ c ∧ c ≠ 0x5C ∧ c ≠ 0x7F

/-- A turn of the loop that keeps the string together. No bytes of a string that is
given up are left in `strbuffer`, and the ESC of a string terminator lies right before
its backslash in the present read. -/
def PushLoop.Careful (loop : PushLoop) (c : UInt8) : Prop :=
  (givesUp loop.vt.parserState c = true → loop.vt.strbuffer = []) ∧
    (loop.vt.parserState = .escInOsc ∨ loop.vt.parserState = .escInDcs → c = 0x5C →
      loop.fragment ≠ [])

instance (loop : PushLoop) (c : UInt8) : Decidable (loop.Careful c) :=
  inferInstanceAs (Decidable (_ ∧ _))

/-- The parts of the string of the parser are the string that is open. -/
structure Follows (loop : PushLoop) (state : HookState) : Prop where
  parserState : loop.vt.parserState = state.parserState
  pending : loop.vt.strbuffer ++ loop.fragment = state.pending
  normal : state.parserState = .normal → state.pending = []
  noNul : ∀ c ∈ state.pending, c ≠ 0
  skip : loop.skip = 0

/-- The loop does not fail, reaches a state that follows, and makes the same calls. -/
def Agrees (turned : Option (PushLoop × List HookEvent)) (target : HookState × List HookEvent) :
    Prop :=
  ∃ next events, turned = some (next, events) ∧ Follows next target.1 ∧
    spreadAll events = target.2

section Buffer

variable {vt : VTerm} {str : List UInt8}

theorem strncpyAll_eq (noNul : ∀ c ∈ str, c ≠ 0) : strncpyAll str = str := by
  have whole : str.takeWhile (· != 0) = str :=
    List.takeWhile_eq_self_iff.mpr fun c member => by simpa using noNul c member
  simp [strncpyAll, whole]

/-- What fits is saved whole. -/
theorem appendStrbuffer_eq (fits : (vt.strbuffer ++ str).length ≤ strbufferLen)
    (noNul : ∀ c ∈ str, c ≠ 0) :
    appendStrbuffer str vt = { vt with strbuffer := vt.strbuffer ++ str } := by
  rw [List.length_append] at fits
  rw [appendStrbuffer, List.take_of_length_le (by omega), strncpyAll_eq noNul]

/-- Where both parts of a string fit, its end is handled as the whole string. -/
theorem doString_eq (fits : (vt.strbuffer ++ str).length ≤ strbufferLen)
    (noNul : ∀ c ∈ str, c ≠ 0) :
    doString vt str = doString vt.clearStrbuffer (vt.strbuffer ++ str) := by
  by_cases saved : vt.strbuffer = []
  · simp [doString, saved, VTerm.clearStrbuffer]
  · simp only [doString, saved, ↓reduceIte, appendStrbuffer_eq fits noNul, VTerm.clearStrbuffer]

@[simp] theorem doControl_parserState (control : UInt8) :
    (doControl control vt).parserState = vt.parserState := rfl

@[simp] theorem doControl_strbuffer (control : UInt8) :
    (doControl control vt).strbuffer = vt.strbuffer := rfl

@[simp] theorem onEscape_strbuffer (bytes : List UInt8) :
    (onEscape bytes vt).strbuffer = vt.strbuffer := rfl

end Buffer

theorem spreadAll_stringEvents (parserState : VTermParserState) (string : List UInt8) :
    spreadAll (stringEvents parserState string) = stringEvents parserState string := by
  fun_cases stringEvents parserState string
  all_goals try rfl
  case case4 => cases string.getLast? <;> rfl

section Turn

variable {loop : PushLoop} {state : HookState}

/-- The bytes saved are none once the whole string is none. -/
theorem Follows.saved_of_normal (follows : Follows loop state)
    (normal : state.parserState = .normal) : loop.vt.strbuffer = [] ∧ loop.fragment = [] := by
  have none := follows.pending
  rw [follows.normal normal] at none
  exact List.append_eq_nil_iff.mp none

theorem Follows.noNul_fragment (follows : Follows loop state) : ∀ c ∈ loop.fragment, c ≠ 0 := by
  intro c member
  apply follows.noNul
  rw [← follows.pending]
  exact List.mem_append_right _ member

/-- The bytes of the read are saved in front of a byte that is not part of the string. -/
theorem Follows.save (follows : Follows loop state)
    (fits : state.pending.length ≤ strbufferLen) : Follows loop.save state.endText := by
  unfold PushLoop.save
  split_ifs with normal
  · exact ⟨follows.parserState, follows.pending, follows.normal, follows.noNul, follows.skip⟩
  · rw [← follows.pending] at fits
    rw [appendStrbuffer_eq fits follows.noNul_fragment]
    refine ⟨follows.parserState, ?_, follows.normal, follows.noNul, rfl⟩
    simpa [PushLoop.fragment, HookState.endText] using follows.pending

theorem Follows.control (follows : Follows loop state) (control : UInt8) :
    Follows { loop with vt := doControl control loop.vt } state := by
  refine ⟨?_, ?_, follows.normal, follows.noNul, follows.skip⟩
  · simpa using follows.parserState
  · simpa [PushLoop.fragment] using follows.pending

theorem follows_enterNormal (clean : loop.vt.strbuffer = []) :
    Follows loop.enterNormal .start := by
  refine ⟨rfl, ?_, fun _ => rfl, by simp [HookState.start], rfl⟩
  simpa [PushLoop.enterNormal, PushLoop.fragment, VTerm.setParserState, HookState.start]
    using clean

theorem follows_enterString (parserState : VTermParserState) (clean : loop.vt.strbuffer = []) :
    Follows (loop.enterString parserState) (.openString parserState) := by
  refine ⟨rfl, ?_, fun _ => rfl, by simp [HookState.openString], rfl⟩
  simpa [PushLoop.enterString, PushLoop.fragment, VTerm.setParserState, HookState.openString]
    using clean

theorem Follows.extend (follows : Follows loop state) (c : UInt8) (visible : c ≠ 0)
    (string : state.parserState ≠ .normal) : Follows (loop.extend c) (state.extend c) := by
  refine ⟨follows.parserState, ?_, fun normal => absurd normal string, ?_, follows.skip⟩
  · rw [HookState.extend, ← follows.pending]
    simp [PushLoop.extend, PushLoop.fragment]
  · intro other member
    rw [HookState.extend, List.mem_append, List.mem_singleton] at member
    rcases member with member | rfl
    · exact follows.noNul other member
    · exact visible

/-- A string may end in this state. -/
def Ends (parserState : VTermParserState) (string : List UInt8) : Prop :=
  match parserState with
  | .esc | .osc | .dcs => True
  | .csi => string ≠ []
  | .normal | .escInOsc | .escInDcs => False

theorem doString_events (vt : VTerm) (string : List UInt8) (saved : vt.strbuffer = [])
    (ends : Ends vt.parserState string) :
    ∃ after, doString vt string = some (after, stringEvents vt.parserState string, 0) ∧
      after.strbuffer = [] := by
  cases parserState : vt.parserState with
  | normal | escInOsc | escInDcs =>
      rw [parserState] at ends
      exact ends.elim
  | osc | dcs =>
      refine ⟨vt.clearStrbuffer, ?_, rfl⟩
      simp [doString, saved, VTerm.clearStrbuffer, parserState, stringEvents]
  | csi =>
      rw [parserState] at ends
      refine ⟨vt.clearStrbuffer, ?_, rfl⟩
      simp [doString, saved, VTerm.clearStrbuffer, parserState, stringEvents,
        List.getLast?_eq_some_getLast ends]
  | esc =>
      have cleared : vt.clearStrbuffer.parserState = .esc := parserState
      by_cases c1 : ∃ c, string = [c] ∧ 0x40 ≤ c ∧ c < 0x60
      · obtain ⟨c, rfl, range⟩ := c1
        refine ⟨doControl (c + 0x40) vt.clearStrbuffer, ?_, by simp [VTerm.clearStrbuffer]⟩
        simp [doString, saved, cleared, stringEvents, range]
      · refine ⟨onEscape string vt.clearStrbuffer, ?_, by simp [VTerm.clearStrbuffer]⟩
        match string with
        | [] | _ :: _ :: _ => simp [doString, saved, cleared, stringEvents]
        | [c] =>
            have outside : ¬ (0x40 ≤ c ∧ c < 0x60) := fun range => c1 ⟨c, rfl, range⟩
            simp [doString, saved, cleared, stringEvents, outside]

/-- The complete string is handed to the hooks. -/
theorem finish_agrees (loop : PushLoop) (strFrag string : List UInt8)
    (split : loop.vt.strbuffer ++ strFrag = string) (fits : string.length ≤ strbufferLen)
    (noNul : ∀ c ∈ string, c ≠ 0) (ends : Ends loop.vt.parserState string) :
    Agrees (loop.finish strFrag) (.start, stringEvents loop.vt.parserState string) := by
  subst split
  obtain ⟨after, done, clean⟩ := doString_events loop.vt.clearStrbuffer _ rfl ends
  refine ⟨PushLoop.enterNormal ⟨after, none, 0⟩, _, ?_, follows_enterNormal clean,
    spreadAll_stringEvents _ _⟩
  rw [PushLoop.finish, doString_eq fits fun c member => noNul c (List.mem_append_right _ member),
    done, Option.map_some]
  rfl

/-- The final byte of a string that it belongs to. -/
theorem Follows.finish_extend (follows : Follows loop state) (c : UInt8) (visible : c ≠ 0)
    (fits : state.pending.length < strbufferLen)
    (ends : Ends state.parserState (state.pending ++ [c])) :
    Agrees (loop.finish (loop.fragment ++ [c]))
      (.start, stringEvents state.parserState (state.pending ++ [c])) := by
  rw [← follows.parserState] at ends ⊢
  apply finish_agrees _ _ _ _ _ _ ends
  · rw [← List.append_assoc, follows.pending]
  · rw [List.length_append]
    exact fits
  · simpa [or_imp, forall_and, visible] using follows.noNul

theorem agrees_of_follows {next : PushLoop} {target : HookState} (follows : Follows next target) :
    Agrees (some (next, [])) (target, []) :=
  ⟨next, [], rfl, follows, rfl⟩

/-- A byte behind an ESC. -/
theorem Follows.escByte (follows : Follows loop state) (esc : state.parserState = .esc)
    (c : UInt8) (visible : c ≠ 0) (fits : state.pending.length < strbufferLen)
    (clean : c = 0x50 ∨ c = 0x5B ∨ c = 0x5D → loop.vt.strbuffer = []) :
    Agrees (loop.escByte c) (hookEscByte c state.pending) := by
  unfold PushLoop.escByte hookEscByte
  split_ifs with dcs csi osc final
  · exact agrees_of_follows (follows_enterString .dcs (clean (.inl dcs)))
  · exact agrees_of_follows (follows_enterString .csi (clean (.inr (.inl csi))))
  · exact agrees_of_follows (follows_enterString .osc (clean (.inr (.inr osc))))
  · have done := follows.finish_extend c visible fits
    rw [esc] at done
    exact done trivial
  · have longer := follows.extend c visible (by simp [esc])
    rw [HookState.extend, esc] at longer
    exact agrees_of_follows longer

/-- A byte behind an ESC in an OSC or DCS string, `kind` being the state of the string. -/
theorem Follows.escInStringByte (follows : Follows loop state) (kind : VTermParserState)
    (c : UInt8) (visible : c ≠ 0) (fits : state.pending.length ≤ strbufferLen)
    (ends : ∀ string, Ends kind string) (whole : c = 0x5C → loop.fragment ≠ [])
    (clean : c ≠ 0x5C → loop.vt.strbuffer = []) :
    Agrees (loop.escInStringByte kind c)
      (if c = 0x5C then (.start, stringEvents kind state.pending.dropLast)
        else hookEscByte c []) := by
  unfold PushLoop.escInStringByte
  split_ifs with backslash cut
  · exact absurd cut (whole backslash)
  · apply finish_agrees { loop with vt := loop.vt.setParserState kind }
    · rw [← follows.pending, List.dropLast_append_of_ne_nil cut]
      rfl
    · rw [List.length_dropLast]
      exact (Nat.sub_le _ 1).trans fits
    · exact fun other member => follows.noNul other (List.dropLast_subset _ member)
    · exact ends _
  · have opened := follows_enterString .esc (clean backslash)
    exact opened.escByte rfl c visible (by decide) fun _ => clean backslash

/-- An ESC. -/
theorem Follows.escape (follows : Follows loop state)
    (clean : state.parserState = .normal ∨ givesUp state.parserState 0x1B = true →
      loop.vt.strbuffer = []) :
    Follows loop.escape (hookEscape state) := by
  unfold PushLoop.escape hookEscape
  rw [follows.parserState]
  cases parserState : state.parserState with
  | osc | dcs =>
      have longer := follows.extend 0x1B (by decide) (by simp [parserState])
      exact ⟨rfl, longer.pending, (nomatch ·), longer.noNul, follows.skip⟩
  | normal => exact follows_enterString .esc (clean (.inl parserState))
  | esc | csi | escInOsc | escInDcs =>
      exact follows_enterString .esc (clean (.inr (by rw [parserState]; rfl)))

/-- A byte that is no control, within a string. -/
theorem Follows.switchByte (follows : Follows loop state) (c : UInt8) (rest : List UInt8)
    (careful : loop.Careful c) (short : state.string.length < strbufferLen)
    (visible : c ≠ 0) (noDel : c ≠ 0x7F) (noControl : isControl state.parserState c = false)
    (string : state.parserState ≠ .normal) :
    Agrees (loop.switchByte c rest) (hookByte state c) := by
  have fits : state.pending.length ≤ strbufferLen := state.pending_length_le.trans short
  obtain ⟨clean, whole⟩ := careful
  unfold PushLoop.switchByte hookByte
  unfold HookState.string at short
  rw [follows.parserState] at clean whole ⊢
  cases parserState : state.parserState with
  | normal => exact absurd parserState string
  | escInOsc | escInDcs =>
      refine follows.escInStringByte _ c visible fits ?_ ?_ ?_
      · exact fun _ => trivial
      · exact whole (by simp [parserState])
      · intro noBackslash
        apply clean
        rw [parserState] at noControl ⊢
        have printable : 0x20 ≤ c := by simpa [isControl] using noControl
        simp [givesUp, printable, noBackslash, noDel]
  | esc =>
      rw [parserState] at short clean
      apply follows.escByte parserState c visible short
      intro opens
      apply clean
      rcases opens with rfl | rfl | rfl <;> rfl
  | csi =>
      rw [parserState] at short
      dsimp only
      split_ifs
      · have done := follows.finish_extend c visible short
        rw [parserState] at done
        exact done (by simp [Ends])
      · exact agrees_of_follows (follows.extend c visible string)
  | osc | dcs =>
      dsimp only
      split_ifs
      · have done := finish_agrees loop loop.fragment state.pending follows.pending fits
          follows.noNul
        rw [follows.parserState, parserState] at done
        exact done trivial
      · exact agrees_of_follows (follows.extend c visible string)

theorem givesUp_of_cancel {parserState : VTermParserState} {c : UInt8}
    (cancel : c = 0x18 ∨ c = 0x1A) : parserState = .normal ∨ givesUp parserState c = true := by
  rcases cancel with rfl | rfl <;> cases parserState <;> decide

/-- A byte that is no text. -/
theorem Follows.turn (follows : Follows loop state) (c : UInt8) (rest : List UInt8)
    (careful : loop.Careful c) (short : state.string.length < strbufferLen)
    (noText : c = 0x7F → state.inText = false)
    (string : state.parserState = .normal → c < 0x20 ∨ c = 0x7F) :
    Agrees (pushByte loop c rest) (hooks.step state c) := by
  have fits : state.pending.length ≤ strbufferLen := state.pending_length_le.trans short
  have clean : state.parserState = .normal ∨ givesUp state.parserState c = true →
      loop.vt.strbuffer = [] := by
    rintro (normal | given)
    · exact (follows.saved_of_normal normal).1
    · exact careful.1 (follows.parserState ▸ given)
  have between : ¬ (c = 0x7F ∧ state.inText = true) := fun ⟨del, text⟩ => by
    rw [noText del] at text
    cases text
  simp only [pushByte, follows.skip, hooks, between, ↓reduceIte, follows.parserState]
  split_ifs with nul cancel esc control
  · exact agrees_of_follows (follows.save fits)
  · exact agrees_of_follows (follows_enterNormal (clean (givesUp_of_cancel cancel)))
  · subst esc
    exact agrees_of_follows (follows.escape clean)
  · exact agrees_of_follows ((follows.save fits).control c)
  · rw [not_or] at nul
    have noControl : isControl state.parserState c = false := by simpa using control
    apply follows.switchByte c rest careful short nul.1 nul.2 noControl
    intro normal
    rcases string normal with low | del
    · simp [isControl, normal, low] at control
    · exact nul.2 del

end Turn

end Hackterm
