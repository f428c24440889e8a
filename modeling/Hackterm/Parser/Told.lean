import Hackterm.Parser.Calls
import Hackterm.Parser.Reads

/-! # What the terminal and the program are told

The parser calls the terminal and the hooks of the program in the same turns. Of escape
sequences, commands and strings both are told the same, in the same order, whatever the bytes
and however they are cut (`Hackterm.told_reads`).
-/

namespace Hackterm

/-- What a call of a hook tells of escape sequences, commands and strings. -/
def HookEvent.told : HookEvent → Option ParserCall
  | .text _ => none
  | .escape bytes => some (.escape bytes)
  | .csi event => some (.csi event)
  | .osc command => some (.osc command)
  | .dcs command => some (.dcs command)

/-- What a call of the terminal tells of them; a string that starts with `$q` is a question to
the terminal alone. -/
def ParserCall.told : ParserCall → Option ParserCall
  | .text _ | .control _ => none
  | .dcs command => if [0x24, 0x71] <+: command then none else some (.dcs command)
  | call => some call

/-- The calls of both tell the same. -/
def SameTold (events : List HookEvent) (calls : List ParserCall) : Prop :=
  events.filterMap HookEvent.told = calls.filterMap ParserCall.told

theorem sameTold_nil : SameTold [] [] := rfl

theorem SameTold.append {events later : List HookEvent} {calls behind : List ParserCall}
    (first : SameTold events calls) (others : SameTold later behind) :
    SameTold (events ++ later) (calls ++ behind) := by
  unfold SameTold at first others ⊢
  rw [List.filterMap_append, List.filterMap_append, first, others]

section Turn

variable {loop : PushLoop} {turn : PushLoop × List HookEvent} {c : UInt8}

/-- A string is handed to both. -/
theorem doString_told {vt : VTerm} {strFrag : List UInt8} {after : VTerm × List HookEvent × Nat}
    (done : doString vt strFrag = some after) : SameTold after.2.1 (doStringCalls vt strFrag) := by
  rw [doString_handed] at done
  unfold doStringCalls
  dsimp only at done ⊢
  generalize handedString vt strFrag = string at done ⊢
  cases state : vt.parserState with
  | normal =>
      simp only [state] at done ⊢
      obtain ⟨read, -, rfl⟩ := Option.map_eq_some_iff.mp done
      dsimp only
      split_ifs <;> rfl
  | esc =>
      simp only [state] at done ⊢
      split at done
      case h_1 c =>
          split_ifs at done ⊢
          all_goals
            rw [← Option.some.inj done]
            rfl
      case h_2 =>
          rw [← Option.some.inj done]
          rfl
  | csi =>
      simp only [state] at done ⊢
      cases last : string.getLast? with
      | none => simp [last] at done
      | some command =>
          simp only [last, Option.map_some] at done ⊢
          rw [← Option.some.inj done]
          rfl
  | osc =>
      simp only [state] at done ⊢
      rw [← Option.some.inj done]
      rfl
  | dcs =>
      simp only [state] at done ⊢
      rw [← Option.some.inj done]
      unfold SameTold
      split_ifs with question
      · rw [List.filterMap_cons, ParserCall.told, if_pos question]
        rfl
      · rw [List.filterMap_cons, List.filterMap_cons, ParserCall.told, if_neg question]
        rfl
  | escInOsc | escInDcs =>
      simp only [state] at done ⊢
      rw [← Option.some.inj done]
      rfl

theorem finish_told {strFrag : List UInt8} (done : loop.finish strFrag = some turn) :
    SameTold turn.2 (doStringCalls loop.vt strFrag) := by
  obtain ⟨after, string, rfl⟩ := Option.map_eq_some_iff.mp done
  exact doString_told string

theorem escByte_told (taken : loop.escByte c = some turn) :
    SameTold turn.2 (loop.escByteCalls c) := by
  unfold PushLoop.escByte at taken
  unfold PushLoop.escByteCalls
  by_cases opens : c = 0x50 ∨ c = 0x5B ∨ c = 0x5D
  · rw [if_pos opens]
    rcases opens with rfl | rfl | rfl <;>
      · rw [← Option.some.inj taken]
        exact sameTold_nil
  · obtain ⟨dcs, csi, osc⟩ : c ≠ 0x50 ∧ c ≠ 0x5B ∧ c ≠ 0x5D := by tauto
    rw [if_neg dcs, if_neg csi, if_neg osc] at taken
    rw [if_neg opens]
    split_ifs at taken ⊢ with final
    · exact finish_told taken
    · rw [← Option.some.inj taken]
      exact sameTold_nil

theorem switchByte_told {rest : List UInt8} (taken : loop.switchByte c rest = some turn) :
    SameTold turn.2 (loop.switchCalls c rest) := by
  have inString : ∀ state, loop.escInStringByte state c = some turn →
      SameTold turn.2 (loop.escInStringCalls state c) := by
    intro state taken
    unfold PushLoop.escInStringByte at taken
    unfold PushLoop.escInStringCalls
    split_ifs at taken ⊢ with final
    · exact @finish_told { loop with vt := loop.vt.setParserState state } turn _ taken
    · exact escByte_told taken
  unfold PushLoop.switchByte at taken
  unfold PushLoop.switchCalls
  cases state : loop.vt.parserState with
  | escInOsc | escInDcs =>
      simp only [state] at taken ⊢
      exact inString _ taken
  | esc =>
      simp only [state] at taken ⊢
      exact escByte_told taken
  | csi | osc | dcs =>
      simp only [state] at taken ⊢
      split_ifs at taken ⊢ with final
      · exact finish_told taken
      · rw [← Option.some.inj taken]
        exact sameTold_nil
  | normal =>
      simp only [state] at taken ⊢
      obtain ⟨after, string, rfl⟩ := Option.map_eq_some_iff.mp taken
      have same := doString_told string
      dsimp only
      split_ifs <;> exact same

/-- **In every turn both are told the same.** -/
theorem pushByte_told {rest : List UInt8} (taken : pushByte loop c rest = some turn) :
    SameTold turn.2 (pushByteCalls loop c rest) := by
  unfold pushByte at taken
  unfold pushByteCalls
  cases skip : loop.skip with
  | succ more =>
      simp only [skip] at taken ⊢
      rw [← Option.some.inj taken]
      exact sameTold_nil
  | zero =>
      simp only [skip] at taken ⊢
      split_ifs at taken ⊢
      · rw [← Option.some.inj taken]
        exact sameTold_nil
      · rw [← Option.some.inj taken]
        exact sameTold_nil
      · rw [← Option.some.inj taken]
        exact sameTold_nil
      · rw [← Option.some.inj taken]
        exact sameTold_nil
      · exact switchByte_told taken

end Turn

/-- A read that tells both the same, or is undefined for both. -/
def ToldAlike {σ : Type} (hooks : Option (σ × List HookEvent))
    (calls : Option (σ × List ParserCall)) : Prop :=
  hooks.map (fun (last, events) => (last, events.filterMap HookEvent.told)) =
    calls.map fun (last, called) => (last, called.filterMap ParserCall.told)

theorem toldAlike_some {σ : Type} {last : σ} {events : List HookEvent} {calls : List ParserCall}
    (same : SameTold events calls) : ToldAlike (some (last, events)) (some (last, calls)) :=
  congrArg (fun told => some (last, told)) same

/-- Both are undefined, or both go on to the same state and are told the same. -/
theorem ToldAlike.elim {σ : Type} {hooks : Option (σ × List HookEvent)}
    {calls : Option (σ × List ParserCall)} (alike : ToldAlike hooks calls) :
    hooks = none ∧ calls = none ∨
      ∃ last events called, hooks = some (last, events) ∧ calls = some (last, called) ∧
        SameTold events called := by
  rcases hooks with - | ⟨last, events⟩ <;> rcases calls with - | ⟨other, called⟩
  · exact .inl ⟨rfl, rfl⟩
  · cases alike
  · cases alike
  · obtain ⟨same, told⟩ := Prod.mk.inj (Option.some.inj alike)
    obtain rfl : last = other := same
    exact .inr ⟨last, events, called, rfl, rfl, told⟩

/-- What both are told behind calls that tell the same. -/
theorem ToldAlike.behind {σ : Type} {hooks : Option (σ × List HookEvent)}
    {calls : Option (σ × List ParserCall)} {events : List HookEvent} {called : List ParserCall}
    (alike : ToldAlike hooks calls) (first : SameTold events called) :
    ToldAlike (hooks.map fun (last, later) => (last, events ++ later))
      (calls.map fun (last, later) => (last, called ++ later)) := by
  obtain ⟨rfl, rfl⟩ | ⟨last, later, others, rfl, rfl, told⟩ := alike.elim
  · rfl
  · exact toldAlike_some (first.append told)

/-- The loop over a read tells both the same. -/
theorem pushLoop_told (loop : PushLoop) (bytes : List UInt8) :
    ToldAlike (pushLoop loop bytes) (pushLoopCalls loop bytes) := by
  induction bytes generalizing loop with
  | nil => exact toldAlike_some sameTold_nil
  | cons c rest ih =>
      rw [pushLoop, pushLoopCalls]
      cases taken : pushByte loop c rest with
      | none => rfl
      | some turn => exact (ih turn.1).behind (pushByte_told taken)

theorem vtermPush_told (vt : VTerm) (bytes : List UInt8) :
    ToldAlike (vtermPushBytes vt bytes) (vtermPushCalls vt bytes) := by
  unfold vtermPushBytes vtermPushCalls
  obtain ⟨hooks, calls⟩ | ⟨loop, events, called, hooks, calls, told⟩ :=
    (pushLoop_told (readStart vt) bytes).elim
  · rw [hooks, calls]
    rfl
  · rw [hooks, calls]
    exact toldAlike_some told

/-- Hand the reads to the parser one by one, and collect the calls of the terminal. -/
def pushReadsCalls (vt : VTerm) (reads : List (List UInt8)) : Option (VTerm × List ParserCall) :=
  (Streaming.feed vtermPushCalls vt reads).map fun (last, calls) => (last, calls.flatten)

theorem pushReads_told (vt : VTerm) (reads : List (List UInt8)) :
    ToldAlike (pushReads vt reads) (pushReadsCalls vt reads) := by
  induction reads generalizing vt with
  | nil => exact toldAlike_some sameTold_nil
  | cons bytes reads ih =>
      unfold pushReads pushReadsCalls
      rw [Streaming.map_flatten_feed_cons, Streaming.map_flatten_feed_cons]
      obtain ⟨hooks, calls⟩ | ⟨next, events, called, hooks, calls, told⟩ :=
        (vtermPush_told vt bytes).elim
      · rw [hooks, calls]
        rfl
      · rw [hooks, calls]
        exact (ih next).behind told

/-- Calls that are spread tell the same. -/
theorem filterMap_told_spreadAll (events : List HookEvent) :
    (spreadAll events).filterMap HookEvent.told = events.filterMap HookEvent.told := by
  induction events with
  | nil => rfl
  | cons event events ih =>
      have first : event.spread.filterMap HookEvent.told = [event].filterMap HookEvent.told := by
        cases event with
        | text bytes =>
            rw [HookEvent.spread, List.filterMap_map]
            exact List.filterMap_none bytes
        | escape | csi | osc | dcs => rfl
      have split : spreadAll (event :: events) = event.spread ++ spreadAll events := rfl
      rw [split, List.filterMap_append, first, ih, ← List.filterMap_append, List.singleton_append]

/-- **The terminal and the program are told the same.** From every state of the parser and over
any reads, both are undefined or the calls of the terminal and of the hooks are for the same
escape sequences, commands and strings in the same order, apart from the questions that the
terminal answers itself. That both go on to the same state says nothing new, since
`pushLoopCalls` takes the turns of `pushByte`. -/
theorem told_reads (vt : VTerm) (reads : List (List UInt8)) :
    (pushReads vt reads).map (fun (last, events) => (last, events.filterMap HookEvent.told)) =
      (pushReadsCalls vt reads).map fun (last, calls) =>
        (last, calls.filterMap ParserCall.told) :=
  pushReads_told vt reads

/-- The question `ESC P $ q m BEL` reaches the terminal alone, and `ESC [ 3 1 m`, which is cut,
both. -/
example :
    (pushReads vtermStart
        [[0x1B, 0x50, 0x24, 0x71, 0x6D, 0x07, 0x1B, 0x5B, 0x33], [0x31, 0x6D]]).map (·.2) =
      some [.csi ⟨[], [31], [], 0x6D⟩] ∧
    (pushReadsCalls vtermStart
        [[0x1B, 0x50, 0x24, 0x71, 0x6D, 0x07, 0x1B, 0x5B, 0x33], [0x31, 0x6D]]).map (·.2) =
      some [.dcs [0x24, 0x71, 0x6D], .csi ⟨[], [31], [], 0x6D⟩] := by
  decide +kernel

end Hackterm
