import Hackterm.State.Handlers

/-! # What a handler can do

A control, an escape sequence or a CSI sequence leaves a state of one of a few shapes
(`Hackterm.Shape`): it sets the cursor, the modes, the tab stops or the scroll region, or it
selects, saves or restores a pen, or it resets the terminal. The size of the screen and the
glyph that is kept for combining stay. So the screen follows the pen of the state through
all handlers, and in every run new cells are drawn with the pen of the state
(`Hackterm.pen_agrees`). The character sets are those that the parser keeps
(`Hackterm.handle_encodings`).
-/

namespace Hackterm

open BitFields

open VTermState Reaction

/-- A call that is not about the pen. -/
def StateCall.Quiet : StateCall → Prop
  | .setpenattr _ => False
  | _ => True

/-- Selecting a rendition changes the pen and the foreground of the palette only. -/
def PenOnly (state after : VTermState) : Prop :=
  ∃ pen fgAnsi, after = { state with pen := pen, fgAnsi := fgAnsi }

/-- The state that a reset with `hard` leaves. -/
def resetTo (tabstops : List UInt8) (state : VTermState) : VTermState :=
  { state with
    scrollregionStart := 0
    scrollregionEnd := -1
    mode := modeReset
    tabstops := tabstops
    pen := ⟨state.defaultFg, state.defaultBg, false, 0, false, false, false, false, 0⟩
    fgAnsi := -1
    pos := ⟨0, 0⟩
    atPhantom := false }

/-- What controls, escape sequences and CSI sequences leave, apart from the character
sets. -/
inductive Shape (state : VTermState) : Reaction → Prop where
  | plain {pos : VTermPos} {atPhantom : Bool} {mode : VTermMode} {tabstops : List UInt8}
      {start bottom : Int} {calls : List StateCall}
      (size : tabstops.length = state.tabstops.length) (quiet : ∀ call ∈ calls, call.Quiet) :
      Shape state
        ({ state with
            pos := pos
            atPhantom := atPhantom
            mode := mode
            tabstops := tabstops
            scrollregionStart := start
            scrollregionEnd := bottom }, calls)
  | selected {reaction : Reaction} (penOnly : PenOnly state reaction.1)
      (samePen : reaction.SamePen state) : Shape state reaction
  | saved {mode : VTermMode} {calls : List StateCall} (quiet : ∀ call ∈ calls, call.Quiet) :
      Shape state ((state.setMode mode).savecursor, calls)
  | restored {mode : VTermMode} {calls : List StateCall} (quiet : ∀ call ∈ calls, call.Quiet) :
      Shape state ((state.setMode mode).restorecursor.1,
        calls ++ (state.setMode mode).restorecursor.2)
  | reset {tabstops : List UInt8} (size : tabstops.length = state.tabstops.length) :
      Shape state (resetTo tabstops state,
        penCalls (resetTo tabstops state).pen ++ cursorCalls modeReset ++ [.erase state.fullRect])

variable {state : VTermState} {reaction : Reaction}

theorem penOnly_setpenParameter (parameter : SgrParameter) :
    PenOnly state (setpenParameter parameter state).1 := by
  cases parameter with
  | boldOn =>
      unfold setpenParameter Reaction.andThen
      dsimp only
      split_ifs <;> exact ⟨_, _, rfl⟩
  | _ => exact ⟨_, _, rfl⟩

theorem PenOnly.trans {first second third : VTermState} (front : PenOnly first second)
    (back : PenOnly second third) : PenOnly first third := by
  obtain ⟨pen, fgAnsi, rfl⟩ := front
  obtain ⟨other, number, rfl⟩ := back
  exact ⟨other, number, rfl⟩

theorem penOnly_setpenStep {arg : Int} {rest : List Int} {turn : Reaction × Nat}
    (taken : setpenStep arg rest state = some turn) : PenOnly state turn.1.1 := by
  unfold setpenStep at taken
  split_ifs at taken
  · cases rest with
    | nil => cases taken
    | cons palette args =>
        rw [← Option.some.inj taken]
        exact ⟨_, _, rfl⟩
  · cases rest with
    | nil => cases taken
    | cons palette args =>
        rw [← Option.some.inj taken]
        exact ⟨_, _, rfl⟩
  · rw [← Option.some.inj taken]
    cases sgrParameter (csiArg arg) with
    | none => exact ⟨_, _, rfl⟩
    | some parameter => exact penOnly_setpenParameter parameter

/-- Selecting a rendition changes nothing but the pen. -/
theorem penOnly_setpenLoop {skip : Nat} {args : List Int}
    (selected : setpenLoop skip args state = some reaction) : PenOnly state reaction.1 := by
  induction args generalizing skip state reaction with
  | nil =>
      rw [setpenLoop] at selected
      rw [← Option.some.inj selected]
      exact ⟨state.pen, state.fgAnsi, rfl⟩
  | cons arg rest ih =>
      cases skip with
      | succ skip => exact ih selected
      | zero =>
          obtain ⟨turn, taken, others⟩ := Option.bind_eq_some_iff.mp selected
          obtain ⟨more, -, others⟩ := Option.bind_eq_some_iff.mp others
          obtain ⟨later, looped, rfl⟩ := Option.map_eq_some_iff.mp others
          have behind : PenOnly turn.1.1 later.1 := ih looped
          exact (penOnly_setpenStep taken).trans behind

/-- A handler that only calls the screen. -/
theorem Shape.calls {calls : List StateCall} (quiet : ∀ call ∈ calls, call.Quiet) :
    Shape state (state, calls) := .plain rfl quiet

/-- A handler that sets the position and leaves or keeps the phantom column. -/
theorem Shape.moved (pos : VTermPos) (atPhantom : Bool) :
    Shape state ({ state with pos := pos, atPhantom := atPhantom }, []) := .plain rfl (by simp)

theorem quiet_nil : ∀ call ∈ ([] : List StateCall), call.Quiet := by simp

theorem quiet_scroll (rect : VTermRect) (downward rightward : Int) :
    ∀ call ∈ scroll rect downward rightward, call.Quiet := by
  unfold scroll
  split_ifs
  · exact quiet_nil
  · exact List.forall_mem_singleton.mpr trivial

theorem length_setTab {tabstops written : List UInt8} {col : Int}
    (wrote : setColTabstop tabstops col = some written) : written.length = tabstops.length := by
  unfold setColTabstop at wrote
  split_ifs at wrote
  exact (Bits.setBit_inside wrote).2

theorem length_clearTab {tabstops written : List UInt8} {col : Int}
    (wrote : clearColTabstop tabstops col = some written) : written.length = tabstops.length := by
  unfold clearColTabstop at wrote
  split_ifs at wrote
  exact (Bits.setBit_inside wrote).2

/-- A loop over columns keeps the size of the array. -/
theorem length_foldTabs {f : List UInt8 → Nat → Option (List UInt8)}
    (kept : ∀ tabstops written col, f tabstops col = some written →
      written.length = tabstops.length)
    (columns : List Nat) {tabstops written : List UInt8}
    (folded : columns.foldlM f tabstops = some written) : written.length = tabstops.length := by
  induction columns generalizing tabstops with
  | nil =>
      rw [← Option.some.inj folded]
  | cons col columns ih =>
      obtain ⟨next, wrote, rest⟩ := Option.bind_eq_some_iff.mp folded
      exact (ih rest).trans (kept _ _ _ wrote)

theorem length_resetTabstops {tabstops written : List UInt8} {cols : Nat}
    (wrote : resetTabstops tabstops cols = some written) : written.length = tabstops.length := by
  apply length_foldTabs _ _ wrote
  intro tabstops written col put
  split_ifs at put
  · exact length_setTab put
  · exact length_clearTab put

theorem length_clearTabs {tabstops written : List UInt8} {cols : Nat}
    (wrote : clearTabstops tabstops cols = some written) : written.length = tabstops.length :=
  length_foldTabs (fun _ _ _ put => length_clearTab put) _ wrote

theorem Shape.ofReset {defaultEnc : VTermEncoding} (done : state.reset defaultEnc = some reaction) :
    Shape { state with encodings := state.encodings.reset defaultEnc } reaction := by
  obtain ⟨tabstops, wrote, rfl⟩ := Option.map_eq_some_iff.mp done
  exact .reset (length_resetTabstops wrote)

/-- A line feed sets at most the row. -/
theorem linefeed_cases (state : VTermState) :
    linefeed state = (state, scroll state.scrollregion 1 0) ∨
      linefeed state = (state.setRow (state.pos.row + 1), []) ∨ linefeed state = (state, []) := by
  unfold linefeed
  split_ifs
  · exact .inl rfl
  · exact .inr (.inl rfl)
  · exact .inr (.inr rfl)

/-- A line feed, and then at most another column. -/
theorem Shape.linefeedThen {second : VTermState → VTermState}
    (sets : ∀ state : VTermState, ∃ pos, second state = { state with pos := pos }) :
    Shape state ((linefeed state).andThen fun state => (second state, [])) := by
  unfold Reaction.andThen
  dsimp only
  rw [List.append_nil]
  rcases linefeed_cases state with same | same | same
  · obtain ⟨pos, here⟩ := sets state
    rw [same]
    dsimp only
    rw [here]
    exact .plain rfl (quiet_scroll _ _ _)
  · obtain ⟨pos, here⟩ := sets (state.setRow (state.pos.row + 1))
    rw [same, here]
    exact .plain rfl quiet_nil
  · obtain ⟨pos, here⟩ := sets state
    rw [same, here]
    exact .plain rfl quiet_nil

theorem Shape.ofLinefeed (state : VTermState) : Shape state (linefeed state) := by
  rcases linefeed_cases state with same | same | same
  · rw [same]
    exact .calls (quiet_scroll _ _ _)
  · rw [same]
    exact .moved _ _
  · rw [same]
    exact .calls quiet_nil

/-- What a control makes of the character sets. -/
def ControlFunction.sets (function : ControlFunction) (encodings : Encodings) : Encodings :=
  match function with
  | .ls1 => encodings.setGl 1
  | .ls0 => encodings.setGl 0
  | _ => encodings

/-- What an escape sequence makes of the character sets. -/
def EscapeFunction.sets (function : EscapeFunction) (encodings : Encodings) : Encodings :=
  match function with
  | .scs set designation => encodings.designate set designation
  | .ris => encodings.reset .utf8
  | .ls2 => encodings.setGl 2
  | .ls3 => encodings.setGl 3
  | _ => encodings

/-- **What a control can do.** -/
theorem Shape.ofControl {function : ControlFunction}
    (done : state.doControlFunction function = some reaction) :
    Shape { state with encodings := function.sets state.encodings } reaction := by
  cases function with
  | ht =>
      obtain ⟨col, -, rfl⟩ := Option.map_eq_some_iff.mp done
      exact .moved _ _
  | hts =>
      obtain ⟨tabstops, wrote, rfl⟩ := Option.map_eq_some_iff.mp done
      exact .plain (length_setTab wrote) quiet_nil
  | lf =>
      rw [← Option.some.inj done]
      apply Shape.linefeedThen
      intro state
      split_ifs <;> exact ⟨_, rfl⟩
  | nel =>
      rw [← Option.some.inj done]
      exact Shape.linefeedThen fun state => ⟨_, rfl⟩
  | ind =>
      rw [← Option.some.inj done]
      exact .ofLinefeed state
  | ri =>
      rw [← Option.some.inj done]
      split_ifs
      · exact .calls (quiet_scroll _ _ _)
      · exact .moved _ _
      · exact .calls quiet_nil
  | bs =>
      rw [← Option.some.inj done]
      split_ifs
      · exact .moved _ _
      · exact .calls quiet_nil
  | bel =>
      rw [← Option.some.inj done]
      exact .calls (List.forall_mem_singleton.mpr trivial)
  | cr =>
      rw [← Option.some.inj done]
      exact .moved _ _
  | ls1 | ls0 =>
      rw [← Option.some.inj done]
      exact .calls quiet_nil

/-- **What an escape sequence can do.** -/
theorem Shape.ofEscape {function : EscapeFunction}
    (done : state.doEscapeFunction function = some reaction) :
    Shape { state with encodings := function.sets state.encodings } reaction := by
  cases function with
  | decaln =>
      rw [← Option.some.inj done]
      apply Shape.calls
      intro call member
      obtain ⟨pos, -, rfl⟩ := List.mem_map.mp member
      trivial
  | scs | ls2 | ls3 =>
      rw [← Option.some.inj done]
      exact .calls quiet_nil
  | decsc =>
      rw [← Option.some.inj done]
      exact @Shape.saved _ state.mode [] quiet_nil
  | decrc =>
      rw [← Option.some.inj done]
      exact @Shape.restored _ state.mode [] quiet_nil
  | deckpam | deckpnm =>
      rw [← Option.some.inj done]
      exact .plain rfl quiet_nil
  | ris => exact .ofReset done

/-- A mode that is set or reset. -/
theorem Shape.ofDecMode (mode : DecMode) (val : Bool) :
    Shape state (setDecMode mode val state) := by
  have switched : ∀ val, ∀ call ∈ (state.altscreen val).2, call.Quiet := by
    intro val
    cases val
    · exact List.forall_mem_singleton.mpr trivial
    · exact List.forall_mem_cons.mpr ⟨trivial, List.forall_mem_singleton.mpr trivial⟩
  cases mode with
  | origin =>
      unfold setDecMode
      dsimp only
      unfold updatecursor
      split_ifs <;> exact .plain rfl quiet_nil
  | altscreen => exact .plain rfl (switched val)
  | savecursor =>
      cases val with
      | true => exact @Shape.saved _ state.mode [] quiet_nil
      | false => exact @Shape.restored _ state.mode [] quiet_nil
  | altscreenSavecursor =>
      cases val with
      | true =>
          have same : setDecMode .altscreenSavecursor true state =
              ((state.setMode { state.mode with altScreen := true }).savecursor,
                (state.altscreen true).2) := rfl
          rw [same]
          exact .saved (switched true)
      | false => exact .restored (switched false)
  | reverse => exact .calls (List.forall_mem_singleton.mpr trivial)
  | cursor | autowrap => exact .plain rfl quiet_nil
  | cursorBlink | cursorVisible => exact .plain rfl (List.forall_mem_singleton.mpr trivial)

theorem quiet_ite {condition : Prop} [Decidable condition] {first second : List StateCall}
    (one : ∀ call ∈ first, call.Quiet) (other : ∀ call ∈ second, call.Quiet) :
    ∀ call ∈ if condition then first else second, call.Quiet := by
  split_ifs
  · exact one
  · exact other

theorem quiet_append {first second : List StateCall} (one : ∀ call ∈ first, call.Quiet)
    (other : ∀ call ∈ second, call.Quiet) : ∀ call ∈ first ++ second, call.Quiet :=
  List.forall_mem_append.mpr ⟨one, other⟩

theorem quiet_erase (rect : VTermRect) : ∀ call ∈ [StateCall.erase rect], call.Quiet :=
  List.forall_mem_singleton.mpr trivial

theorem Shape.ofMove {row col : Int} (done : state.moveTo row col = some reaction) :
    Shape state reaction := by
  unfold moveTo at done
  split_ifs at done
  rw [← Option.some.inj done]
  exact .moved _ _

theorem Shape.ofChangeMode {arg : Int} {change : Nat → VTermState → Reaction}
    (shapes : ∀ num, Shape state (change num state)) :
    Shape state (state.changeMode arg change) := by
  unfold changeMode
  split_ifs
  · exact .calls quiet_nil
  · exact shapes _

theorem Shape.ofAnsiMode (num : Nat) (val : Bool) :
    Shape state (state.setAnsiMode num val, []) := by
  unfold setAnsiMode
  split_ifs <;> exact .plain rfl quiet_nil

theorem Shape.ofDecNumber (num : Nat) (val : Bool) :
    Shape state ((decMode num).elim (state, []) (setDecMode · val state)) := by
  cases decMode num with
  | none => exact .calls quiet_nil
  | some mode => exact .ofDecMode mode val

/-- **What a CSI sequence can do.** -/
theorem Shape.ofCsi {args : List Int} {function : CsiFunction}
    (done : state.doCsiFunction args function = some reaction) : Shape state reaction := by
  cases function with
  | cuu | vpb | cud | vpr | cuf | hpr | cub | hpb | cnl | cpl | cha | hpa | cup | hvp | vpa =>
      exact .ofMove done
  | cht | cbt =>
      obtain ⟨col, -, rfl⟩ := Option.map_eq_some_iff.mp done
      exact .moved _ _
  | ich | il | dl | dch | su | sd =>
      rw [← Option.some.inj done]
      exact .calls (quiet_scroll _ _ _)
  | ed =>
      rw [← Option.some.inj done]
      apply Shape.calls
      unfold eraseInDisplay
      exact quiet_ite
        (quiet_append (quiet_ite (quiet_erase _) quiet_nil) (quiet_ite (quiet_erase _) quiet_nil))
        (quiet_ite (quiet_append (quiet_ite (quiet_erase _) quiet_nil) (quiet_erase _))
          (quiet_ite (quiet_erase _) quiet_nil))
  | el =>
      rw [← Option.some.inj done]
      exact .calls (quiet_ite (quiet_erase _) quiet_nil)
  | ech =>
      unfold doCsiFunction at done
      split_ifs at done
      rw [← Option.some.inj done]
      exact .calls (quiet_erase _)
  | da | dsr =>
      rw [← Option.some.inj done]
      exact .calls quiet_nil
  | tbc =>
      obtain ⟨after, cleared, rfl⟩ := Option.map_eq_some_iff.mp done
      unfold clearTabs at cleared
      split_ifs at cleared
      · obtain ⟨tabstops, wrote, rfl⟩ := Option.map_eq_some_iff.mp cleared
        exact .plain (length_clearTab wrote) quiet_nil
      · obtain ⟨tabstops, wrote, rfl⟩ := Option.map_eq_some_iff.mp cleared
        exact .plain (length_clearTabs wrote) quiet_nil
      · rw [← Option.some.inj cleared]
        exact .calls quiet_nil
  | sm =>
      rw [← Option.some.inj done]
      exact .ofChangeMode fun num => .ofAnsiMode num true
  | rm =>
      rw [← Option.some.inj done]
      exact .ofChangeMode fun num => .ofAnsiMode num false
  | decsm =>
      rw [← Option.some.inj done]
      exact .ofChangeMode fun num => .ofDecNumber num true
  | decrm =>
      rw [← Option.some.inj done]
      exact .ofChangeMode fun num => .ofDecNumber num false
  | sgr => exact .selected (penOnly_setpenLoop done) (samePen_setpenLoop done)
  | decscusr =>
      rw [← Option.some.inj done]
      exact .plain rfl
        (List.forall_mem_cons.mpr ⟨trivial, List.forall_mem_singleton.mpr trivial⟩)
  | decstbm =>
      rw [← Option.some.inj done]
      exact .plain rfl quiet_nil
  | save =>
      rw [← Option.some.inj done]
      exact @Shape.saved _ state.mode [] quiet_nil
  | restore =>
      rw [← Option.some.inj done]
      exact @Shape.restored _ state.mode [] quiet_nil

/-- Quiet calls leave the pen. -/
theorem penAfter_quiet {calls : List StateCall} (quiet : ∀ call ∈ calls, call.Quiet)
    (pen : ScreenPen) : penAfter pen calls = pen := by
  induction calls with
  | nil => rfl
  | cons call calls ih =>
      obtain ⟨first, others⟩ := List.forall_mem_cons.mp quiet
      have here : call.drawnWith pen = pen := by
        cases call with
        | setpenattr attr => exact absurd first id
        | _ => rfl
      rw [penAfter, List.foldl_cons, here]
      exact ih others

theorem updatecursor_pen (oldpos : VTermPos) (cancel : Bool) :
    (state.updatecursor oldpos cancel).pen = state.pen := by
  unfold updatecursor
  split_ifs <;> rfl

/-- The screen follows the pen through every shape. -/
theorem Shape.samePen (shape : Shape state reaction) : reaction.SamePen state := by
  cases shape with
  | plain size quiet => exact penAfter_quiet quiet _
  | selected penOnly samePen => exact samePen
  | saved quiet => exact penAfter_quiet quiet _
  | @restored mode calls quiet =>
      have pen : ((state.setMode mode).restorecursor).1.pen = state.saved.pen :=
        updatecursor_pen _ _
      unfold SamePen
      rw [penAfter_append, penAfter_quiet quiet, pen]
      rfl
  | reset size => rfl

namespace VTermState

/-- The fields that are only set up, or only changed by text or by a change of the size. -/
structure Frame (state after : VTermState) : Prop where
  rows : after.rows = state.rows
  cols : after.cols = state.cols
  tabs : after.tabstops.length = state.tabstops.length
  combineChars : after.combineChars = state.combineChars
  combineWidth : after.combineWidth = state.combineWidth
  combinePos : after.combinePos = state.combinePos
  encodings : after.encodings = state.encodings
  defaultFg : after.defaultFg = state.defaultFg
  defaultBg : after.defaultBg = state.defaultBg
  boldIsHighbright : after.boldIsHighbright = state.boldIsHighbright

theorem Frame.refl (state : VTermState) : Frame state state :=
  ⟨rfl, rfl, rfl, rfl, rfl, rfl, rfl, rfl, rfl, rfl⟩

theorem Frame.trans {first second third : VTermState} (front : Frame first second)
    (back : Frame second third) : Frame first third where
  rows := back.rows.trans front.rows
  cols := back.cols.trans front.cols
  tabs := back.tabs.trans front.tabs
  combineChars := back.combineChars.trans front.combineChars
  combineWidth := back.combineWidth.trans front.combineWidth
  combinePos := back.combinePos.trans front.combinePos
  encodings := back.encodings.trans front.encodings
  defaultFg := back.defaultFg.trans front.defaultFg
  defaultBg := back.defaultBg.trans front.defaultBg
  boldIsHighbright := back.boldIsHighbright.trans front.boldIsHighbright

theorem frame_updatecursor (oldpos : VTermPos) (cancel : Bool) :
    Frame state (state.updatecursor oldpos cancel) := by
  unfold updatecursor
  split_ifs
  · exact Frame.refl state
  · exact ⟨rfl, rfl, rfl, rfl, rfl, rfl, rfl, rfl, rfl, rfl⟩
  · exact Frame.refl state

end VTermState

/-- The frame stays in every shape. -/
theorem Shape.frame (shape : Shape state reaction) : Frame state reaction.1 := by
  cases shape with
  | plain size quiet => exact ⟨rfl, rfl, size, rfl, rfl, rfl, rfl, rfl, rfl, rfl⟩
  | selected penOnly samePen =>
      obtain ⟨pen, fgAnsi, same⟩ := penOnly
      rw [same]
      exact ⟨rfl, rfl, rfl, rfl, rfl, rfl, rfl, rfl, rfl, rfl⟩
  | saved quiet => exact ⟨rfl, rfl, rfl, rfl, rfl, rfl, rfl, rfl, rfl, rfl⟩
  | @restored mode calls quiet =>
      have set : Frame state (vtermStateRestorepen
          { state.setMode mode with
            pos := state.saved.pos
            mode := { mode with
              cursorVisible := state.saved.cursorVisible
              cursorBlink := state.saved.cursorBlink
              cursorShape := state.saved.cursorShape } }).1 :=
        ⟨rfl, rfl, rfl, rfl, rfl, rfl, rfl, rfl, rfl, rfl⟩
      exact set.trans (frame_updatecursor _ _)
  | reset size => exact ⟨rfl, rfl, size, rfl, rfl, rfl, rfl, rfl, rfl, rfl⟩

/-- Text changes the cursor and the glyph that is kept. -/
structure TextFrame (state after : VTermState) : Prop where
  rows : after.rows = state.rows
  cols : after.cols = state.cols
  start : after.scrollregionStart = state.scrollregionStart
  bottom : after.scrollregionEnd = state.scrollregionEnd
  tabstops : after.tabstops = state.tabstops
  mode : after.mode = state.mode
  encodings : after.encodings = state.encodings
  pen : after.pen = state.pen
  defaultFg : after.defaultFg = state.defaultFg
  defaultBg : after.defaultBg = state.defaultBg
  boldIsHighbright : after.boldIsHighbright = state.boldIsHighbright
  saved : after.saved = state.saved

theorem TextFrame.refl (state : VTermState) : TextFrame state state :=
  ⟨rfl, rfl, rfl, rfl, rfl, rfl, rfl, rfl, rfl, rfl, rfl, rfl⟩

theorem TextFrame.trans {first second third : VTermState} (front : TextFrame first second)
    (back : TextFrame second third) : TextFrame first third where
  rows := back.rows.trans front.rows
  cols := back.cols.trans front.cols
  start := back.start.trans front.start
  bottom := back.bottom.trans front.bottom
  tabstops := back.tabstops.trans front.tabstops
  mode := back.mode.trans front.mode
  encodings := back.encodings.trans front.encodings
  pen := back.pen.trans front.pen
  defaultFg := back.defaultFg.trans front.defaultFg
  defaultBg := back.defaultBg.trans front.defaultBg
  boldIsHighbright := back.boldIsHighbright.trans front.boldIsHighbright
  saved := back.saved.trans front.saved

theorem textFrame_wrap (state : VTermState) :
    TextFrame state state.wrap.1 ∧ ∀ call ∈ state.wrap.2, call.Quiet := by
  unfold wrap
  split_ifs
  · rcases linefeed_cases state with same | same | same <;> rw [same]
    · exact ⟨⟨rfl, rfl, rfl, rfl, rfl, rfl, rfl, rfl, rfl, rfl, rfl, rfl⟩,
        quiet_scroll state.scrollregion 1 0⟩
    · exact ⟨⟨rfl, rfl, rfl, rfl, rfl, rfl, rfl, rfl, rfl, rfl, rfl, rfl⟩, quiet_nil⟩
    · exact ⟨⟨rfl, rfl, rfl, rfl, rfl, rfl, rfl, rfl, rfl, rfl, rfl, rfl⟩, quiet_nil⟩
  · exact ⟨TextFrame.refl state, quiet_nil⟩

theorem textFrame_advance (width : Int) : TextFrame state (state.advance width) := by
  unfold advance
  split_ifs <;> exact ⟨rfl, rfl, rfl, rfl, rfl, rfl, rfl, rfl, rfl, rfl, rfl, rfl⟩

theorem textFrame_keepGlyph {chars : List Nat} {width : Int} {after : VTermState}
    (kept : state.keepGlyph chars width = some after) : TextFrame state after := by
  obtain ⟨stored, -, rfl⟩ := Option.map_eq_some_iff.mp kept
  exact ⟨rfl, rfl, rfl, rfl, rfl, rfl, rfl, rfl, rfl, rfl, rfl, rfl⟩

/-- A glyph. -/
theorem textFrame_putGlyph {chars : List Nat} {isLast : Bool}
    (put : state.putGlyph chars isLast = some reaction) :
    TextFrame state reaction.1 ∧ ∀ call ∈ reaction.2, call.Quiet := by
  obtain ⟨wrapped, quiet⟩ := textFrame_wrap state
  obtain ⟨kept, keeps, rfl⟩ := Option.map_eq_some_iff.mp put
  have held : TextFrame state.wrap.1 kept := by
    cases isLast with
    | true => exact textFrame_keepGlyph keeps
    | false =>
        rw [← Option.some.inj keeps]
        exact TextFrame.refl _
  refine ⟨(wrapped.trans held).trans (textFrame_advance _), ?_⟩
  exact quiet_append (quiet_append quiet (quiet_ite (quiet_scroll _ _ _) quiet_nil))
    (List.forall_mem_singleton.mpr trivial)

theorem textFrame_putGlyphs {glyphs : List (List Nat)}
    (put : putGlyphs glyphs state = some reaction) :
    TextFrame state reaction.1 ∧ ∀ call ∈ reaction.2, call.Quiet := by
  induction glyphs generalizing state reaction with
  | nil =>
      rw [← Option.some.inj put]
      exact ⟨TextFrame.refl state, quiet_nil⟩
  | cons chars rest ih =>
      obtain ⟨first, here, others⟩ := Option.bind_eq_some_iff.mp put
      obtain ⟨later, behind, rfl⟩ := Option.map_eq_some_iff.mp others
      obtain ⟨front, one⟩ := textFrame_putGlyph here
      obtain ⟨back, other⟩ := ih behind
      exact ⟨front.trans back, quiet_append one other⟩

/-- **What text can do.** -/
theorem textFrame_putCodepoints {codepoints : List Nat}
    (put : state.putCodepoints codepoints = some reaction) :
    TextFrame state reaction.1 ∧ ∀ call ∈ reaction.2, call.Quiet := by
  obtain ⟨⟨first, rest⟩, combined, others⟩ := Option.bind_eq_some_iff.mp put
  obtain ⟨later, behind, rfl⟩ := Option.map_eq_some_iff.mp others
  have front : TextFrame state first.1 ∧ ∀ call ∈ first.2, call.Quiet := by
    unfold putCombined at combined
    split_ifs at combined
    · obtain ⟨stored, -, same⟩ := Option.map_eq_some_iff.mp combined
      obtain ⟨rfl, rfl⟩ := Prod.mk.inj same
      exact ⟨⟨rfl, rfl, rfl, rfl, rfl, rfl, rfl, rfl, rfl, rfl, rfl, rfl⟩,
        List.forall_mem_singleton.mpr trivial⟩
    · obtain ⟨rfl, rfl⟩ := Prod.mk.inj (Option.some.inj combined)
      exact ⟨TextFrame.refl state, quiet_nil⟩
  obtain ⟨back, quiet⟩ := textFrame_putGlyphs behind
  exact ⟨front.1.trans back, quiet_append front.2 quiet⟩

/-- The function of a control, and what the parser keeps of it. -/
theorem sets_of_control (control : UInt8) (encodings : Encodings) :
    encodings.control control =
      (controlFunction control).elim encodings fun function => function.sets encodings := by
  have told : ∀ c : Fin 256,
      (controlFunction (UInt8.ofFin c) = some .ls1 ↔ UInt8.ofFin c = 0x0E) ∧
        (controlFunction (UInt8.ofFin c) = some .ls0 ↔ UInt8.ofFin c = 0x0F) := by
    decide +kernel
  obtain ⟨ls1, ls0⟩ := told control.toFin
  change controlFunction control = some .ls1 ↔ control = 0x0E at ls1
  change controlFunction control = some .ls0 ↔ control = 0x0F at ls0
  unfold Encodings.control
  rw [← if_congr ls1 rfl rfl, ← if_congr ls0 rfl rfl]
  cases controlFunction control with
  | none => rfl
  | some function => cases function <;> rfl

/-- The function of an escape sequence, and what the parser keeps of it. -/
theorem sets_of_escape (bytes : List UInt8) (encodings : Encodings) :
    encodings.escape bytes =
      (escapeFunction bytes).elim encodings fun function => function.sets encodings := by
  cases bytes with
  | nil => rfl
  | cons first rest =>
      unfold Encodings.escape escapeFunction
      dsimp only
      by_cases hash : first = 0x23
      · subst hash
        rw [if_pos rfl]
        by_cases eight : rest = [0x38]
        · rw [if_pos eight]
          rfl
        · rw [if_neg eight]
          rfl
      rw [if_neg hash]
      by_cases set : 0x28 ≤ first ∧ first ≤ 0x2B
      · rw [if_pos set, if_pos set]
        cases rest with
        | nil => rfl
        | cons designation more => cases more <;> rfl
      rw [if_neg set, if_neg set]
      by_cases ris : first = 0x63
      · subst ris
        rfl
      rw [if_neg ris]
      by_cases ls2 : first = 0x6E
      · subst ls2
        rfl
      rw [if_neg ls2]
      by_cases ls3 : first = 0x6F
      · subst ls3
        rfl
      rw [if_neg ls3]
      simp only [List.lookup_cons, List.lookup_nil, beq_eq_false_iff_ne.mpr ris,
        beq_eq_false_iff_ne.mpr ls2, beq_eq_false_iff_ne.mpr ls3]
      split
      · rfl
      split
      · rfl
      split
      · rfl
      split <;> rfl

theorem placed_updatecursor (state : VTermState) (oldpos : VTermPos) (cancel : Bool) :
    ∃ atPhantom, state.updatecursor oldpos cancel = { state with atPhantom := atPhantom } := by
  unfold updatecursor
  split_ifs <;> exact ⟨_, rfl⟩

/-- **What a call that is no text can do**, up to where the cursor is kept in the end. -/
theorem handle_cases {call : ParserCall} (done : state.handle call = some reaction)
    (noText : ∀ bytes, call ≠ .text bytes) :
    ∃ (encodings : Encodings) (inner : Reaction) (pos : VTermPos) (atPhantom : Bool),
      state.encodings.call call = some (encodings, []) ∧
        Shape { state with encodings := encodings } inner ∧
        reaction = ({ inner.1 with pos := pos, atPhantom := atPhantom }, inner.2) := by
  cases call with
  | text bytes => exact absurd rfl (noText bytes)
  | control control =>
      have sets := sets_of_control control state.encodings
      change state.onControl control = some reaction at done
      unfold onControl at done
      refine ⟨state.encodings.control control, ?_⟩
      rw [sets]
      cases told : controlFunction control with
      | none =>
          rw [told] at done sets
          refine ⟨(state, []), state.pos, state.atPhantom, ?_, .calls quiet_nil,
            (Option.some.inj done).symm⟩
          rw [Encodings.call, sets]
      | some function =>
          rw [told] at done sets
          obtain ⟨inner, did, rfl⟩ := Option.map_eq_some_iff.mp done
          obtain ⟨atPhantom, same⟩ := placed_updatecursor inner.1 state.pos true
          refine ⟨inner, inner.1.pos, atPhantom, ?_, Shape.ofControl did, ?_⟩
          · rw [Encodings.call, sets]
          · rw [same]
  | escape bytes =>
      have sets := sets_of_escape bytes state.encodings
      change state.onEscape bytes = some reaction at done
      unfold VTermState.onEscape at done
      refine ⟨state.encodings.escape bytes, ?_⟩
      rw [sets]
      cases told : escapeFunction bytes with
      | none =>
          rw [told] at done sets
          refine ⟨(state, []), state.pos, state.atPhantom, ?_, .calls quiet_nil,
            (Option.some.inj done).symm⟩
          rw [Encodings.call, sets]
      | some function =>
          rw [told] at done sets
          refine ⟨reaction, reaction.1.pos, reaction.1.atPhantom, ?_, Shape.ofEscape done, rfl⟩
          rw [Encodings.call, sets]
  | csi event =>
      change state.onCsi event = some reaction at done
      unfold onCsi at done
      cases told : csiFunction event with
      | none =>
          rw [told] at done
          exact ⟨state.encodings, (state, []), state.pos, state.atPhantom, rfl, .calls quiet_nil,
            (Option.some.inj done).symm⟩
      | some function =>
          rw [told] at done
          dsimp only at done
          split_ifs at done
          · exact ⟨state.encodings, (state, []), state.pos, state.atPhantom, rfl, .calls quiet_nil,
              (Option.some.inj done).symm⟩
          · obtain ⟨inner, did, rfl⟩ := Option.map_eq_some_iff.mp done
            obtain ⟨atPhantom, same⟩ :=
              placed_updatecursor inner.1.boundCursor state.pos true
            exact ⟨state.encodings, inner, inner.1.boundCursor.pos, atPhantom, rfl,
              Shape.ofCsi did, by rw [same]; rfl⟩
  | osc command | dcs command =>
      exact ⟨state.encodings, (state, []), state.pos, state.atPhantom, rfl, .calls quiet_nil,
        (Option.some.inj done).symm⟩

/-- Text, with the code points that are decoded. -/
theorem handle_text {bytes : List UInt8} (done : state.handle (.text bytes) = some reaction) :
    ∃ (encodings : Encodings) (codepoints : List Nat),
      state.encodings.call (.text bytes) = some (encodings, codepoints) ∧
        { state with encodings := encodings }.putCodepoints codepoints = some reaction := by
  obtain ⟨⟨encodings, codepoints, eaten⟩, decodes, put⟩ := Option.bind_eq_some_iff.mp done
  exact ⟨encodings, codepoints, by rw [Encodings.call, decodes]; rfl, put⟩

theorem call_noText (call : ParserCall) :
    (∃ bytes, call = .text bytes) ∨ ∀ bytes, call ≠ .text bytes := by
  cases call <;> simp

/-- **The character sets** of the terminal are those that the calls make of them. -/
theorem handle_encodings {call : ParserCall} (done : state.handle call = some reaction) :
    ∃ codepoints, state.encodings.call call = some (reaction.1.encodings, codepoints) := by
  rcases call_noText call with ⟨bytes, rfl⟩ | noText
  · obtain ⟨encodings, codepoints, called, put⟩ := handle_text done
    refine ⟨codepoints, ?_⟩
    rw [called, (textFrame_putCodepoints put).1.encodings]
  · obtain ⟨encodings, inner, pos, atPhantom, called, shape, rfl⟩ := handle_cases done noText
    refine ⟨[], ?_⟩
    rw [called]
    exact congrArg (fun sets => some (sets, [])) shape.frame.encodings.symm

/-- **The screen follows the pen** in every event. -/
theorem samePen_react {event : TermEvent} (done : state.react event = some reaction) :
    reaction.SamePen state := by
  cases event with
  | resize rows cols =>
      obtain ⟨tabstops, -, rfl⟩ := Option.map_eq_some_iff.mp done
      unfold SamePen
      rw [updatecursor_pen]
      rfl
  | call call =>
      rcases call_noText call with ⟨bytes, rfl⟩ | noText
      · obtain ⟨encodings, codepoints, -, put⟩ := handle_text done
        obtain ⟨frame, quiet⟩ := textFrame_putCodepoints put
        unfold SamePen
        rw [penAfter_quiet quiet, frame.pen]
      · obtain ⟨encodings, inner, pos, atPhantom, -, shape, rfl⟩ := handle_cases done noText
        exact shape.samePen

/-- The state after some events, and all calls they make. -/
def VTermState.reactAll : VTermState → List TermEvent → Option Reaction
  | state, [] => some (state, [])
  | state, event :: events =>
      (state.react event).bind fun first =>
        (first.1.reactAll events).map fun later => (later.1, first.2 ++ later.2)

/-- The terminal can be set up with every size. -/
theorem vtermStateStart_eq (rows cols : Nat) :
    ∃ tabstops, resetTabstops (vtermStateNew rows cols).tabstops cols = some tabstops ∧
      TabStops tabstops cols {col | col % 8 = 0} ∧
      vtermStateStart rows cols =
        some ({ resetTo tabstops (vtermStateNew rows cols) with
            encodings := (vtermStateNew rows cols).encodings.reset .usascii },
          penCalls (resetTo tabstops (vtermStateNew rows cols)).pen ++ cursorCalls modeReset ++
            [.erase (vtermStateNew rows cols).fullRect]) := by
  have blank : TabStops (vtermStateNew rows cols).tabstops cols ∅ := by
    refine ⟨List.length_replicate, fun col below => ?_⟩
    rw [isColTabstop_eq, vtermStateNew, Bits.bitAt_replicate (by omega)]
    simp
  obtain ⟨tabstops, wrote, stops⟩ := blank.reset
  refine ⟨tabstops, wrote, stops, ?_⟩
  have columns : (vtermStateNew rows cols).cols = cols := rfl
  unfold vtermStateStart reset
  rw [columns, wrote]
  rfl

/-- **New cells are drawn with the pen of the state**, in every run from the start, whatever the
screen began with. -/
theorem pen_agrees (rows cols : Nat) (screenPen : ScreenPen) :
    ∃ start, vtermStateStart rows cols = some start ∧
      ∀ events last, start.1.reactAll events = some last →
        penAfter screenPen (start.2 ++ last.2) = last.1.pen := by
  obtain ⟨tabstops, -, -, started⟩ := vtermStateStart_eq rows cols
  refine ⟨_, started, ?_⟩
  have run : ∀ events (state : VTermState) last, state.reactAll events = some last →
      penAfter state.pen last.2 = last.1.pen := by
    intro events
    induction events with
    | nil =>
        intro state last done
        rw [← Option.some.inj done]
        rfl
    | cons event events ih =>
        intro state last done
        obtain ⟨first, here, others⟩ := Option.bind_eq_some_iff.mp done
        obtain ⟨later, behind, rfl⟩ := Option.map_eq_some_iff.mp others
        have one : penAfter state.pen first.2 = first.1.pen := samePen_react here
        rw [penAfter_append, one, ih first.1 later behind]
  intro events last done
  rw [penAfter_append, ← run events _ last done]
  rfl

/-- The pen of a bold letter in reverse video is saved, reset and restored. -/
example :
    let events : List TermEvent := [.call (.csi ⟨[], [1, 7], [], 0x6D⟩), .call (.escape [0x37]),
      .call (.csi ⟨[], [0], [], 0x6D⟩), .call (.escape [0x38])]
    ((vtermStateStart 2 9).bind fun start => (start.1.reactAll events).map fun last =>
        (penAfter defaultPen (start.2 ++ last.2), last.1.pen)) =
      some ({ defaultPen with bold := true, reverse := true },
        { defaultPen with bold := true, reverse := true }) := by
  decide

end Hackterm
