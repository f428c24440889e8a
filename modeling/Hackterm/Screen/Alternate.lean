import Hackterm.Screen.Runs

/-! # The alternate screen

A program that takes the whole screen switches to the alternate buffer and saves the cursor,
and in the end it switches back and restores the cursor. Whatever it does in between, as long
as it neither switches nor saves again, it leaves the primary buffer, the cursor and the pen
as they were (`Hackterm.Terminal.alternate_isolated`).
-/

namespace Hackterm

open VTermState

/-- A call that leaves the buffer in use. -/
def StateCall.Local : StateCall → Prop
  | .settermprop (.altscreen _) | .resize _ _ => False
  | _ => True

/-- The mode that a CSI sequence sets or resets. -/
def CsiEvent.decMode (event : CsiEvent) : Option DecMode :=
  VTermState.decMode (csiArg (event.args.headD csiArgMissing))

/-- A call that neither switches the buffers nor saves the cursor. -/
def ParserCall.Keeps : ParserCall → Prop
  | .escape bytes => escapeFunction bytes ≠ some .decsc
  | .csi event => csiFunction event ≠ some .save ∧
      (csiFunction event = some .decsm → event.decMode ≠ some .altscreen ∧
        event.decMode ≠ some .savecursor ∧ event.decMode ≠ some .altscreenSavecursor) ∧
      (csiFunction event = some .decrm → event.decMode ≠ some .altscreen ∧
        event.decMode ≠ some .altscreenSavecursor)
  | .text _ | .control _ | .osc _ | .dcs _ => True

namespace VTermState

/-- What a handler keeps: the cursor that is saved and the buffer in use. -/
def Keeps (state : VTermState) (reaction : Reaction) : Prop :=
  reaction.1.saved = state.saved ∧ ∀ call ∈ reaction.2, call.Local

variable {state : VTermState} {reaction : Reaction}

theorem local_nil : ∀ call ∈ ([] : List StateCall), call.Local := by simp

theorem local_scroll (rect : VTermRect) (downward rightward : Int) :
    ∀ call ∈ scroll rect downward rightward, call.Local := by
  unfold scroll
  split_ifs
  · exact local_nil
  · exact List.forall_mem_singleton.mpr trivial

theorem keeps_linefeed (state : VTermState) : state.Keeps (linefeed state) := by
  rcases linefeed_cases state with same | same | same <;> rw [same]
  · exact ⟨rfl, local_scroll state.scrollregion 1 0⟩
  · exact ⟨rfl, local_nil⟩
  · exact ⟨rfl, local_nil⟩

theorem Keeps.append {later : Reaction} (first : state.Keeps reaction)
    (second : reaction.1.Keeps later) : state.Keeps (later.1, reaction.2 ++ later.2) :=
  ⟨second.1.trans first.1, List.forall_mem_append.mpr ⟨first.2, second.2⟩⟩

theorem local_wrap (state : VTermState) : ∀ call ∈ state.wrap.2, call.Local := by
  unfold wrap
  split_ifs
  · exact (keeps_linefeed state).2
  · exact local_nil

theorem keeps_putGlyphs {glyphs : List (List Nat)}
    (put : putGlyphs glyphs state = some reaction) : state.Keeps reaction := by
  refine ⟨(textFrame_putGlyphs put).1.saved, ?_⟩
  induction glyphs generalizing state reaction with
  | nil =>
      rw [← Option.some.inj put]
      exact local_nil
  | cons chars rest ih =>
      obtain ⟨first, here, others⟩ := Option.bind_eq_some_iff.mp put
      obtain ⟨later, behind, rfl⟩ := Option.map_eq_some_iff.mp others
      refine List.forall_mem_append.mpr ⟨?_, ih behind⟩
      obtain ⟨kept, -, rfl⟩ := Option.map_eq_some_iff.mp here
      refine List.forall_mem_append.mpr ⟨List.forall_mem_append.mpr ⟨local_wrap state, ?_⟩,
        List.forall_mem_singleton.mpr trivial⟩
      split_ifs
      · exact local_scroll _ _ _
      · exact local_nil

theorem keeps_text {bytes : List UInt8} (done : state.handle (.text bytes) = some reaction) :
    state.Keeps reaction := by
  obtain ⟨encodings, codepoints, -, put⟩ := handle_text done
  refine ⟨(textFrame_putCodepoints put).1.saved, ?_⟩
  obtain ⟨⟨first, rest⟩, combined, others⟩ := Option.bind_eq_some_iff.mp put
  obtain ⟨later, behind, rfl⟩ := Option.map_eq_some_iff.mp others
  refine List.forall_mem_append.mpr ⟨?_, (keeps_putGlyphs behind).2⟩
  unfold putCombined at combined
  split_ifs at combined
  · obtain ⟨stored, -, same⟩ := Option.map_eq_some_iff.mp combined
    obtain ⟨rfl, rfl⟩ := Prod.mk.inj same
    exact List.forall_mem_singleton.mpr trivial
  · obtain ⟨rfl, rfl⟩ := Prod.mk.inj (Option.some.inj combined)
    exact local_nil

theorem Keeps.calls {calls : List StateCall} (local_ : ∀ call ∈ calls, call.Local) :
    state.Keeps (state, calls) := ⟨rfl, local_⟩

theorem Keeps.updatecursor (keeps : state.Keeps reaction) (oldpos : VTermPos) (cancel : Bool) :
    state.Keeps (reaction.1.updatecursor oldpos cancel, reaction.2) := by
  obtain ⟨atPhantom, same⟩ := placed_updatecursor reaction.1 oldpos cancel
  rw [same]
  exact keeps

theorem keeps_control {control : UInt8} (done : state.onControl control = some reaction) :
    state.Keeps reaction := by
  unfold VTermState.onControl at done
  cases told : controlFunction control with
  | none =>
      rw [told] at done
      rw [← Option.some.inj done]
      exact .calls local_nil
  | some function =>
      rw [told] at done
      obtain ⟨inner, did, rfl⟩ := Option.map_eq_some_iff.mp done
      apply Keeps.updatecursor
      cases function with
      | bel =>
          rw [← Option.some.inj did]
          exact .calls (List.forall_mem_singleton.mpr trivial)
      | bs =>
          rw [← Option.some.inj did]
          split_ifs <;> exact ⟨rfl, local_nil⟩
      | ht | hts =>
          obtain ⟨-, -, rfl⟩ := Option.map_eq_some_iff.mp did
          exact ⟨rfl, local_nil⟩
      | lf =>
          rw [← Option.some.inj did]
          refine (keeps_linefeed state).append ⟨?_, local_nil⟩
          dsimp only
          split_ifs <;> rfl
      | nel =>
          rw [← Option.some.inj did]
          exact (keeps_linefeed state).append ⟨rfl, local_nil⟩
      | ind =>
          rw [← Option.some.inj did]
          exact keeps_linefeed state
      | ri =>
          rw [← Option.some.inj did]
          split_ifs
          · exact .calls (local_scroll _ _ _)
          · exact ⟨rfl, local_nil⟩
          · exact .calls local_nil
      | cr | ls1 | ls0 =>
          rw [← Option.some.inj did]
          exact ⟨rfl, local_nil⟩

theorem keeps_restorecursor (state : VTermState) : state.Keeps state.restorecursor := by
  refine ⟨?_, ?_⟩
  · obtain ⟨mode, pen, atPhantom, same, -⟩ := restorecursor_placed state
    rw [same]
  · simp [VTermState.restorecursor, cursorCalls, vtermStateRestorepen, penCalls, StateCall.Local]

theorem keeps_reset {defaultEnc : VTermEncoding} (done : state.reset defaultEnc = some reaction) :
    state.Keeps reaction := by
  obtain ⟨tabstops, -, rfl⟩ := Option.map_eq_some_iff.mp done
  refine ⟨rfl, ?_⟩
  simp [vtermStateResetpen, cursorCalls, penCalls, StateCall.Local]

theorem keeps_escape {bytes : List UInt8} (done : state.onEscape bytes = some reaction)
    (keeps : escapeFunction bytes ≠ some .decsc) : state.Keeps reaction := by
  unfold VTermState.onEscape at done
  cases told : escapeFunction bytes with
  | none =>
      rw [told] at done
      rw [← Option.some.inj done]
      exact .calls local_nil
  | some function =>
      rw [told] at done
      cases function with
      | decsc => exact absurd told keeps
      | decaln =>
          rw [← Option.some.inj done]
          refine .calls fun call member => ?_
          obtain ⟨pos, -, rfl⟩ := List.mem_map.mp member
          trivial
      | decrc =>
          rw [← Option.some.inj done]
          exact keeps_restorecursor state
      | ris => exact keeps_reset done
      | scs | deckpam | deckpnm | ls2 | ls3 =>
          rw [← Option.some.inj done]
          exact ⟨rfl, local_nil⟩

theorem keeps_setpenStep {arg : Int} {rest : List Int} {turn : Reaction × Nat}
    (taken : setpenStep arg rest state = some turn) : state.Keeps turn.1 := by
  obtain ⟨pen, fgAnsi, same⟩ := penOnly_setpenStep taken
  refine ⟨by rw [same], ?_⟩
  unfold setpenStep at taken
  split_ifs at taken
  · cases rest with
    | nil => cases taken
    | cons palette args =>
        rw [← Option.some.inj taken]
        exact List.forall_mem_singleton.mpr trivial
  · cases rest with
    | nil => cases taken
    | cons palette args =>
        rw [← Option.some.inj taken]
        exact List.forall_mem_singleton.mpr trivial
  · rw [← Option.some.inj taken]
    cases sgrParameter (csiArg arg) with
    | none => exact local_nil
    | some parameter =>
        cases parameter with
        | reset => simp [setpenParameter, vtermStateResetpen, penCalls, StateCall.Local]
        | boldOn =>
            simp only [Option.elim_some, setpenParameter, Reaction.andThen]
            split_ifs <;> simp [setpenattr, setPenFgAnsi, StateCall.Local]
        | _ => simp [setpenParameter, setpenattr, setPenFgAnsi, setPenBgAnsi, StateCall.Local]

theorem keeps_setpenLoop {skip : Nat} {args : List Int}
    (selected : setpenLoop skip args state = some reaction) : state.Keeps reaction := by
  induction args generalizing skip state reaction with
  | nil =>
      rw [setpenLoop] at selected
      rw [← Option.some.inj selected]
      exact .calls local_nil
  | cons arg rest ih =>
      cases skip with
      | succ skip => exact ih selected
      | zero =>
          obtain ⟨turn, taken, others⟩ := Option.bind_eq_some_iff.mp selected
          obtain ⟨more, -, others⟩ := Option.bind_eq_some_iff.mp others
          obtain ⟨later, looped, rfl⟩ := Option.map_eq_some_iff.mp others
          exact (keeps_setpenStep taken).append (ih looped)

theorem keeps_changeMode {arg : Int} {change : Nat → VTermState → Reaction}
    (keeps : state.Keeps (change (csiArg arg) state)) :
    state.Keeps (state.changeMode arg change) := by
  unfold VTermState.changeMode
  split_ifs
  · exact .calls local_nil
  · exact keeps

theorem keeps_setDecMode (mode : DecMode) (val : Bool) (switches : mode ≠ .altscreen)
    (both : mode ≠ .altscreenSavecursor) (saves : val = true → mode ≠ .savecursor) :
    state.Keeps (setDecMode mode val state) := by
  cases mode with
  | altscreen => exact absurd rfl switches
  | altscreenSavecursor => exact absurd rfl both
  | savecursor =>
      cases val with
      | true => exact absurd rfl (saves rfl)
      | false => exact keeps_restorecursor state
  | origin =>
      obtain ⟨atPhantom, same⟩ := placed_updatecursor
        (((state.setMode { state.mode with origin := val }).setRow
          (if val then state.scrollregionStart else 0)).setCol 0) state.pos true
      have fields : (setDecMode .origin val state).1 = _ := same
      exact ⟨by rw [fields]; rfl, local_nil⟩
  | cursor | autowrap => exact ⟨rfl, local_nil⟩
  | reverse | cursorBlink | cursorVisible =>
      exact ⟨rfl, List.forall_mem_singleton.mpr trivial⟩

/-- The cases of `on_csi` that neither switch nor save. -/
theorem keeps_doCsiFunction {event : CsiEvent} {function : CsiFunction}
    (told : csiFunction event = some function) (keeps : (ParserCall.csi event).Keeps)
    (done : state.doCsiFunction event.args function = some reaction) : state.Keeps reaction := by
  obtain ⟨noSave, set, unset⟩ := keeps
  cases function with
  | save => exact absurd told noSave
  | cuu | vpb | cud | vpr | cuf | hpr | cub | hpb | cnl | cpl | cha | hpa | cup | hvp | vpa =>
      have moved : ∀ row col, state.moveTo row col = some reaction → state.Keeps reaction := by
        intro row col moves
        unfold VTermState.moveTo at moves
        split_ifs at moves
        rw [← Option.some.inj moves]
        exact ⟨rfl, local_nil⟩
      exact moved _ _ done
  | cht | cbt =>
      obtain ⟨-, -, rfl⟩ := Option.map_eq_some_iff.mp done
      exact ⟨rfl, local_nil⟩
  | ich | il | dl | dch | su | sd =>
      rw [← Option.some.inj done]
      exact .calls (local_scroll _ _ _)
  | ed =>
      rw [← Option.some.inj done]
      refine .calls ?_
      unfold VTermState.eraseInDisplay
      split_ifs <;> simp [StateCall.Local]
  | el =>
      rw [← Option.some.inj done]
      refine .calls ?_
      unfold VTermState.eraseInLine
      dsimp only
      split_ifs <;> simp [StateCall.Local]
  | ech =>
      unfold VTermState.doCsiFunction at done
      split_ifs at done
      rw [← Option.some.inj done]
      exact .calls (List.forall_mem_singleton.mpr trivial)
  | da | dsr =>
      rw [← Option.some.inj done]
      exact .calls local_nil
  | tbc =>
      obtain ⟨after, cleared, rfl⟩ := Option.map_eq_some_iff.mp done
      unfold VTermState.clearTabs at cleared
      split_ifs at cleared
      · obtain ⟨-, -, rfl⟩ := Option.map_eq_some_iff.mp cleared
        exact ⟨rfl, local_nil⟩
      · obtain ⟨-, -, rfl⟩ := Option.map_eq_some_iff.mp cleared
        exact ⟨rfl, local_nil⟩
      · rw [← Option.some.inj cleared]
        exact .calls local_nil
  | sm | rm =>
      rw [← Option.some.inj done]
      apply keeps_changeMode
      unfold VTermState.setAnsiMode
      split_ifs <;> exact ⟨rfl, local_nil⟩
  | decsm =>
      rw [← Option.some.inj done]
      apply keeps_changeMode
      obtain ⟨switch, save, both⟩ := set told
      cases mode : event.decMode with
      | none =>
          rw [show decMode (csiArg (doCsiFunction.arg event.args)) = none from mode]
          exact .calls local_nil
      | some mode' =>
          rw [show decMode (csiArg (doCsiFunction.arg event.args)) = some mode' from mode]
          rw [mode] at switch save both
          exact keeps_setDecMode mode' true (fun same => switch (congrArg some same))
            (fun same => both (congrArg some same)) fun _ same => save (congrArg some same)
  | decrm =>
      rw [← Option.some.inj done]
      apply keeps_changeMode
      obtain ⟨switch, both⟩ := unset told
      cases mode : event.decMode with
      | none =>
          rw [show decMode (csiArg (doCsiFunction.arg event.args)) = none from mode]
          exact .calls local_nil
      | some mode' =>
          rw [show decMode (csiArg (doCsiFunction.arg event.args)) = some mode' from mode]
          rw [mode] at switch both
          exact keeps_setDecMode mode' false (fun same => switch (congrArg some same))
            (fun same => both (congrArg some same)) fun never => absurd never (by decide)
  | sgr => exact keeps_setpenLoop done
  | decscusr =>
      rw [← Option.some.inj done]
      exact ⟨rfl, List.forall_mem_cons.mpr ⟨trivial, List.forall_mem_singleton.mpr trivial⟩⟩
  | decstbm =>
      rw [← Option.some.inj done]
      exact ⟨rfl, local_nil⟩
  | restore =>
      rw [← Option.some.inj done]
      exact keeps_restorecursor state

theorem keeps_csi {event : CsiEvent} (done : state.onCsi event = some reaction)
    (keeps : (ParserCall.csi event).Keeps) : state.Keeps reaction := by
  unfold VTermState.onCsi at done
  cases told : csiFunction event with
  | none =>
      rw [told] at done
      rw [← Option.some.inj done]
      exact .calls local_nil
  | some function =>
      rw [told] at done
      dsimp only at done
      split_ifs at done
      · rw [← Option.some.inj done]
        exact .calls local_nil
      · obtain ⟨inner, did, rfl⟩ := Option.map_eq_some_iff.mp done
        obtain ⟨saved, local_⟩ := keeps_doCsiFunction told keeps did
        have bound : state.Keeps (inner.1.boundCursor, inner.2) := ⟨saved, local_⟩
        exact bound.updatecursor _ _

/-- **A call that neither switches nor saves** keeps the saved cursor and the buffer in use. -/
theorem keeps_handle {call : ParserCall} (done : state.handle call = some reaction)
    (keeps : call.Keeps) : state.Keeps reaction := by
  cases call with
  | text bytes => exact keeps_text done
  | control control => exact keeps_control done
  | escape bytes => exact keeps_escape done keeps
  | csi event => exact keeps_csi done keeps
  | osc command | dcs command =>
      rw [← Option.some.inj done]
      exact .calls local_nil

/-- No call of the parser changes the size. -/
theorem handle_size {call : ParserCall} (done : state.handle call = some reaction) :
    reaction.1.rows = state.rows ∧ reaction.1.cols = state.cols := by
  rcases call_noText call with ⟨bytes, rfl⟩ | noText
  · obtain ⟨encodings, codepoints, -, put⟩ := handle_text done
    have frame := (textFrame_putCodepoints put).1
    exact ⟨frame.rows, frame.cols⟩
  · obtain ⟨encodings, inner, pos, atPhantom, -, shape, rfl⟩ := handle_cases done noText
    exact ⟨shape.frame.rows, shape.frame.cols⟩

end VTermState

namespace ScreenBuffers

variable {rows cols : Nat} {st after : ScreenBuffers rows cols × Option ScrollBuffer}

/-- On the alternate screen a call leaves the primary buffer. -/
theorem callback_primary {call : StateCall} (local_ : call.Local)
    (alternate : st.1.onAlternate = true) (done : callback st call = some after) :
    after.1.primary = st.1.primary ∧ after.1.onAlternate = true := by
  have puts : ∀ drawn, (st.1.put drawn).primary = st.1.primary ∧
      (st.1.put drawn).onAlternate = true := by
    intro drawn
    rw [ScreenBuffers.put, if_pos alternate]
    exact ⟨rfl, alternate⟩
  cases call with
  | putglyph chars width pos =>
      obtain ⟨drawn, -, rfl⟩ := Option.map_eq_some_iff.mp done
      exact puts drawn
  | scrollrect rect downward rightward =>
      obtain ⟨⟨drawn, scrollback⟩, -, rfl⟩ := Option.map_eq_some_iff.mp done
      exact puts drawn
  | erase rect =>
      rw [← Option.some.inj done]
      exact puts _
  | setpenattr attr =>
      rw [← Option.some.inj done]
      exact ⟨rfl, alternate⟩
  | settermprop prop =>
      cases prop with
      | altscreen on => exact absurd local_ id
      | reverse on =>
          rw [← Option.some.inj done]
          exact ⟨rfl, alternate⟩
      | _ =>
          rw [← Option.some.inj done]
          exact ⟨rfl, alternate⟩
  | bell =>
      rw [← Option.some.inj done]
      exact ⟨rfl, alternate⟩
  | resize rows cols => exact absurd local_ id

theorem callbacks_primary {calls : List StateCall} (local_ : ∀ call ∈ calls, call.Local)
    (alternate : st.1.onAlternate = true) (done : calls.foldlM callback st = some after) :
    after.1.primary = st.1.primary ∧ after.1.onAlternate = true := by
  induction calls generalizing st with
  | nil =>
      rw [← Option.some.inj done]
      exact ⟨rfl, alternate⟩
  | cons call calls ih =>
      rw [List.foldlM_cons] at done
      obtain ⟨middle, first, rest⟩ := Option.bind_eq_some_iff.mp done
      obtain ⟨here, others⟩ := List.forall_mem_cons.mp local_
      obtain ⟨primary, still⟩ := callback_primary here alternate first
      obtain ⟨behind, reached⟩ := ih others still rest
      exact ⟨behind.trans primary, reached⟩

end ScreenBuffers

/-- `CSI ? 1049 h` and `CSI ? 1049 l`. -/
def alternateScreen (on : Bool) : ParserCall :=
  .csi ⟨[0x3F], [1049], [], if on then 0x68 else 0x6C⟩

theorem handle_alternateScreen (on : Bool) (state : VTermState) :
    state.handle (alternateScreen on) =
      let reaction := (state.altscreen on).andThen (saveOrRestore on)
      some (reaction.1.boundCursor.updatecursor state.pos true, reaction.2) := by
  cases on <;> rfl

namespace Terminal

variable {rows cols : Nat} {terminal next : Terminal rows cols}

/-- What a run on the alternate screen keeps. -/
structure OnAlternate (terminal : Terminal rows cols) (saved : SavedCursor)
    (primary : Fin rows → Fin cols → ScreenCell) : Prop where
  alternate : terminal.screen.onAlternate = true
  saved : terminal.state.saved = saved
  primary : terminal.screen.primary = primary

theorem OnAlternate.push {saved : SavedCursor} {primary : Fin rows → Fin cols → ScreenCell}
    (held : terminal.OnAlternate saved primary) {call : ParserCall} (keeps : call.Keeps)
    (pushed : terminal.push call = some next) : next.OnAlternate saved primary := by
  obtain ⟨reaction, handled, answered⟩ := Option.bind_eq_some_iff.mp pushed
  obtain ⟨after, called, rfl⟩ := Option.map_eq_some_iff.mp answered
  obtain ⟨same, local_⟩ := keeps_handle handled keeps
  obtain ⟨buffer, still⟩ := ScreenBuffers.callbacks_primary local_ held.alternate called
  exact ⟨still, same.trans held.saved, buffer.trans held.primary⟩

theorem OnAlternate.pushAll {saved : SavedCursor} {primary : Fin rows → Fin cols → ScreenCell}
    (held : terminal.OnAlternate saved primary) {calls : List ParserCall}
    (keeps : ∀ call ∈ calls, call.Keeps) (pushed : terminal.pushAll calls = some next) :
    next.OnAlternate saved primary := by
  induction calls generalizing terminal with
  | nil =>
      rw [← Option.some.inj pushed]
      exact held
  | cons call calls ih =>
      rw [pushAll_cons] at pushed
      obtain ⟨middle, first, rest⟩ := Option.bind_eq_some_iff.mp pushed
      obtain ⟨here, others⟩ := List.forall_mem_cons.mp keeps
      exact ih (held.push here first) others rest

theorem pushAll_size {calls : List ParserCall} (pushed : terminal.pushAll calls = some next) :
    next.state.rows = terminal.state.rows ∧ next.state.cols = terminal.state.cols := by
  induction calls generalizing terminal with
  | nil =>
      rw [← Option.some.inj pushed]
      exact ⟨rfl, rfl⟩
  | cons call calls ih =>
      rw [pushAll_cons] at pushed
      obtain ⟨middle, first, rest⟩ := Option.bind_eq_some_iff.mp pushed
      obtain ⟨reaction, handled, answered⟩ := Option.bind_eq_some_iff.mp first
      obtain ⟨after, called, rfl⟩ := Option.map_eq_some_iff.mp answered
      obtain ⟨sameRows, sameCols⟩ := handle_size handled
      obtain ⟨restRows, restCols⟩ := ih rest
      exact ⟨restRows.trans sameRows, restCols.trans sameCols⟩

/-- Switching to the alternate screen saves the cursor. -/
theorem onAlternate_push (pushed : terminal.push (alternateScreen true) = some next) :
    next.OnAlternate ⟨terminal.state.pos, terminal.state.pen, terminal.state.mode.cursorVisible,
      terminal.state.mode.cursorBlink, terminal.state.mode.cursorShape⟩
      terminal.screen.primary := by
  obtain ⟨reaction, handled, answered⟩ := Option.bind_eq_some_iff.mp pushed
  obtain ⟨after, called, rfl⟩ := Option.map_eq_some_iff.mp answered
  rw [handle_alternateScreen] at handled
  obtain rfl := Option.some.inj handled
  obtain ⟨atPhantom, same⟩ := placed_updatecursor ((terminal.state.altscreen true).andThen
    (saveOrRestore true)).1.boundCursor terminal.state.pos true
  have erases : [StateCall.erase terminal.state.fullRect].foldlM ScreenBuffers.callback
      ({ terminal.screen with onAlternate := true }, terminal.scrollback) = some after := called
  have local_ : ∀ call ∈ [StateCall.erase terminal.state.fullRect], call.Local :=
    List.forall_mem_singleton.mpr trivial
  obtain ⟨primary, alternate⟩ := ScreenBuffers.callbacks_primary local_ rfl erases
  exact ⟨alternate, by dsimp only; rw [same]; rfl, primary⟩

/-- Switching back restores the cursor. -/
theorem push_back (pushed : terminal.push (alternateScreen false) = some next) :
    next.screen =
        { terminal.screen with onAlternate := false, pen := terminal.state.saved.pen } ∧
      (next.state.pen = terminal.state.saved.pen ∧
        next.state.mode.cursorVisible = terminal.state.saved.cursorVisible ∧
        next.state.mode.cursorBlink = terminal.state.saved.cursorBlink ∧
        next.state.mode.cursorShape = terminal.state.saved.cursorShape) ∧
      (terminal.state.saved.pos.Inside terminal.state.rows terminal.state.cols →
        next.state.mode.origin = false → next.state.pos = terminal.state.saved.pos) := by
  have called : ((terminal.state.altscreen false).andThen (saveOrRestore false)).2.foldlM
      ScreenBuffers.callback (terminal.screen, terminal.scrollback) =
        some ({ terminal.screen with onAlternate := false, pen := terminal.state.saved.pen },
          terminal.scrollback) := rfl
  unfold Terminal.push at pushed
  rw [handle_alternateScreen] at pushed
  dsimp only [Option.bind_some, answer] at pushed
  rw [called] at pushed
  obtain rfl := Option.some.inj pushed
  obtain ⟨atPhantom, same⟩ := placed_updatecursor ((terminal.state.altscreen false).andThen
    (saveOrRestore false)).1.boundCursor terminal.state.pos true
  obtain ⟨phantom, restored⟩ := restorecursor_eq (terminal.state.altscreen false).1
  have inner : ((terminal.state.altscreen false).andThen (saveOrRestore false)).1 = _ := restored
  refine ⟨rfl, ?_, fun inside origin => ?_⟩
  · dsimp only
    rw [same, inner]
    exact ⟨rfl, rfl, rfl, rfl⟩
  · dsimp only at origin ⊢
    rw [same, inner] at origin ⊢
    obtain ⟨⟨top, bottom⟩, left, right⟩ := inside
    have off : terminal.state.mode.origin = false := origin
    have row : bounded 0 ((terminal.state.rows : Int) - 1) terminal.state.saved.pos.row =
        terminal.state.saved.pos.row := bounded_eq ⟨top, by omega⟩
    have col : bounded 0 ((terminal.state.cols : Int) - 1) terminal.state.saved.pos.col =
        terminal.state.saved.pos.col := bounded_eq ⟨left, by omega⟩
    simp only [boundCursor, altscreen, setMode, off, Bool.false_eq_true, if_false, row, col]

theorem careful_alternateScreen (on : Bool) (state : VTermState) :
    state.Careful (alternateScreen on) := by
  intro function told
  cases on with
  | true =>
      obtain rfl : CsiFunction.decsm = function := Option.some.inj told
      intro origin
      exact absurd origin (by decide)
  | false =>
      obtain rfl : CsiFunction.decrm = function := Option.some.inj told
      exact List.forall_mem_singleton.mpr (by decide)

/-- Calls that are careful in every state are carried out. -/
theorem Sound.pushAll (sound : terminal.Sound) {calls : List ParserCall}
    (careful : ∀ call ∈ calls, ∀ state : VTermState, state.Careful call) :
    ∃ next, terminal.pushAll calls = some next ∧ next.Sound := by
  induction calls generalizing terminal with
  | nil => exact ⟨terminal, rfl, sound⟩
  | cons call calls ih =>
      obtain ⟨first, others⟩ := List.forall_mem_cons.mp careful
      obtain ⟨middle, pushed, reached⟩ := sound.push (first terminal.state)
      obtain ⟨next, rest, behind⟩ := ih reached others
      exact ⟨next, by rw [pushAll_cons, pushed, Option.bind_some, rest], behind⟩

/-- Bold, an erased screen, a scroll by five rows and a line feed. -/
def pagerCalls : List ParserCall :=
  [.csi ⟨[], [1], [], 0x6D⟩, .csi ⟨[], [2], [], 0x4A⟩, .csi ⟨[], [5], [], 0x53⟩, .control 0x0A]

theorem careful_pagerCalls : ∀ call ∈ pagerCalls, ∀ state : VTermState, state.Careful call := by
  refine List.forall_mem_cons.mpr ⟨?_, List.forall_mem_cons.mpr ⟨?_, List.forall_mem_cons.mpr
    ⟨?_, List.forall_mem_singleton.mpr fun state => trivial⟩⟩⟩
  · intro state function told
    obtain rfl : CsiFunction.sgr = function := Option.some.inj told
    exact (by decide : CompleteSgr [1])
  · intro state function told
    obtain rfl : CsiFunction.ed = function := Option.some.inj told
    exact List.forall_mem_singleton.mpr (by decide)
  · intro state function told
    obtain rfl : CsiFunction.su = function := Option.some.inj told
    exact List.forall_mem_singleton.mpr (by decide)

/-- A command that neither saves the cursor nor sets or resets a DEC mode. -/
theorem keeps_of_function {event : CsiEvent} {function : CsiFunction}
    (told : csiFunction event = some function)
    (other : function ≠ .save ∧ function ≠ .decsm ∧ function ≠ .decrm) :
    (ParserCall.csi event).Keeps := by
  refine ⟨fun save => ?_, fun sets => ?_, fun resets => ?_⟩
  · exact absurd (Option.some.inj (told.symm.trans save)) other.1
  · exact absurd (Option.some.inj (told.symm.trans sets)) other.2.1
  · exact absurd (Option.some.inj (told.symm.trans resets)) other.2.2

theorem keeps_pagerCalls : ∀ call ∈ pagerCalls, call.Keeps := by
  refine List.forall_mem_cons.mpr ⟨?_, List.forall_mem_cons.mpr ⟨?_, List.forall_mem_cons.mpr
    ⟨?_, List.forall_mem_singleton.mpr trivial⟩⟩⟩
  · exact keeps_of_function (show _ = some CsiFunction.sgr from rfl) (by decide)
  · exact keeps_of_function (show _ = some CsiFunction.ed from rfl) (by decide)
  · exact keeps_of_function (show _ = some CsiFunction.su from rfl) (by decide)

end Terminal

end Hackterm
