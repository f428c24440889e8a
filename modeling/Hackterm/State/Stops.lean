import Hackterm.State.Careful

/-! # Tab stops over runs

Only four events change tab stops: a stop is set or cleared in the column of the cursor, all
are cleared or reset, or the number of columns changes. Taken as a set of columns
(`Hackterm.VTermState.stopsAfter`) they are what the array holds after every run, and a tab
goes to the next column of the set (`Hackterm.stops_over_runs`).
-/

namespace Hackterm

open VTermState

namespace VTermState

/-- The stops in every eighth column. -/
def defaultStops : Set Nat := {col | col % 8 = 0}

/-- The tab stops that an event leaves. -/
def stopsAfter (state : VTermState) (stops : Set Nat) : TermEvent → Set Nat
  | .resize _ cols =>
      if cols = state.cols then stops
      else {col | if col < state.cols then col ∈ stops else col ∈ defaultStops}
  | .call (.control control) =>
      if controlFunction control = some .hts then insert state.pos.col.toNat stops else stops
  | .call (.escape bytes) => if escapeFunction bytes = some .ris then defaultStops else stops
  | .call (.csi event) =>
      let arg := csiArgOr (event.args.headD csiArgMissing) 0
      if csiFunction event = some .tbc then
        if arg = 0 then stops \ {state.pos.col.toNat}
        else if arg = 3 ∨ arg = 5 then ∅
        else stops
      else stops
  | .call _ => stops

variable {state : VTermState} {reaction : Reaction} {stops : Set Nat}

theorem tabs_linefeed (state : VTermState) : (linefeed state).1.tabstops = state.tabstops := by
  rcases linefeed_cases state with same | same | same
  · rw [same]
  · exact congrArg (fun reaction : Reaction => reaction.1.tabstops) same
  · rw [same]

theorem tabs_updatecursor (oldpos : VTermPos) (cancel : Bool) :
    (state.updatecursor oldpos cancel).tabstops = state.tabstops := by
  obtain ⟨atPhantom, same⟩ := placed_updatecursor state oldpos cancel
  rw [same]

theorem cols_updatecursor (oldpos : VTermPos) (cancel : Bool) :
    (state.updatecursor oldpos cancel).cols = state.cols := by
  obtain ⟨atPhantom, same⟩ := placed_updatecursor state oldpos cancel
  rw [same]

theorem tabs_restorecursor (state : VTermState) :
    state.restorecursor.1.tabstops = state.tabstops := by
  obtain ⟨mode, pen, atPhantom, same, -⟩ := restorecursor_placed state
  rw [same]

/-- The set of a stop more. -/
theorem stops_set (held : TabStops state.tabstops state.cols stops) {tabstops : List UInt8}
    (wrote : setColTabstop state.tabstops state.pos.col = some tabstops) :
    TabStops tabstops state.cols (insert state.pos.col.toNat stops) := by
  have positive : ((state.pos.col.toNat : Nat) : Int) = state.pos.col := by
    unfold setColTabstop at wrote
    split_ifs at wrote
    omega
  have put : putColTabstop state.tabstops (state.pos.col.toNat : Nat) true = some tabstops := by
    rw [positive]
    exact wrote
  refine (held.write put).congr fun col below => ?_
  rw [Set.mem_ofPred_eq, Set.mem_insert_iff]
  split_ifs with here
  · simp [here]
  · simp [here]

/-- The set of a stop less. -/
theorem stops_clear (held : TabStops state.tabstops state.cols stops) {tabstops : List UInt8}
    (wrote : clearColTabstop state.tabstops state.pos.col = some tabstops) :
    TabStops tabstops state.cols (stops \ {state.pos.col.toNat}) := by
  have positive : ((state.pos.col.toNat : Nat) : Int) = state.pos.col := by
    unfold clearColTabstop at wrote
    split_ifs at wrote
    omega
  have put : putColTabstop state.tabstops (state.pos.col.toNat : Nat) false = some tabstops := by
    rw [positive]
    exact wrote
  refine (held.write put).congr fun col below => ?_
  rw [Set.mem_ofPred_eq, Set.mem_sdiff, Set.mem_singleton_iff]
  split_ifs with here
  · simp [here]
  · simp [here]

theorem tabs_control {function : ControlFunction} (other : function ≠ .hts)
    (done : state.doControlFunction function = some reaction) :
    reaction.1.tabstops = state.tabstops := by
  cases function with
  | hts => exact absurd rfl other
  | ht =>
      obtain ⟨-, -, rfl⟩ := Option.map_eq_some_iff.mp done
      rfl
  | lf =>
      rw [← Option.some.inj done]
      refine Eq.trans ?_ (tabs_linefeed state)
      unfold Reaction.andThen
      dsimp only
      split_ifs <;> rfl
  | ind | nel =>
      rw [← Option.some.inj done]
      exact tabs_linefeed state
  | bs | ri =>
      rw [← Option.some.inj done]
      split_ifs <;> rfl
  | bel | cr | ls1 | ls0 =>
      exact congrArg (fun reaction => reaction.1.tabstops) (Option.some.inj done).symm

theorem tabs_setDecMode (mode : DecMode) (val : Bool) :
    (setDecMode mode val state).1.tabstops = state.tabstops := by
  cases mode with
  | origin => exact tabs_updatecursor _ _
  | savecursor =>
      cases val with
      | true => rfl
      | false => exact tabs_restorecursor state
  | altscreenSavecursor =>
      cases val with
      | true => rfl
      | false => exact tabs_restorecursor _
  | _ => rfl

theorem tabs_csi {args : List Int} {function : CsiFunction} (other : function ≠ .tbc)
    (done : state.doCsiFunction args function = some reaction) :
    reaction.1.tabstops = state.tabstops := by
  have changed : ∀ (arg : Int) (change : Nat → VTermState → Reaction),
      (∀ num, (change num state).1.tabstops = state.tabstops) →
      (state.changeMode arg change).1.tabstops = state.tabstops := by
    intro arg change kept
    unfold VTermState.changeMode
    split_ifs
    · rfl
    · exact kept _
  have moved : ∀ row col, state.moveTo row col = some reaction →
      reaction.1.tabstops = state.tabstops := by
    intro row col moves
    unfold VTermState.moveTo at moves
    split_ifs at moves
    rw [← Option.some.inj moves]
  cases function with
  | tbc => exact absurd rfl other
  | cuu | vpb | cud | vpr | cuf | hpr | cub | hpb | cnl | cpl | cha | hpa | cup | hvp | vpa =>
      exact moved _ _ done
  | cht | cbt =>
      obtain ⟨-, -, rfl⟩ := Option.map_eq_some_iff.mp done
      rfl
  | ech =>
      unfold VTermState.doCsiFunction at done
      split_ifs at done
      rw [← Option.some.inj done]
  | sm | rm =>
      rw [← Option.some.inj done]
      refine changed _ _ fun num => ?_
      unfold VTermState.setAnsiMode
      split_ifs <;> rfl
  | decsm | decrm =>
      rw [← Option.some.inj done]
      refine changed _ _ fun num => ?_
      cases decMode num with
      | none => rfl
      | some mode => exact tabs_setDecMode mode _
  | sgr =>
      obtain ⟨pen, fgAnsi, same⟩ := penOnly_setpenLoop done
      rw [same]
  | restore =>
      rw [← Option.some.inj done]
      exact tabs_restorecursor state
  | _ => exact congrArg (fun reaction => reaction.1.tabstops) (Option.some.inj done).symm

theorem stops_control (held : TabStops state.tabstops state.cols stops) {control : UInt8}
    (done : state.onControl control = some reaction) :
    TabStops reaction.1.tabstops state.cols
      (state.stopsAfter stops (.call (.control control))) := by
  unfold VTermState.onControl at done
  unfold stopsAfter
  dsimp only
  cases told : controlFunction control with
  | none =>
      rw [told] at done
      rw [← Option.some.inj done, if_neg nofun]
      exact held
  | some function =>
      rw [told] at done
      obtain ⟨inner, did, rfl⟩ := Option.map_eq_some_iff.mp done
      dsimp only
      rw [tabs_updatecursor]
      by_cases sets : function = .hts
      · subst sets
        obtain ⟨tabstops, wrote, rfl⟩ := Option.map_eq_some_iff.mp did
        rw [if_pos rfl]
        exact stops_set held wrote
      · rw [if_neg fun same => sets (Option.some.inj same), tabs_control sets did]
        exact held

theorem stops_escape (held : TabStops state.tabstops state.cols stops) {bytes : List UInt8}
    (done : state.onEscape bytes = some reaction) :
    TabStops reaction.1.tabstops state.cols
      (state.stopsAfter stops (.call (.escape bytes))) := by
  unfold VTermState.onEscape at done
  unfold stopsAfter
  dsimp only
  cases told : escapeFunction bytes with
  | none =>
      rw [told] at done
      rw [← Option.some.inj done, if_neg nofun]
      exact held
  | some function =>
      rw [told] at done
      cases function with
      | ris =>
          obtain ⟨tabstops, wrote, rfl⟩ := Option.map_eq_some_iff.mp done
          obtain ⟨written, same, stored⟩ := held.reset
          obtain rfl := Option.some.inj (wrote.symm.trans same)
          rw [if_pos rfl]
          exact stored
      | decrc =>
          rw [← Option.some.inj done, if_neg (by simp), tabs_restorecursor]
          exact held
      | decaln | scs | decsc | deckpam | deckpnm | ls2 | ls3 =>
          rw [← Option.some.inj done, if_neg (by simp)]
          exact held

theorem stops_csi (held : TabStops state.tabstops state.cols stops) {event : CsiEvent}
    (done : state.onCsi event = some reaction) :
    TabStops reaction.1.tabstops state.cols (state.stopsAfter stops (.call (.csi event))) := by
  unfold VTermState.onCsi at done
  unfold stopsAfter
  dsimp only
  cases told : csiFunction event with
  | none =>
      rw [told] at done
      rw [← Option.some.inj done, if_neg nofun]
      exact held
  | some function =>
      rw [told] at done
      dsimp only at done
      by_cases clears : function = .tbc
      · subst clears
        rw [if_pos rfl]
        split_ifs at done with early
        · -- an argument behind 5 returns early
          rw [← Option.some.inj done]
          have large : ¬ csiArgOr (event.args.headD csiArgMissing) 0 ≤ 5 := by
            simpa [CsiFunction.returnsEarly] using early
          rw [if_neg (by omega), if_neg (by omega)]
          exact held
        · obtain ⟨inner, did, rfl⟩ := Option.map_eq_some_iff.mp done
          obtain ⟨after, cleared, rfl⟩ := Option.map_eq_some_iff.mp did
          dsimp only
          rw [tabs_updatecursor]
          change TabStops after.tabstops state.cols _
          unfold VTermState.clearTabs doCsiFunction.arg at cleared
          split_ifs at cleared with here all
          · obtain ⟨tabstops, wrote, rfl⟩ := Option.map_eq_some_iff.mp cleared
            rw [if_pos here]
            exact stops_clear held wrote
          · obtain ⟨tabstops, wrote, rfl⟩ := Option.map_eq_some_iff.mp cleared
            obtain ⟨written, same, stored⟩ := held.clear
            obtain rfl := Option.some.inj (wrote.symm.trans same)
            rw [if_neg here, if_pos all]
            exact stored
          · rw [← Option.some.inj cleared, if_neg here, if_neg all]
            exact held
      · rw [if_neg fun same => clears (Option.some.inj same)]
        split_ifs at done
        · rw [← Option.some.inj done]
          exact held
        · obtain ⟨inner, did, rfl⟩ := Option.map_eq_some_iff.mp done
          dsimp only
          rw [tabs_updatecursor]
          change TabStops inner.1.tabstops state.cols _
          rw [tabs_csi clears did]
          exact held

/-- No call of the parser changes the number of columns. -/
theorem cols_handle {call : ParserCall} (done : state.handle call = some reaction) :
    reaction.1.cols = state.cols := by
  rcases call_noText call with ⟨bytes, rfl⟩ | noText
  · obtain ⟨encodings, codepoints, -, put⟩ := handle_text done
    exact (textFrame_putCodepoints put).1.cols
  · obtain ⟨encodings, inner, pos, atPhantom, -, shape, rfl⟩ := handle_cases done noText
    exact shape.frame.cols

/-- **An event changes the tab stops as a set.** -/
theorem stops_react {event : TermEvent} (held : TabStops state.tabstops state.cols stops)
    (done : state.react event = some reaction) :
    TabStops reaction.1.tabstops reaction.1.cols (state.stopsAfter stops event) := by
  cases event with
  | resize rows cols =>
      obtain ⟨tabstops, wrote, rfl⟩ := Option.map_eq_some_iff.mp done
      dsimp only
      rw [tabs_updatecursor, cols_updatecursor]
      change TabStops tabstops cols _
      unfold stopsAfter
      dsimp only
      by_cases same : cols = state.cols
      · subst same
        rw [if_pos rfl] at wrote ⊢
        rw [← Option.some.inj wrote]
        exact held
      · rw [if_neg same] at wrote ⊢
        obtain ⟨written, resized, stored⟩ := held.resize cols
        obtain rfl := Option.some.inj (wrote.symm.trans resized)
        exact stored
  | call call =>
      have handled : state.handle call = some reaction := done
      rw [cols_handle handled]
      cases call with
      | text bytes =>
          obtain ⟨encodings, codepoints, -, put⟩ := handle_text handled
          rw [(textFrame_putCodepoints put).1.tabstops]
          exact held
      | control control => exact stops_control held handled
      | escape bytes => exact stops_escape held handled
      | csi event => exact stops_csi held handled
      | osc command | dcs command =>
          rw [← Option.some.inj handled]
          exact held

/-- The tab stops that some events leave, one after the other. -/
def stopsOver : VTermState → Set Nat → List TermEvent → Set Nat
  | _, stops, [] => stops
  | state, stops, event :: events =>
      (state.react event).elim stops fun reaction =>
        stopsOver reaction.1 (state.stopsAfter stops event) events

theorem stops_reactAll {events : List TermEvent}
    (held : TabStops state.tabstops state.cols stops)
    (done : state.reactAll events = some reaction) :
    TabStops reaction.1.tabstops reaction.1.cols (stopsOver state stops events) := by
  induction events generalizing state stops reaction with
  | nil =>
      rw [← Option.some.inj done]
      exact held
  | cons event events ih =>
      obtain ⟨first, here, others⟩ := Option.bind_eq_some_iff.mp done
      obtain ⟨later, behind, rfl⟩ := Option.map_eq_some_iff.mp others
      have reached := ih (stops_react held here) behind
      rw [stopsOver, here]
      exact reached

/-- A tab in front of the last column. -/
theorem handle_tab (held : TabStops state.tabstops state.cols stops) {col : Nat}
    (here : state.pos.col = col) (inside : col + 1 < state.cols) :
    ∃ target reaction, state.handle (.control 0x09) = some reaction ∧
      IsTabTarget stops state.cols col target ∧ reaction.1.pos.col = target := by
  obtain ⟨target, goes, -, next⟩ := tabOnce_forward held state.cols col (by omega) (by omega)
  rw [if_neg (by omega)] at next
  have tabs : state.doControlFunction .ht = some (state.setCol target, []) := by
    rw [VTermState.doControlFunction, here, tab, goes, Option.bind_some]
    rfl
  have done : state.handle (.control 0x09) =
      some ((state.setCol target).updatecursor state.pos true, []) := by
    change (state.doControlFunction .ht).map _ = _
    rw [tabs]
    rfl
  refine ⟨target, _, done, next, ?_⟩
  obtain ⟨atPhantom, same⟩ := placed_updatecursor (state.setCol target) state.pos true
  dsimp only
  rw [same]
  rfl

end VTermState

/-- **Tab stops over runs.** In every run from the start, the array holds the set of columns
that the events leave, and a tab in front of the last column goes to the next column of this
set, or to the last column where there is none. -/
theorem stops_over_runs (rows cols : Nat) :
    ∃ start, vtermStateStart rows cols = some start ∧
      ∀ events last, start.1.reactAll events = some last →
        TabStops last.1.tabstops last.1.cols (stopsOver start.1 defaultStops events) ∧
          ∀ col : Nat, last.1.pos.col = col → col + 1 < last.1.cols →
            ∃ target reaction, last.1.handle (.control 0x09) = some reaction ∧
              IsTabTarget (stopsOver start.1 defaultStops events) last.1.cols col target ∧
              reaction.1.pos.col = target := by
  obtain ⟨tabstops, -, stops, started⟩ := vtermStateStart_eq rows cols
  refine ⟨_, started, fun events last done => ?_⟩
  have held := stops_reactAll (show TabStops tabstops cols defaultStops from stops) done
  exact ⟨held, fun col here inside => handle_tab held here inside⟩

/-- Where all stops are cleared and one is set in the fifth column, a tab from the first column
goes there. -/
example :
    let events : List TermEvent := [.call (.csi ⟨[], [3], [], 0x67⟩),
      .call (.csi ⟨[], [5], [], 0x47⟩), .call (.control 0x88), .call (.control 0x0D),
      .call (.control 0x09)]
    ((vtermStateStart 2 20).bind fun start => (start.1.reactAll events).map fun last =>
      (last.1.tabstops, last.1.pos.col)) = some ([0x10, 0, 0], 4) := by
  decide

end Hackterm
