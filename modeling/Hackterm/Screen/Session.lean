import Hackterm.Screen.Display
import Hackterm.Screen.Runs

/-! # Sessions

A session is the terminal with its size, which changes between the calls of the parser
(`Hackterm.Session.step`). Along every sequence of careful events from the start the session
goes on with the state, and what can be drawn of it, on the screen and in the scrollback, is
what the abstract terminal displays behind the calls of the state alone
(`Hackterm.session_shows`).
-/

namespace Hackterm

open Planes VTermState

variable {rows cols : Nat}

/-- The terminal carries the display along: its scrollback is the one that the lines of the
history were pushed to. -/
def Terminal.Carries (terminal : Terminal rows cols) (display : Display) : Prop :=
  ∃ lines : List Line, terminal.scrollback = scrollBufferPushAll none lines ∧
    terminal.screen.display (lines.map lineLook) = display

/-- What can be drawn of the terminal: the lines of the scrollback, of which the last ones are
kept, and the rows of the screen. -/
structure Terminal.Shows (terminal : Terminal rows cols) (display : Display) : Prop where
  scrollback : (bufferLines terminal.scrollback).map lineLook =
    display.history.rtake scrollBufferInitialSize
  screen : ∃ lines, screenRows terminal.screen.current = some lines ∧
    lines.map lineLook = (List.range display.rows).map fun row : Nat =>
      rowSeen display.cols display.globalReverse display.current row

theorem rtake_map {α β : Type*} (f : α → β) (list : List α) (count : Nat) :
    (list.map f).rtake count = (list.rtake count).map f := by
  rw [List.rtake, List.rtake, List.length_map, List.map_drop]

/-- The rows that are drawn are those of the display. -/
theorem Terminal.Carries.shows {terminal : Terminal rows cols} {display : Display}
    (carries : terminal.Carries display) : terminal.Shows display := by
  obtain ⟨lines, pushed, rfl⟩ := carries
  constructor
  · rw [pushed, bufferLines_pushAll, storedLines, ← rtake_map]
    rfl
  · have each : ∀ row ∈ List.range rows,
        (reportedRow terminal.screen.current (row : Nat)).isSome := by
      intro row member
      rw [List.mem_range] at member
      obtain ⟨line, found, -⟩ := reportedRow_isSome terminal.screen.current row (by omega)
        (by omega)
      rw [found]
      rfl
    obtain ⟨collected, found, -⟩ := mapM_of_isSome _ _ each
    refine ⟨collected, found, ?_⟩
    have places := (mapM_eq_some_iff _ _ _).mp found
    have length := congrArg List.length places
    rw [List.length_map, List.length_map, List.length_range] at length
    refine List.ext_getElem (by simp [ScreenBuffers.display, length]) fun i inLines inRows => ?_
    rw [List.length_map] at inLines
    have here := congrArg (·[i]?) places
    rw [List.getElem?_map, List.getElem?_map, List.getElem?_range (by omega),
      List.getElem?_eq_getElem inLines, Option.map_some, Option.map_some,
      Option.some.injEq] at here
    rw [List.getElem_map, List.getElem_map, List.getElem_range, lineLook_reportedRow here,
      ScreenBuffers.display_current]
    rfl

theorem Terminal.Carries.sized {terminal : Terminal rows cols} {display : Display}
    (carries : terminal.Carries display) : display.rows = rows := by
  obtain ⟨lines, -, rfl⟩ := carries
  rfl

/-- What a handler does to a sound state carries the terminal along. -/
theorem Terminal.answer_carries {terminal : Terminal rows cols} {state : VTermState}
    {reaction : Reaction} {display : Display} (handles : state.Handles reaction)
    (sized : state.rows = rows ∧ state.cols = cols) (ended : terminal.screen.Ended)
    (carries : terminal.Carries display) :
    ∃ next, terminal.answer reaction = some next ∧ next.state = reaction.1 ∧ next.Sound ∧
      next.Carries (reaction.2.foldl Display.call display) := by
  obtain ⟨sound, ⟨sameRows, sameCols⟩, inside⟩ := handles
  rw [sized.1, sized.2] at inside
  have narrow : cols ≤ 1000 := by
    rw [← sized.2, ← sameCols]
    exact sound.size.cols.2
  obtain ⟨lines, pushed, rfl⟩ := carries
  obtain ⟨after, more, called, kept, displays⟩ :=
    ScreenBuffers.callbacks_display narrow ended lines inside
  refine ⟨⟨reaction.1, after, scrollBufferPushAll none (lines ++ more)⟩, ?_, rfl,
    ⟨sound, ⟨sameRows.trans sized.1, sameCols.trans sized.2⟩, kept⟩, _, rfl, displays⟩
  rw [answer, pushed, called]
  rfl

/-- **A careful call carries the terminal along** with the display. -/
theorem Terminal.Sound.push_carries {terminal : Terminal rows cols} (sound : terminal.Sound)
    {display : Display} (carries : terminal.Carries display) {call : ParserCall}
    (careful : terminal.state.Careful call) :
    ∃ next reaction, terminal.push call = some next ∧
      terminal.state.handle call = some reaction ∧ next.state = reaction.1 ∧ next.Sound ∧
      next.Carries (reaction.2.foldl Display.call display) := by
  obtain ⟨reaction, handled, handles⟩ := sound.state.handle careful
  obtain ⟨next, answered, same, held, shows⟩ :=
    answer_carries handles sound.sized sound.ended carries
  exact ⟨next, reaction, by rw [Terminal.push, handled]; exact answered, handled, same, held, shows⟩

theorem look_blankCell (pen : ScreenPen) : (ScreenBuffers.blankCell pen).look = .blank pen := by
  unfold ScreenCell.look ScreenCell.shownPart ScreenBuffers.blankCell
  dsimp only
  rw [Vector.toList_replicate, List.replicate_succ, List.takeWhile_cons_of_neg (by decide)]
  rfl

/-- A buffer of a new size, as it is seen. -/
theorem seen_reallocBuffer (buffer : Fin rows → Fin cols → ScreenCell) (pen : ScreenPen)
    (reverse : Bool) (newRows newCols : Nat) :
    seen ⟨ScreenBuffers.reallocBuffer pen buffer newRows newCols, pen, reverse⟩ =
      crop newRows newCols (.blank pen) (seen ⟨buffer, pen, reverse⟩) := by
  funext row col
  unfold seen look crop getcell
  by_cases inside : (0 ≤ row ∧ row < newRows) ∧ 0 ≤ col ∧ col < newCols
  · rw [dif_pos inside, if_pos (show Window newRows newCols row col from inside), Option.map_some]
    unfold ScreenBuffers.reallocBuffer
    dsimp only
    by_cases old : (0 ≤ row ∧ row < rows) ∧ 0 ≤ col ∧ col < cols
    · rw [dif_pos old, dif_pos (by omega), Option.map_some, Option.getD_some]
    · rw [dif_neg old, dif_neg (by omega), Option.map_none, Option.getD_none, look_blankCell]
  · rw [dif_neg inside, if_neg (show ¬ Window newRows newCols row col from inside)]
    rfl

theorem ScreenBuffers.display_resize (screen : ScreenBuffers rows cols)
    (history : List (List (Look × Nat))) (newRows newCols : Nat) :
    (screen.resize newRows newCols).display history =
      (screen.display history).call (.resize newRows newCols) := by
  unfold ScreenBuffers.resize ScreenBuffers.display Display.call
  dsimp only
  rw [seen_reallocBuffer, seen_reallocBuffer]

/-- The terminal with its size. -/
structure Session where
  rows : Nat
  cols : Nat
  terminal : Terminal rows cols

namespace Session

/-- An event of the terminal. -/
def step (session : Session) : TermEvent → Option Session
  | .call call => (session.terminal.push call).map fun next => ⟨session.rows, session.cols, next⟩
  | .resize rows cols => (session.terminal.setSize rows cols).map fun next => ⟨rows, cols, next⟩

/-- The session after `vterm_initialisation`. -/
def start (rows cols : Nat) : Option Session :=
  (Terminal.start rows cols).map fun terminal => ⟨rows, cols, terminal⟩

/-- The session carries the display along. -/
structure Holds (session : Session) (state : VTermState) (display : Display) : Prop where
  same : session.terminal.state = state
  sound : session.terminal.Sound
  carries : session.terminal.Carries display

end Session

/-- An event that avoids what the code does not check. -/
def VTermState.CarefulEvent (state : VTermState) : TermEvent → Prop
  | .call call => state.Careful call
  | .resize rows cols => Terminal.CarefulSize state rows cols

/-- Every event is careful when it happens. -/
def CarefulEvents : VTermState → List TermEvent → Prop
  | _, [] => True
  | state, event :: events => state.CarefulEvent event ∧
      ∀ reaction, state.react event = some reaction → CarefulEvents reaction.1 events

/-- The state and the calls it makes, from the start on. -/
def reactFromStart (rows cols : Nat) (events : List TermEvent) : Option Reaction :=
  (vtermStateStart rows cols).bind fun start =>
    (start.1.reactAll events).map fun last => (last.1, start.2 ++ last.2)

/-- A careful event carries the session along. -/
theorem Session.Holds.step {session : Session} {state : VTermState} {display : Display}
    (holds : session.Holds state display) {event : TermEvent} (careful : state.CarefulEvent event) :
    ∃ next reaction, session.step event = some next ∧ state.react event = some reaction ∧
      next.Holds reaction.1 (reaction.2.foldl Display.call display) := by
  obtain ⟨rfl, sound, carries⟩ := holds
  cases event with
  | call call =>
      obtain ⟨next, reaction, pushed, handled, same, held, shows⟩ :=
        sound.push_carries carries careful
      exact ⟨_, reaction, by rw [Session.step, pushed]; rfl, handled, same, held, shows⟩
  | resize rows cols =>
      obtain ⟨reaction, resized, held, size⟩ := sound.state.onResize careful.size careful.region
      have calls : reaction.2 = [.resize rows cols] := by
        obtain ⟨tabstops, -, rfl⟩ := Option.map_eq_some_iff.mp resized
        rfl
      obtain ⟨lines, pushed, rfl⟩ := carries
      have changed : session.terminal.setSize rows cols = some ⟨reaction.1,
          session.terminal.screen.resize rows cols, session.terminal.scrollback⟩ := by
        rw [Terminal.setSize, resized]
        rfl
      refine ⟨⟨rows, cols, ⟨reaction.1, session.terminal.screen.resize rows cols,
        session.terminal.scrollback⟩⟩, reaction, by rw [Session.step, changed]; rfl, resized, rfl,
        ⟨held, size, ?_, ?_⟩, lines, pushed, ?_⟩
      · exact Terminal.ended_reallocBuffer _ sound.ended.primary _ _
      · exact Terminal.ended_reallocBuffer _ sound.ended.alternate _ _
      · rw [calls]
        exact ScreenBuffers.display_resize _ _ rows cols

/-- Careful events carry the session along. -/
theorem Session.Holds.run {session : Session} {state : VTermState} {display : Display}
    (holds : session.Holds state display) {events : List TermEvent}
    (careful : CarefulEvents state events) :
    ∃ last reaction, events.foldlM Session.step session = some last ∧
      state.reactAll events = some reaction ∧
      last.Holds reaction.1 (reaction.2.foldl Display.call display) := by
  induction events generalizing session state display with
  | nil => exact ⟨session, (state, []), rfl, rfl, holds⟩
  | cons event events ih =>
      obtain ⟨next, first, stepped, reacts, held⟩ := holds.step careful.1
      obtain ⟨last, later, rest, behind, kept⟩ := ih held (careful.2 first reacts)
      refine ⟨last, (later.1, first.2 ++ later.2), ?_, ?_, ?_⟩
      · rw [List.foldlM_cons, stepped]
        exact rest
      · rw [VTermState.reactAll, reacts, Option.bind_some, behind]
        rfl
      · rw [List.foldl_append]
        exact kept

/-- The display at the start is that of the screen. -/
theorem ScreenBuffers.display_new (rows cols : Nat) :
    (ScreenBuffers.new rows cols).display [] = Display.new rows cols := by
  have blank : ∀ pen reverse, seen (⟨fun _ _ => blankCell pen, pen, reverse⟩ :
      VTermScreen rows cols) = ofRows rows cols (.blank pen) [] := by
    intro pen reverse
    funext row col
    unfold seen look ofRows getcell
    by_cases inside : (0 ≤ row ∧ row < rows) ∧ 0 ≤ col ∧ col < cols
    · rw [dif_pos inside, if_pos (show Window rows cols row col from inside), Option.map_some,
        look_blankCell]
      rfl
    · rw [dif_neg inside, if_neg (show ¬ Window rows cols row col from inside)]
      rfl
  unfold ScreenBuffers.new ScreenBuffers.display Display.new
  dsimp only
  rw [blank]

/-- The terminal starts with the display of its first calls. -/
theorem Terminal.start_carries (size : UsualSize rows cols) :
    ∃ terminal start, Terminal.start rows cols = some terminal ∧
      vtermStateStart rows cols = some start ∧ terminal.state = start.1 ∧ terminal.Sound ∧
      terminal.Carries (start.2.foldl Display.call (Display.new rows cols)) := by
  obtain ⟨reaction, started, handles⟩ := sound_start size
  have ended : (ScreenBuffers.new rows cols).Ended :=
    ⟨fun _ _ => ended_blankCell _, fun _ _ => ended_blankCell _⟩
  have carries : Carries ⟨vtermStateNew rows cols, ScreenBuffers.new rows cols, none⟩
      (Display.new rows cols) :=
    ⟨[], rfl, ScreenBuffers.display_new rows cols⟩
  obtain ⟨terminal, answered, same, sound, carried⟩ :=
    answer_carries handles ⟨rfl, rfl⟩ ended carries
  refine ⟨terminal, reaction, ?_, started, same, sound, carried⟩
  rw [Terminal.start, started]
  exact answered

/-- The session starts with the display of its first calls. -/
theorem Session.start_holds (size : UsualSize rows cols) :
    ∃ session start, Session.start rows cols = some session ∧
      vtermStateStart rows cols = some start ∧
      session.Holds start.1 (start.2.foldl Display.call (Display.new rows cols)) := by
  obtain ⟨terminal, reaction, begun, started, same, sound, carries⟩ := Terminal.start_carries size
  refine ⟨⟨rows, cols, terminal⟩, reaction, ?_, started, same, sound, carries⟩
  rw [Session.start, begun]
  rfl

/-- Along careful events from the start the session goes on with the state. -/
theorem Session.holds_run (size : UsualSize rows cols) {events : List TermEvent}
    (careful : ∀ start, vtermStateStart rows cols = some start → CarefulEvents start.1 events) :
    ∃ session last reaction, Session.start rows cols = some session ∧
      events.foldlM Session.step session = some last ∧
      reactFromStart rows cols events = some reaction ∧
      last.Holds reaction.1 (reaction.2.foldl Display.call (Display.new rows cols)) := by
  obtain ⟨session, start, begun, started, holds⟩ := Session.start_holds size
  obtain ⟨last, reaction, run, reacts, held⟩ := holds.run (careful start started)
  refine ⟨session, last, (reaction.1, start.2 ++ reaction.2), begun, run, ?_, ?_⟩
  · rw [reactFromStart, started, Option.bind_some, reacts]
    rfl
  · rw [List.foldl_append]
    exact held

/-- **The session shows what the abstract terminal displays.** Along careful events from the
start, with changes of the size among them, the session goes on with the state of the handlers
alone, and the rows that can be drawn are those of the display behind their calls. -/
theorem session_shows (rows cols : Nat) (size : UsualSize rows cols) (events : List TermEvent)
    (careful : ∀ start, vtermStateStart rows cols = some start → CarefulEvents start.1 events) :
    ∃ session last reaction, Session.start rows cols = some session ∧
      events.foldlM Session.step session = some last ∧
      reactFromStart rows cols events = some reaction ∧ last.terminal.state = reaction.1 ∧
      last.terminal.Shows (reaction.2.foldl Display.call (Display.new rows cols)) := by
  obtain ⟨session, last, reaction, begun, run, reacts, holds⟩ := Session.holds_run size careful
  exact ⟨session, last, reaction, begun, run, reacts, holds.same, holds.carries.shows⟩

/-- The size changes from 24 rows and 80 columns to 30 and 100, and a line feed follows. -/
theorem session_shows_resized :
    ∃ session last reaction, Session.start 24 80 = some session ∧
      [.resize 30 100, .call (.control 0x0A)].foldlM Session.step session = some last ∧
      reactFromStart 24 80 [.resize 30 100, .call (.control 0x0A)] = some reaction ∧
      last.terminal.state = reaction.1 ∧
      last.terminal.Shows (reaction.2.foldl Display.call (Display.new 24 80)) := by
  refine session_shows 24 80 usualSize_common _ fun start started => ?_
  obtain ⟨tabstops, -, -, same⟩ := vtermStateStart_eq 24 80
  rw [started] at same
  obtain rfl := Option.some.inj same
  exact ⟨⟨⟨by decide, by decide⟩, regionHolds_reset (by decide)⟩,
    fun _ _ => ⟨trivial, fun _ _ => trivial⟩⟩

end Hackterm
