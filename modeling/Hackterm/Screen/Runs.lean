import Hackterm.State.Careful

/-! # Runs of the terminal

Between two changes of its size the terminal takes one call of the parser after the other
(`Hackterm.Terminal.pushAll`). A run from the start in which every event is careful can always
go on with a careful event, and the cursor is in the screen (`Hackterm.carefulRun_goes_on`):
nothing is read or written outside an array, and all rows that leave the screen can be pushed
to the scrollback. What is left out of the state, such as the scroll that is pending in the
screen, is not bounded by this.
-/

namespace Hackterm

open VTermState

namespace Terminal

variable {rows cols : Nat} {terminal : Terminal rows cols}

/-- Calls of the parser, one after the other. -/
def pushAll (terminal : Terminal rows cols) (calls : List ParserCall) :
    Option (Terminal rows cols) := calls.foldlM push terminal

theorem pushAll_cons (call : ParserCall) (calls : List ParserCall) :
    terminal.pushAll (call :: calls) = (terminal.push call).bind (·.pushAll calls) :=
  List.foldlM_cons

theorem pushAll_append (front back : List ParserCall) :
    terminal.pushAll (front ++ back) = (terminal.pushAll front).bind (·.pushAll back) :=
  List.foldlM_append

/-- The state is sound and belongs to the screen, whose cells keep their last zero. -/
structure Sound (terminal : Terminal rows cols) : Prop where
  state : terminal.state.Sound
  sized : terminal.state.rows = rows ∧ terminal.state.cols = cols
  ended : terminal.screen.Ended

/-- What a handler does to a sound state, the screen carries out. -/
theorem answer_isSome {state : VTermState} {reaction : Reaction} (handles : state.Handles reaction)
    (sized : state.rows = rows ∧ state.cols = cols) (ended : terminal.screen.Ended) :
    ∃ next, terminal.answer reaction = some next ∧ next.state = reaction.1 ∧ next.Sound := by
  obtain ⟨sound, ⟨sameRows, sameCols⟩, inside⟩ := handles
  rw [sized.1, sized.2] at inside
  have narrow : cols ≤ 1000 := by
    rw [← sized.2, ← sameCols]
    exact sound.size.cols.2
  obtain ⟨after, called, kept⟩ :=
    ScreenBuffers.callbacks_isSome narrow ended terminal.scrollback inside
  refine ⟨⟨reaction.1, after.1, after.2⟩, ?_, rfl, sound, ?_, kept⟩
  · rw [answer, called]
    rfl
  · exact ⟨sameRows.trans sized.1, sameCols.trans sized.2⟩

/-- **A careful call is carried out**, and the terminal is sound again. -/
theorem Sound.push (sound : terminal.Sound) {call : ParserCall}
    (careful : terminal.state.Careful call) :
    ∃ next, terminal.push call = some next ∧ next.Sound := by
  obtain ⟨reaction, handled, handles⟩ := sound.state.handle careful
  obtain ⟨next, answered, -, reached⟩ := answer_isSome handles sound.sized sound.ended
  exact ⟨next, by rw [Terminal.push, handled]; exact answered, reached⟩

theorem ended_blankCell (pen : ScreenPen) : (ScreenBuffers.blankCell pen).Ended :=
  Vector.getElem_replicate _

theorem ended_reallocBuffer (pen : ScreenPen) {buffer : Fin rows → Fin cols → ScreenCell}
    (ended : ∀ row col, (buffer row col).Ended) (newRows newCols : Nat) :
    ∀ row col, (ScreenBuffers.reallocBuffer pen buffer newRows newCols row col).Ended := by
  intro row col
  unfold ScreenBuffers.reallocBuffer
  split_ifs
  · exact ended _ _
  · exact ended_blankCell pen

/-- A size that is usual and in which the scroll region stays in the screen. -/
structure CarefulSize (state : VTermState) (rows cols : Nat) : Prop where
  size : UsualSize rows cols
  region : RegionHolds rows state.scrollregionStart state.scrollregionEnd state.mode.origin

/-- **A careful change of the size** is carried out, and the terminal is sound again. -/
theorem Sound.setSize (sound : terminal.Sound) {newRows newCols : Nat}
    (careful : CarefulSize terminal.state newRows newCols) :
    ∃ next, terminal.setSize newRows newCols = some next ∧ next.Sound := by
  obtain ⟨reaction, resized, reached, size⟩ := sound.state.onResize careful.size careful.region
  refine ⟨_, by rw [Terminal.setSize, resized]; rfl, reached, size, ?_, ?_⟩
  · exact ended_reallocBuffer _ sound.ended.primary _ _
  · exact ended_reallocBuffer _ sound.ended.alternate _ _

/-- **The terminal starts**, and is sound. -/
theorem start_isSome (size : UsualSize rows cols) :
    ∃ terminal : Terminal rows cols, start rows cols = some terminal ∧ terminal.Sound := by
  obtain ⟨reaction, started, handles⟩ := sound_start size
  have ended : (ScreenBuffers.new rows cols).Ended :=
    ⟨fun _ _ => ended_blankCell _, fun _ _ => ended_blankCell _⟩
  obtain ⟨terminal, answered, -, sound⟩ := @answer_isSome rows cols
    ⟨vtermStateNew rows cols, ScreenBuffers.new rows cols, none⟩ _ _ handles ⟨rfl, rfl⟩ ended
  exact ⟨terminal, by rw [start, started]; exact answered, sound⟩

end Terminal

/-- A terminal that is reached from the start through careful events. -/
inductive CarefulRun : {rows cols : Nat} → Terminal rows cols → Prop where
  | start {rows cols : Nat} {terminal : Terminal rows cols} (size : UsualSize rows cols)
      (started : Terminal.start rows cols = some terminal) : CarefulRun terminal
  | call {rows cols : Nat} {terminal next : Terminal rows cols} {call : ParserCall}
      (run : CarefulRun terminal) (careful : terminal.state.Careful call)
      (pushed : terminal.push call = some next) : CarefulRun next
  | resize {rows cols newRows newCols : Nat} {terminal : Terminal rows cols}
      {next : Terminal newRows newCols} (run : CarefulRun terminal)
      (careful : Terminal.CarefulSize terminal.state newRows newCols)
      (resized : terminal.setSize newRows newCols = some next) : CarefulRun next

/-- Every terminal of a careful run is sound. -/
theorem CarefulRun.sound {rows cols : Nat} {terminal : Terminal rows cols}
    (run : CarefulRun terminal) : terminal.Sound := by
  induction run with
  | start size started =>
      obtain ⟨terminal, same, sound⟩ := Terminal.start_isSome size
      rw [started] at same
      rwa [Option.some.inj same]
  | call run careful pushed ih =>
      obtain ⟨next, same, sound⟩ := ih.push careful
      rw [pushed] at same
      rwa [Option.some.inj same]
  | resize run careful resized ih =>
      obtain ⟨next, same, sound⟩ := ih.setSize careful
      rw [resized] at same
      rwa [Option.some.inj same]

/-- **Careful runs go on.** In a careful run the cursor is in the screen, and every careful
call and every careful change of the size is carried out. -/
theorem carefulRun_goes_on {rows cols : Nat} (terminal : Terminal rows cols)
    (run : CarefulRun terminal) :
    terminal.state.pos.Inside rows cols ∧
      (∀ call, terminal.state.Careful call → ∃ next, terminal.push call = some next) ∧
      ∀ newRows newCols, Terminal.CarefulSize terminal.state newRows newCols →
        ∃ next, terminal.setSize newRows newCols = some next := by
  have sound := run.sound
  refine ⟨?_, fun call careful => ?_, fun newRows newCols careful => ?_⟩
  · have cursor := sound.state.cursor
    rwa [sound.sized.1, sound.sized.2] at cursor
  · obtain ⟨next, pushed, -⟩ := sound.push careful
    exact ⟨next, pushed⟩
  · obtain ⟨next, resized, -⟩ := sound.setSize careful
    exact ⟨next, resized⟩

theorem usualSize_common : UsualSize 24 80 := ⟨by decide, by decide⟩

/-- A line feed behind the start, on 24 rows and 80 columns. -/
theorem carefulRun_goes_on_linefeed :
    ∃ terminal next : Terminal 24 80, Terminal.start 24 80 = some terminal ∧
      terminal.push (.control 0x0A) = some next ∧ next.state.pos.Inside 24 80 := by
  obtain ⟨terminal, started, sound⟩ := Terminal.start_isSome usualSize_common
  have run : CarefulRun terminal := .start usualSize_common started
  obtain ⟨next, pushed⟩ := (carefulRun_goes_on terminal run).2.1 (.control 0x0A) trivial
  exact ⟨terminal, next, started, pushed,
    (carefulRun_goes_on next (run.call (show terminal.state.Careful (.control 0x0A) from trivial)
      pushed)).1⟩

end Hackterm
