import Hackterm.Screen.Callbacks
import Mathlib.Algebra.Order.BigOperators.Group.List
import Mathlib.Data.List.SplitBy

/-! # Staying inside the arrays

Not every input is handled inside the arrays, and not every argument leads to a position that
is an `int`. An event is careful if it avoids the cases in which the code does not check
(`Hackterm.VTermState.Careful`). Where the
cursor is in the screen, the scroll region has a row and the arrays have their size
(`Hackterm.VTermState.Sound`), a careful event is handled, all its calls stay inside the
screen, and this holds again behind it (`Hackterm.VTermState.Sound.handle`,
`Hackterm.VTermState.Sound.onResize`).
-/

namespace Hackterm

open VTermState Reaction

/-- A size for which the positions in the screen are values of an `int`, and no line is too long
for the array of the scrollback. -/
structure UsualSize (rows cols : Nat) : Prop where
  rows : 1 ≤ rows ∧ rows < 2 ^ 30
  cols : 1 ≤ cols ∧ cols ≤ 1000

/-- A position in the screen. -/
def VTermPos.Inside (pos : VTermPos) (rows cols : Nat) : Prop :=
  (0 ≤ pos.row ∧ pos.row < rows) ∧ 0 ≤ pos.col ∧ pos.col < cols

/-- A scroll region that has a row and is in the screen. In origin mode it has a last row of
its own. -/
structure RegionHolds (rows : Nat) (start bottom : Int) (origin : Bool) : Prop where
  above : 0 ≤ start
  proper : start < if -1 < bottom then bottom else rows
  below : (if -1 < bottom then bottom else (rows : Int)) ≤ rows
  explicit : origin = true → -1 < bottom

/-- The glyph that is kept is one that a cell can hold. -/
structure KeptHolds (chars : List Nat) : Prop where
  held : CombineHolds chars (combineString chars)
  ended : 0 ∈ chars
  short : (combineString chars).length < vtermMaxCharsPerCell

namespace VTermState

/-- The arrays have their size. -/
structure Allocated (state : VTermState) : Prop where
  size : UsualSize state.rows state.cols
  tabs : state.tabstops.length = (state.cols + 7) / 8
  kept : KeptHolds state.combineChars

/-- The scroll region is in the screen. -/
structure Fit (state : VTermState) : Prop extends Allocated state where
  region : RegionHolds state.rows state.scrollregionStart state.scrollregionEnd state.mode.origin

/-- The cursor is in the screen, too. -/
structure Sound (state : VTermState) : Prop extends Fit state where
  cursor : state.pos.Inside state.rows state.cols

variable {state : VTermState}

theorem Sound.scrollregion (sound : state.Sound) :
    0 ≤ state.scrollregionStart ∧ state.scrollregionStart < state.scrollregionBottom ∧
      state.scrollregionBottom ≤ state.rows :=
  ⟨sound.region.above, sound.region.proper, sound.region.below⟩

theorem inside_scroll {rows cols : Nat} {rect : VTermRect} {downward rightward : Int}
    (inRows : 0 ≤ rect.startRow ∧ rect.endRow ≤ rows)
    (inCols : 0 ≤ rect.startCol ∧ rect.endCol ≤ cols)
    (straight : downward = 0 ∨ rightward = 0) :
    ∀ call ∈ scroll rect downward rightward, call.Inside rows cols := by
  unfold scroll
  split_ifs with still
  · simp
  · exact List.forall_mem_singleton.mpr ⟨⟨inRows, inCols⟩, straight, still⟩

/-- What a part of a handler does in a sound state. -/
def Handles (state : VTermState) (reaction : Reaction) : Prop :=
  reaction.1.Sound ∧ (reaction.1.rows = state.rows ∧ reaction.1.cols = state.cols) ∧
    ∀ call ∈ reaction.2, call.Inside state.rows state.cols

theorem Handles.refl (sound : state.Sound) : state.Handles (state, []) :=
  ⟨sound, ⟨rfl, rfl⟩, by simp⟩

theorem Handles.append {reaction : Reaction} (first : state.Handles reaction) {later : Reaction}
    (second : reaction.1.Handles later) : state.Handles (later.1, reaction.2 ++ later.2) := by
  obtain ⟨-, ⟨rows, cols⟩, inside⟩ := first
  obtain ⟨sound, size, inside'⟩ := second
  rw [rows, cols] at size inside'
  exact ⟨sound, size, List.forall_mem_append.mpr ⟨inside, inside'⟩⟩

theorem Handles.calls (sound : state.Sound) {calls : List StateCall}
    (inside : ∀ call ∈ calls, call.Inside state.rows state.cols) : state.Handles (state, calls) :=
  ⟨sound, ⟨rfl, rfl⟩, inside⟩

/-- A cursor that is set inside the screen. -/
theorem Sound.moved (sound : state.Sound) {pos : VTermPos} {atPhantom : Bool}
    (inside : pos.Inside state.rows state.cols) :
    Sound { state with pos := pos, atPhantom := atPhantom } :=
  ⟨⟨⟨sound.size, sound.tabs, sound.kept⟩, sound.region⟩, inside⟩

theorem Sound.linefeed (sound : state.Sound) : state.Handles (linefeed state) := by
  obtain ⟨start, proper, bottom⟩ := sound.scrollregion
  obtain ⟨inRows, inCols⟩ := sound.cursor
  unfold Hackterm.linefeed
  split_ifs with last more
  · exact .calls sound (inside_scroll ⟨start, bottom⟩ ⟨le_rfl, le_rfl⟩ (.inr rfl))
  · exact ⟨sound.moved ⟨⟨by dsimp only; omega, by dsimp only; omega⟩, inCols⟩, ⟨rfl, rfl⟩, by simp⟩
  · exact .refl sound

theorem Sound.setCol (sound : state.Sound) {col : Int} (inside : 0 ≤ col ∧ col < state.cols) :
    (state.setCol col).Sound := sound.moved ⟨sound.cursor.1, inside⟩

theorem Sound.setRow (sound : state.Sound) {row : Int} (inside : 0 ≤ row ∧ row < state.rows) :
    (state.setRow row).Sound := sound.moved ⟨inside, sound.cursor.2⟩

theorem Sound.updatecursor (sound : state.Sound) (oldpos : VTermPos) (cancel : Bool) :
    (state.updatecursor oldpos cancel).Sound := by
  obtain ⟨atPhantom, same⟩ := placed_updatecursor state oldpos cancel
  rw [same]
  exact sound.moved sound.cursor

theorem Sound.firstCol (sound : state.Sound) : 0 ≤ (0 : Int) ∧ 0 < (state.cols : Int) := by
  have cols := sound.size.cols
  omega

theorem Sound.wrap (sound : state.Sound) : state.Handles state.wrap := by
  unfold VTermState.wrap
  split_ifs
  · obtain ⟨fed, size, inside⟩ := sound.linefeed
    exact ⟨(fed.setCol fed.firstCol).moved (fed.setCol fed.firstCol).cursor, size, inside⟩
  · exact .refl sound

section Text

theorem glyphWidth_nonneg {chars : List Nat} (visible : ∀ char ∈ chars, IsVisible char) :
    0 ≤ columnsOf chars := by
  apply List.sum_nonneg
  intro width member
  obtain ⟨char, inside, rfl⟩ := List.mem_map.mp member
  obtain ⟨combines, other⟩ := vtermUnicodeWidth_text (visible char inside)
  cases is : vtermUnicodeIsCombining char with
  | true => rw [combines.mp is]
  | false =>
      rw [other is]
      split_ifs <;> decide

theorem length_glyphCodes (chars : List Nat) : (glyphCodes chars).length ≤ chars.length := by
  unfold glyphCodes
  exact (List.takeWhile_prefix _).length_le.trans_eq (List.length_map _)

/-- A short glyph with further code points behind the one that is kept. -/
theorem storeCombine_short {chars glyph new : List Nat} (held : CombineHolds chars glyph)
    (nonzero : ∀ char ∈ glyph ++ new, char ≠ 0)
    (short : (glyph ++ new).length < vtermMaxCharsPerCell) :
    ∃ stored, storeCombine chars glyph.length new = some stored ∧ KeptHolds stored ∧
      combineString stored = glyph ++ new := by
  have few : (glyph ++ new).length < combineCharsSize := by
    rw [combineCharsSize_eq]
    unfold vtermMaxCharsPerCell at short
    omega
  obtain ⟨overrun, stores⟩ := storeCombine_eq held new nonzero
  cases stored : storeCombine chars glyph.length new with
  | none => exact absurd (overrun.mp stored) (by omega)
  | some written =>
      obtain ⟨held', ended, string⟩ := stores written stored
      rw [List.take_of_length_le few.le] at string
      exact ⟨written, rfl, ⟨held', ended, string ▸ short⟩, string⟩

theorem Sound.keepGlyph (sound : state.Sound) {chars : List Nat} (width : Int)
    (visible : ∀ char ∈ chars, IsVisible char) (short : chars.length < vtermMaxCharsPerCell) :
    ∃ kept, state.keepGlyph chars width = some kept ∧ kept.Sound ∧ TextFrame state kept ∧
      kept.pos = state.pos := by
  have empty : CombineHolds state.combineChars [] :=
    ⟨sound.kept.held.size, by rw [List.take_nil]; exact List.nil_prefix⟩
  obtain ⟨stored, wrote, kept, -⟩ := storeCombine_short empty
    (fun char member => (visible char (by simpa using member)).1) (by simpa using short)
  have done : state.keepGlyph chars width = some { state with
      combineChars := stored, combineWidth := width, combinePos := state.pos } := by
    rw [List.length_nil] at wrote
    rw [VTermState.keepGlyph, wrote]
    rfl
  exact ⟨_, done, ⟨⟨⟨sound.size, sound.tabs, kept⟩, sound.region⟩, sound.cursor⟩,
    textFrame_keepGlyph done, rfl⟩

theorem Sound.advance (sound : state.Sound) {width : Int} (positive : 0 ≤ width) :
    (state.advance width).Sound := by
  have cursor := sound.cursor
  unfold VTermState.advance
  split_ifs with edge wraps
  · exact sound.moved cursor
  · exact sound
  · exact sound.setCol ⟨by have left := cursor.2.1; omega, by omega⟩

theorem Sound.rowFromCursor (sound : state.Sound) :
    (0 ≤ state.rowFromCursor.startRow ∧ state.rowFromCursor.endRow ≤ state.rows) ∧
      0 ≤ state.rowFromCursor.startCol ∧ state.rowFromCursor.endCol ≤ state.cols := by
  obtain ⟨⟨top, bottom⟩, left, -⟩ := sound.cursor
  exact ⟨⟨top, bottom⟩, left, le_rfl⟩

/-- A glyph that a cell can hold. -/
theorem Sound.putGlyph (sound : state.Sound) {chars : List Nat}
    (visible : ∀ char ∈ chars, IsVisible char) (short : chars.length < vtermMaxCharsPerCell)
    (isLast : Bool) :
    ∃ reaction, state.putGlyph chars isLast = some reaction ∧ state.Handles reaction := by
  obtain ⟨wrapped, ⟨rows, cols⟩, inside⟩ := sound.wrap
  have kept : ∃ kept, (if isLast then state.wrap.1.keepGlyph chars (columnsOf chars)
      else some state.wrap.1) = some kept ∧ kept.Sound ∧ TextFrame state.wrap.1 kept := by
    cases isLast with
    | true =>
        obtain ⟨kept, keeps, held, frame, -⟩ := wrapped.keepGlyph (columnsOf chars) visible short
        exact ⟨kept, keeps, held, frame⟩
    | false => exact ⟨_, rfl, wrapped, TextFrame.refl _⟩
  obtain ⟨kept, keeps, held, frame⟩ := kept
  have row := wrapped.rowFromCursor
  rw [rows, cols] at row
  have advanced := @textFrame_advance kept (columnsOf chars)
  refine ⟨_, by rw [VTermState.putGlyph, keeps]; rfl,
    held.advance (glyphWidth_nonneg visible), ⟨?_, ?_⟩, ?_⟩
  · exact advanced.rows.trans (frame.rows.trans rows)
  · exact advanced.cols.trans (frame.cols.trans cols)
  · refine List.forall_mem_append.mpr ⟨List.forall_mem_append.mpr ⟨inside, ?_⟩,
      List.forall_mem_singleton.mpr ((length_glyphCodes chars).trans_lt short)⟩
    split_ifs
    · exact inside_scroll row.1 row.2 (.inl rfl)
    · simp

theorem Sound.putGlyphs (sound : state.Sound) {glyphs : List (List Nat)}
    (visible : ∀ chars ∈ glyphs, ∀ char ∈ chars, IsVisible char)
    (short : ∀ chars ∈ glyphs, chars.length < vtermMaxCharsPerCell) :
    ∃ reaction, VTermState.putGlyphs glyphs state = some reaction ∧ state.Handles reaction := by
  induction glyphs generalizing state with
  | nil => exact ⟨_, rfl, .refl sound⟩
  | cons chars glyphs ih =>
      obtain ⟨seen, others⟩ := List.forall_mem_cons.mp visible
      obtain ⟨fits, fit⟩ := List.forall_mem_cons.mp short
      obtain ⟨first, put, handles⟩ := sound.putGlyph seen fits glyphs.isEmpty
      obtain ⟨later, rest, behind⟩ := ih handles.1 others fit
      refine ⟨_, ?_, handles.append behind⟩
      rw [VTermState.putGlyphs, put, Option.bind_some, rest]
      rfl

/-- Text whose glyphs fit in cells, also the one that is kept with what combines with it. -/
structure CarefulText (state : VTermState) (codepoints : List Nat) : Prop where
  visible : ∀ codepoint ∈ codepoints, IsVisible codepoint
  kept : (combineString state.combineChars ++
    codepoints.takeWhile vtermUnicodeIsCombining).length < vtermMaxCharsPerCell
  short : ∀ glyph ∈ glyphsOf codepoints, glyph.length < vtermMaxCharsPerCell

/-- The glyphs behind what combines are glyphs of the whole text. -/
theorem glyphsOf_dropWhile (codepoints : List Nat) :
    glyphsOf (codepoints.dropWhile vtermUnicodeIsCombining) ⊆ glyphsOf codepoints := by
  have split : glyphsOf codepoints = glyphsOf (codepoints.takeWhile vtermUnicodeIsCombining) ++
      glyphsOf (codepoints.dropWhile vtermUnicodeIsCombining) := by
    conv_lhs => rw [← List.takeWhile_append_dropWhile (p := vtermUnicodeIsCombining)
      (l := codepoints)]
    apply List.splitBy_append
    intro last _ first member
    have head := List.head?_dropWhile_not vtermUnicodeIsCombining codepoints
    cases behind : (codepoints.dropWhile vtermUnicodeIsCombining).head? with
    | none =>
        rw [behind] at member
        cases member
    | some other =>
        rw [behind] at member head
        cases member
        simpa using head
  rw [split]
  exact List.subset_append_right _ _

theorem mem_of_glyphsOf {codepoints glyph : List Nat} (member : glyph ∈ glyphsOf codepoints) :
    glyph ⊆ codepoints := by
  intro char inside
  rw [← List.flatten_splitBy (fun _ next => vtermUnicodeIsCombining next) codepoints]
  exact List.mem_flatten.mpr ⟨glyph, member, inside⟩

theorem Sound.putCombined (sound : state.Sound) {codepoints : List Nat}
    (careful : state.CarefulText codepoints) :
    ∃ reaction rest, state.putCombined codepoints = some (reaction, rest) ∧
      state.Handles reaction ∧
      (rest = codepoints ∨ rest = codepoints.dropWhile vtermUnicodeIsCombining) := by
  unfold VTermState.putCombined
  split_ifs with combines ended
  · have nonzero : ∀ char ∈ combineString state.combineChars ++
        codepoints.takeWhile vtermUnicodeIsCombining, char ≠ 0 := by
      refine List.forall_mem_append.mpr ⟨fun char member => ?_, fun char member => ?_⟩
      · simpa using List.mem_takeWhile_imp member
      · exact (careful.visible char ((List.takeWhile_sublist _).subset member)).1
    obtain ⟨stored, wrote, kept, string⟩ :=
      storeCombine_short sound.kept.held nonzero careful.kept
    refine ⟨_, _, by rw [wrote]; rfl,
      ⟨⟨⟨⟨sound.size, sound.tabs, kept⟩, sound.region⟩, sound.cursor⟩, ⟨rfl, rfl⟩,
        List.forall_mem_singleton.mpr ?_⟩, .inr rfl⟩
    rw [StateCall.Inside, string]
    exact (length_glyphCodes _).trans_lt careful.kept
  · exact absurd sound.kept.ended ended
  · exact ⟨_, _, rfl, .refl sound, .inl rfl⟩

/-- **Careful text** is put on the screen. -/
theorem Sound.putCodepoints (sound : state.Sound) {codepoints : List Nat}
    (careful : state.CarefulText codepoints) :
    ∃ reaction, state.putCodepoints codepoints = some reaction ∧ state.Handles reaction := by
  obtain ⟨first, rest, combined, handles, left⟩ := sound.putCombined careful
  have glyphs : glyphsOf rest ⊆ glyphsOf codepoints := by
    rcases left with rfl | rfl
    · exact List.Subset.refl _
    · exact glyphsOf_dropWhile codepoints
  have visible : ∀ chars ∈ glyphsOf rest, ∀ char ∈ chars, IsVisible char :=
    fun chars member char inside => careful.visible char (mem_of_glyphsOf (glyphs member) inside)
  obtain ⟨later, put, behind⟩ := handles.1.putGlyphs visible
    fun chars member => careful.short chars (glyphs member)
  refine ⟨_, ?_, handles.append behind⟩
  rw [VTermState.putCodepoints, combined]
  dsimp only [Option.bind_some]
  rw [put]
  rfl

end Text

section Functions

theorem Sound.stops (sound : state.Sound) :
    TabStops state.tabstops state.cols {col | isColTabstop state.tabstops col = some true} :=
  tabStops_of_length sound.tabs

/-- The column of the cursor as a number. -/
theorem Sound.col (sound : state.Sound) :
    ∃ col : Nat, state.pos.col = col ∧ col < state.cols := by
  obtain ⟨-, left, right⟩ := sound.cursor
  exact ⟨state.pos.col.toNat, by omega, by omega⟩

theorem Sound.tabbed (sound : state.Sound) {tabstops : List UInt8}
    (size : tabstops.length = state.tabstops.length) : Sound { state with tabstops := tabstops } :=
  ⟨⟨⟨sound.size, size.trans sound.tabs, sound.kept⟩, sound.region⟩, sound.cursor⟩

theorem Handles.andThen {reaction : Reaction} (first : state.Handles reaction)
    {second : VTermState → Reaction} (later : reaction.1.Handles (second reaction.1)) :
    state.Handles (reaction.andThen second) := first.append later

theorem Handles.silent {after : VTermState} (held : after.Sound)
    (rows : after.rows = state.rows) (cols : after.cols = state.cols) :
    state.Handles (after, []) := ⟨held, ⟨rows, cols⟩, by simp⟩

/-- **Every control is handled.** -/
theorem Sound.doControlFunction (sound : state.Sound) (function : ControlFunction) :
    ∃ reaction, state.doControlFunction function = some reaction ∧ state.Handles reaction := by
  have cursor := sound.cursor
  cases function with
  | bel => exact ⟨_, rfl, .calls sound (List.forall_mem_singleton.mpr trivial)⟩
  | bs =>
      refine ⟨_, rfl, ?_⟩
      split_ifs with behind
      · exact .silent (sound.setCol ⟨by omega, by have right := cursor.2.2; omega⟩) rfl rfl
      · exact .refl sound
  | ht =>
      obtain ⟨col, here, inside⟩ := sound.col
      obtain ⟨target, goes, below⟩ := tab_forward sound.stops 1 col inside
      refine ⟨_, by rw [VTermState.doControlFunction, here, goes]; rfl, ?_⟩
      exact .silent (sound.setCol ⟨Int.natCast_nonneg _, by omega⟩) rfl rfl
  | lf =>
      refine ⟨_, rfl, sound.linefeed.andThen ?_⟩
      have fed := sound.linefeed.1
      split_ifs
      · exact .silent (fed.setCol fed.firstCol) rfl rfl
      · exact .refl fed
  | cr => exact ⟨_, rfl, .silent (sound.setCol sound.firstCol) rfl rfl⟩
  | ls1 | ls0 =>
      exact ⟨_, rfl, ⟨⟨⟨sound.size, sound.tabs, sound.kept⟩, sound.region⟩, cursor⟩, ⟨rfl, rfl⟩,
        by simp⟩
  | ind => exact ⟨_, rfl, sound.linefeed⟩
  | nel =>
      have fed := sound.linefeed.1
      exact ⟨_, rfl, sound.linefeed.andThen (.silent (fed.setCol fed.firstCol) rfl rfl)⟩
  | hts =>
      obtain ⟨col, here, inside⟩ := sound.col
      obtain ⟨written, wrote, -⟩ := sound.stops.put inside true
      have set : setColTabstop state.tabstops col = some written := wrote
      refine ⟨_, by rw [VTermState.doControlFunction, here, set]; rfl, ?_⟩
      exact .silent (sound.tabbed (length_setTab set)) rfl rfl
  | ri =>
      obtain ⟨start, -, bottom⟩ := sound.scrollregion
      refine ⟨_, rfl, ?_⟩
      split_ifs with top above
      · exact .calls sound (inside_scroll ⟨start, bottom⟩ ⟨le_rfl, le_rfl⟩ (.inr rfl))
      · exact .silent (sound.setRow ⟨by omega, by have below := cursor.1.2; omega⟩) rfl rfl
      · exact .refl sound

theorem Sound.onControl (sound : state.Sound) (control : UInt8) :
    ∃ reaction, state.onControl control = some reaction ∧ state.Handles reaction := by
  unfold VTermState.onControl
  cases controlFunction control with
  | none => exact ⟨_, rfl, .refl sound⟩
  | some function =>
      obtain ⟨reaction, done, held, size, inside⟩ := sound.doControlFunction function
      refine ⟨(reaction.1.updatecursor state.pos true, reaction.2), by dsimp only; rw [done]; rfl,
        held.updatecursor _ _, ?_, inside⟩
      obtain ⟨atPhantom, same⟩ := placed_updatecursor reaction.1 state.pos true
      rw [same]
      exact size

/-- The saved cursor is in the screen. -/
def SavedInside (state : VTermState) : Prop := state.saved.pos.Inside state.rows state.cols

/-- The state behind a cursor that is restored. -/
theorem restorecursor_eq (state : VTermState) :
    ∃ atPhantom, state.restorecursor.1 = { state with
      pos := state.saved.pos
      mode := { state.mode with
        cursorVisible := state.saved.cursorVisible
        cursorBlink := state.saved.cursorBlink
        cursorShape := state.saved.cursorShape }
      pen := state.saved.pen
      atPhantom := atPhantom } :=
  placed_updatecursor (vtermStateRestorepen { state with
    pos := state.saved.pos
    mode := { state.mode with
      cursorVisible := state.saved.cursorVisible
      cursorBlink := state.saved.cursorBlink
      cursorShape := state.saved.cursorShape } }).1 state.pos true

theorem restorecursor_placed (state : VTermState) :
    ∃ mode pen atPhantom, state.restorecursor.1 = { state with
        pos := state.saved.pos, mode := mode, pen := pen, atPhantom := atPhantom } ∧
      mode.origin = state.mode.origin := by
  obtain ⟨atPhantom, same⟩ := restorecursor_eq state
  exact ⟨_, _, atPhantom, same, rfl⟩

theorem inside_restorecursor (state : VTermState) (rows cols : Nat) :
    ∀ call ∈ state.restorecursor.2, call.Inside rows cols := by
  simp [VTermState.restorecursor, cursorCalls, vtermStateRestorepen, penCalls, StateCall.Inside]

/-- The scroll region after a reset is the screen. -/
theorem regionHolds_reset {rows : Nat} (positive : 1 ≤ rows) :
    RegionHolds rows 0 (-1) modeReset.origin where
  above := le_rfl
  proper := Int.natCast_pos.mpr positive
  below := le_rfl
  explicit := fun on => absurd on (by decide)

/-- A reset is carried out. -/
theorem Allocated.reset (held : state.Allocated) (defaultEnc : VTermEncoding) :
    ∃ reaction, state.reset defaultEnc = some reaction ∧ state.Handles reaction := by
  obtain ⟨tabstops, wrote, -⟩ := (tabStops_of_length held.tabs).reset
  have rows := held.size.rows
  have cols := held.size.cols
  refine ⟨_, by rw [VTermState.reset, wrote]; rfl, ⟨⟨⟨held.size,
    (length_resetTabstops wrote).trans held.tabs, held.kept⟩, regionHolds_reset rows.1⟩, ?_⟩,
    ⟨rfl, rfl⟩, ?_⟩
  · exact ⟨⟨le_rfl, Int.natCast_pos.mpr rows.1⟩, le_rfl, Int.natCast_pos.mpr cols.1⟩
  · simp [vtermStateResetpen, cursorCalls, penCalls, StateCall.Inside]

/-- An escape sequence is handled if it does not restore a cursor that was saved outside the
screen. -/
theorem Sound.onEscape (sound : state.Sound) (bytes : List UInt8)
    (careful : escapeFunction bytes = some .decrc → state.SavedInside) :
    ∃ reaction, state.onEscape bytes = some reaction ∧ state.Handles reaction := by
  unfold VTermState.onEscape
  cases told : escapeFunction bytes with
  | none => exact ⟨_, rfl, .refl sound⟩
  | some function =>
      dsimp only
      cases function with
      | decaln =>
          refine ⟨_, rfl, .calls sound fun call member => ?_⟩
          obtain ⟨pos, -, rfl⟩ := List.mem_map.mp member
          exact (length_glyphCodes _).trans_lt (by decide)
      | scs | ls2 | ls3 | decsc | deckpam | deckpnm =>
          exact ⟨_, rfl, ⟨⟨⟨sound.size, sound.tabs, sound.kept⟩, sound.region⟩, sound.cursor⟩,
            ⟨rfl, rfl⟩, by simp⟩
      | decrc =>
          obtain ⟨mode, pen, atPhantom, same, origin⟩ := restorecursor_placed state
          refine ⟨_, rfl, ?_, ?_, inside_restorecursor state _ _⟩
          · rw [same]
            have region := sound.region
            rw [← origin] at region
            exact ⟨⟨⟨sound.size, sound.tabs, sound.kept⟩, region⟩, careful told⟩
          · rw [same]
            exact ⟨rfl, rfl⟩
      | ris => exact sound.toAllocated.reset .utf8

end Functions

section Rendition

theorem inside_setpenParameter (parameter : SgrParameter) (rows cols : Nat) :
    ∀ call ∈ (setpenParameter parameter state).2, call.Inside rows cols := by
  cases parameter with
  | reset => simp [setpenParameter, vtermStateResetpen, penCalls, StateCall.Inside]
  | boldOn =>
      unfold setpenParameter Reaction.andThen
      dsimp only
      split_ifs <;> simp [setpenattr, setPenFgAnsi, StateCall.Inside]
  | _ => simp [setpenParameter, setpenattr, setPenFgAnsi, setPenBgAnsi, StateCall.Inside]

/-- The parameters of SGR are complete: the last argument is marked as the last one and does
not announce a colour. -/
def CompleteSgr (args : List Int) : Prop :=
  ∀ last ∈ args.getLast?, csiArgHasMore last = false ∧ csiArg last ≠ 38 ∧ csiArg last ≠ 48

instance (args : List Int) : Decidable (CompleteSgr args) := by
  unfold CompleteSgr
  cases args.getLast? with
  | none => exact isTrue nofun
  | some last =>
      exact decidable_of_iff (csiArgHasMore last = false ∧ csiArg last ≠ 38 ∧ csiArg last ≠ 48)
        (by simp)

theorem CompleteSgr.tail {arg : Int} {rest : List Int} (complete : CompleteSgr (arg :: rest)) :
    CompleteSgr rest := by
  intro last member
  apply complete last
  cases rest with
  | nil => cases member
  | cons next rest => rwa [List.getLast?_cons_cons]

theorem CompleteSgr.drop {args : List Int} (complete : CompleteSgr args) (count : Nat) :
    CompleteSgr (args.drop count) := by
  induction count generalizing args with
  | zero => exact complete
  | succ count ih =>
      cases args with
      | nil => exact complete
      | cons arg rest => exact ih complete.tail

theorem CompleteSgr.more {args : List Int} (complete : CompleteSgr args) (present : args ≠ []) :
    ∃ more, moreArgs args = some more := by
  induction args with
  | nil => exact absurd rfl present
  | cons arg rest ih =>
      rw [moreArgs]
      cases rest with
      | nil =>
          have last := (complete arg rfl).1
          exact ⟨0, by rw [last]; rfl⟩
      | cons next rest =>
          obtain ⟨more, counted⟩ := ih complete.tail (List.cons_ne_nil _ _)
          split_ifs
          · exact ⟨more + 1, by rw [counted]; rfl⟩
          · exact ⟨0, rfl⟩

theorem lookupColour_count (palette : Nat) (args : List Int) (col : VTermColor) :
    (lookupColour palette args col).2 ≤ args.length := by
  unfold lookupColour
  split <;> simp

/-- A turn takes arguments that are there. -/
theorem setpenStep_isSome (state : VTermState) {arg : Int} {rest : List Int}
    (complete : CompleteSgr (arg :: rest)) :
    ∃ turn, setpenStep arg rest state = some turn ∧ turn.2 ≤ rest.length ∧
      ∀ rows cols, ∀ call ∈ turn.1.2, call.Inside rows cols := by
  unfold setpenStep
  split_ifs with foreground background
  · cases rest with
    | nil => exact absurd foreground (complete arg rfl).2.1
    | cons palette args =>
        have count : 1 + (lookupColour (csiArg palette) args state.pen.fg).2 ≤
            (palette :: args).length := by
          have taken := lookupColour_count (csiArg palette) args state.pen.fg
          rw [List.length_cons]
          omega
        exact ⟨_, rfl, count, fun rows cols => List.forall_mem_singleton.mpr trivial⟩
  · cases rest with
    | nil => exact absurd background (complete arg rfl).2.2
    | cons palette args =>
        have count : 1 + (lookupColour (csiArg palette) args state.pen.bg).2 ≤
            (palette :: args).length := by
          have taken := lookupColour_count (csiArg palette) args state.pen.bg
          rw [List.length_cons]
          omega
        exact ⟨_, rfl, count, fun rows cols => List.forall_mem_singleton.mpr trivial⟩
  · refine ⟨_, rfl, Nat.zero_le _, fun rows cols => ?_⟩
    cases sgrParameter (csiArg arg) with
    | none => simp
    | some parameter => exact inside_setpenParameter parameter rows cols

/-- **Complete parameters are selected.** -/
theorem setpenLoop_isSome (state : VTermState) {args : List Int} (complete : CompleteSgr args)
    (skip : Nat) :
    ∃ reaction, setpenLoop skip args state = some reaction ∧
      ∀ rows cols, ∀ call ∈ reaction.2, call.Inside rows cols := by
  induction args generalizing skip state with
  | nil => exact ⟨_, by rw [setpenLoop], by simp⟩
  | cons arg rest ih =>
      cases skip with
      | succ skip => exact ih state complete.tail skip
      | zero =>
          obtain ⟨turn, taken, count, inside⟩ := setpenStep_isSome state complete
          have present : (arg :: rest).drop turn.2 ≠ [] := by
            rw [Ne, List.drop_eq_nil_iff, List.length_cons]
            omega
          obtain ⟨more, counted⟩ := (complete.drop turn.2).more present
          obtain ⟨later, looped, others⟩ := ih turn.1.1 complete.tail (turn.2 + more)
          refine ⟨_, by rw [setpenLoop, taken]; dsimp only [Option.bind_some]
                        rw [counted, Option.bind_some, looped, Option.map_some], ?_⟩
          exact fun rows cols => List.forall_mem_append.mpr ⟨inside rows cols, others rows cols⟩

end Rendition

section Sequences

/-- An argument from which no position overflows. -/
def SmallArg (arg : Int) : Prop := csiArgIsMissing arg = true ∨ csiArg arg < 2 ^ 30

instance (arg : Int) : Decidable (SmallArg arg) := inferInstanceAs (Decidable (_ ∨ _))

theorem csiArgOr_small {arg : Int} (small : SmallArg arg) (default : Int)
    (between : 0 ≤ default ∧ default < 2 ^ 30) :
    0 ≤ csiArgOr arg default ∧ csiArgOr arg default < 2 ^ 30 := by
  unfold csiArgOr
  split_ifs with missing
  · exact between
  · have less := small.resolve_left missing
    omega

theorem csiArgCount_small {arg : Int} (small : SmallArg arg) :
    1 ≤ csiArgCount arg ∧ csiArgCount arg < 2 ^ 30 := by
  unfold csiArgCount
  split_ifs with one
  · omega
  · rw [not_or] at one
    have less := small.resolve_left one.1
    omega

/-- What a case of `on_csi` leaves before the cursor is kept in the screen. -/
structure Serves (state : VTermState) (reaction : Reaction) : Prop where
  fit : reaction.1.Fit
  size : reaction.1.rows = state.rows ∧ reaction.1.cols = state.cols
  inside : ∀ call ∈ reaction.2, call.Inside state.rows state.cols

/-- Whether a case of `on_csi` stays inside the arrays. Positions must not overflow, a tab
backwards needs a stop, the parameters of SGR must be complete, and a scroll region must be
in the screen and, in origin mode, have a last row. -/
def CarefulCsi (state : VTermState) (args : List Int) : CsiFunction → Prop
  | .sgr => CompleteSgr args
  | .cbt => state.pos.col + 1 = state.cols ∨ (csiArgCount (args.headD csiArgMissing)).toNat ≤
      stopsBefore state.tabstops state.pos.col.toNat
  | .decstbm => RegionHolds state.rows (state.setScrollregion args).scrollregionStart
      (state.setScrollregion args).scrollregionEnd state.mode.origin
  | .decsm => decMode (csiArg (args.headD csiArgMissing)) = some .origin →
      -1 < state.scrollregionEnd
  | _ => ∀ arg ∈ args, SmallArg arg

theorem Allocated.framed (held : state.Allocated) {after : VTermState}
    (frame : Frame state after) : after.Allocated where
  size := by rw [frame.rows, frame.cols]; exact held.size
  tabs := by rw [frame.tabs, frame.cols]; exact held.tabs
  kept := by rw [frame.combineChars]; exact held.kept

/-- Only the scroll region has to be looked at. -/
theorem Fit.serves (fit : state.Fit) {args : List Int} {function : CsiFunction}
    {reaction : Reaction} (done : state.doCsiFunction args function = some reaction)
    (region : RegionHolds state.rows reaction.1.scrollregionStart reaction.1.scrollregionEnd
      reaction.1.mode.origin)
    (inside : ∀ call ∈ reaction.2, call.Inside state.rows state.cols) : state.Serves reaction := by
  have frame := (Shape.ofCsi done).frame
  exact ⟨⟨fit.toAllocated.framed frame, by rw [frame.rows]; exact region⟩,
    ⟨frame.rows, frame.cols⟩, inside⟩

/-- A case that only calls the screen. -/
theorem Fit.serves_calls (fit : state.Fit) {calls : List StateCall}
    (inside : ∀ call ∈ calls, call.Inside state.rows state.cols) : state.Serves (state, calls) :=
  ⟨fit, ⟨rfl, rfl⟩, inside⟩

/-- A case that moves the cursor. -/
theorem Fit.serves_moved (fit : state.Fit) {row col : Int} (int : IsInt row ∧ IsInt col) :
    ∃ reaction, state.moveTo row col = some reaction ∧ state.Serves reaction :=
  ⟨_, if_pos int, ⟨⟨fit.size, fit.tabs, fit.kept⟩, fit.region⟩, ⟨rfl, rfl⟩, by simp⟩

theorem inside_eraseInDisplay (arg : Int) (rows cols : Nat) :
    ∀ call ∈ state.eraseInDisplay arg, call.Inside rows cols := by
  have erase : ∀ call ∈ state.eraseInDisplay arg, ∃ rect, call = .erase rect := by
    unfold VTermState.eraseInDisplay
    split_ifs <;> simp
  intro call member
  obtain ⟨rect, rfl⟩ := erase call member
  trivial

theorem inside_eraseInLine (arg : Int) (rows cols : Nat) :
    ∀ call ∈ state.eraseInLine arg, call.Inside rows cols := by
  have erase : ∀ call ∈ state.eraseInLine arg, ∃ rect, call = .erase rect := by
    unfold VTermState.eraseInLine
    dsimp only
    split_ifs <;> simp
  intro call member
  obtain ⟨rect, rfl⟩ := erase call member
  trivial

/-- Modes other than the origin mode leave it. -/
theorem setDecMode_placed (mode : DecMode) (val : Bool) (other : mode ≠ .origin) :
    ((setDecMode mode val state).1.scrollregionStart = state.scrollregionStart ∧
      (setDecMode mode val state).1.scrollregionEnd = state.scrollregionEnd) ∧
      (setDecMode mode val state).1.mode.origin = state.mode.origin := by
  have restored : (state.restorecursor.1.scrollregionStart = state.scrollregionStart ∧
      state.restorecursor.1.scrollregionEnd = state.scrollregionEnd) ∧
      state.restorecursor.1.mode.origin = state.mode.origin := by
    obtain ⟨mode, pen, atPhantom, same, origin⟩ := restorecursor_placed state
    rw [same]
    exact ⟨⟨rfl, rfl⟩, origin⟩
  cases mode with
  | origin => exact absurd rfl other
  | savecursor =>
      cases val with
      | true => exact ⟨⟨rfl, rfl⟩, rfl⟩
      | false => exact restored
  | altscreenSavecursor =>
      cases val with
      | true => exact ⟨⟨rfl, rfl⟩, rfl⟩
      | false =>
          obtain ⟨mode, pen, atPhantom, same, origin⟩ :=
            restorecursor_placed (state.altscreen false).1
          have fields : (setDecMode .altscreenSavecursor false state).1 =
              (state.altscreen false).1.restorecursor.1 := rfl
          rw [fields, same]
          exact ⟨⟨rfl, rfl⟩, origin⟩
  | _ => exact ⟨⟨rfl, rfl⟩, rfl⟩

theorem inside_setDecMode (mode : DecMode) (val : Bool) (rows cols : Nat) :
    ∀ call ∈ (setDecMode mode val state).2, call.Inside rows cols := by
  cases mode with
  | savecursor =>
      cases val with
      | true => simp [setDecMode, saveOrRestore]
      | false => exact inside_restorecursor state rows cols
  | altscreenSavecursor =>
      cases val with
      | true => simp [setDecMode, saveOrRestore, VTermState.altscreen, Reaction.andThen,
          StateCall.Inside]
      | false =>
          exact List.forall_mem_append.mpr ⟨by simp [VTermState.altscreen, StateCall.Inside],
            inside_restorecursor _ rows cols⟩
  | altscreen => cases val <;> simp [setDecMode, VTermState.altscreen, StateCall.Inside]
  | _ => simp [setDecMode, StateCall.Inside]

/-- A mode is set, the origin mode only with a last row of the scroll region. -/
theorem Fit.serves_setDecMode (fit : state.Fit) (mode : DecMode) (val : Bool)
    (careful : mode = .origin → val = true → -1 < state.scrollregionEnd) :
    state.Serves (setDecMode mode val state) := by
  have frame := (@Shape.ofDecMode state mode val).frame
  have region : RegionHolds state.rows (setDecMode mode val state).1.scrollregionStart
      (setDecMode mode val state).1.scrollregionEnd (setDecMode mode val state).1.mode.origin := by
    by_cases other : mode = .origin
    · subst other
      obtain ⟨atPhantom, same⟩ := placed_updatecursor
        (((state.setMode { state.mode with origin := val }).setRow
          (if val then state.scrollregionStart else 0)).setCol 0) state.pos true
      have fields : (setDecMode .origin val state).1 = _ := same
      rw [fields]
      exact ⟨fit.region.above, fit.region.proper, fit.region.below, careful rfl⟩
    · obtain ⟨⟨start, bottom⟩, origin⟩ := @setDecMode_placed state mode val other
      rw [start, bottom, origin]
      exact fit.region
  exact ⟨⟨fit.toAllocated.framed frame, by rw [frame.rows]; exact region⟩,
    ⟨frame.rows, frame.cols⟩, inside_setDecMode mode val _ _⟩

theorem Fit.serves_setAnsiMode (fit : state.Fit) (num : Nat) (val : Bool) :
    state.Serves (state.setAnsiMode num val, []) := by
  have frame := (@Shape.ofAnsiMode state num val).frame
  refine ⟨⟨fit.toAllocated.framed frame, ?_⟩, ⟨frame.rows, frame.cols⟩, by simp⟩
  unfold VTermState.setAnsiMode
  split_ifs <;> exact fit.region

theorem Fit.serves_changeMode (fit : state.Fit) {arg : Int}
    {change : Nat → VTermState → Reaction} (serves : state.Serves (change (csiArg arg) state)) :
    state.Serves (state.changeMode arg change) := by
  unfold VTermState.changeMode
  split_ifs
  · exact fit.serves_calls (by simp)
  · exact serves

/-- **A careful CSI sequence is served.** -/
theorem Sound.doCsiFunction (sound : state.Sound) (args : List Int) (function : CsiFunction)
    (careful : state.CarefulCsi args function) :
    ∃ reaction, state.doCsiFunction args function = some reaction ∧ state.Serves reaction := by
  obtain ⟨⟨top, bottom⟩, left, right⟩ := sound.cursor
  obtain ⟨start, proper, regionBottom⟩ := sound.scrollregion
  have rows := sound.size.rows
  have cols := sound.size.cols
  have fit := sound.toFit
  have row := sound.rowFromCursor
  have missing : SmallArg csiArgMissing := by decide
  have arg : (∀ arg ∈ args, SmallArg arg) → SmallArg (args.headD csiArgMissing) := by
    intro small
    cases args with
    | nil => exact missing
    | cons arg rest => exact small arg List.mem_cons_self
  have second : (∀ arg ∈ args, SmallArg arg) →
      0 ≤ secondOr args 1 ∧ secondOr args 1 < 2 ^ 30 := by
    intro small
    unfold secondOr
    split
    · exact csiArgOr_small (small _ (List.mem_cons_of_mem _ List.mem_cons_self)) 1 (by decide)
    · decide
  have named : (∀ arg ∈ args, SmallArg arg) → IsInt (state.rowOf (args.headD csiArgMissing)) := by
    intro small
    have number := csiArgOr_small (arg small) 1 (by decide)
    unfold VTermState.rowOf IsInt
    dsimp only
    split_ifs <;> omega
  cases function with
  | cuu | vpb | cud | vpr | cuf | hpr | cub | hpb | cnl | cpl =>
      have count := csiArgCount_small (arg careful)
      apply fit.serves_moved
      unfold IsInt
      dsimp only [doCsiFunction.row, doCsiFunction.col, doCsiFunction.count, doCsiFunction.arg]
      omega
  | cha | hpa =>
      have number := csiArgOr_small (arg careful) 1 (by decide)
      apply fit.serves_moved
      unfold IsInt
      dsimp only [doCsiFunction.row, doCsiFunction.arg]
      omega
  | cup | hvp =>
      have col := second careful
      exact fit.serves_moved ⟨named careful, by unfold IsInt; omega⟩
  | vpa =>
      refine fit.serves_moved ⟨named careful, ?_⟩
      unfold IsInt
      dsimp only [doCsiFunction.col]
      omega
  | cht =>
      obtain ⟨col, here, inside⟩ := sound.col
      obtain ⟨target, goes, below⟩ := tab_forward sound.stops
        (csiArgCount (args.headD csiArgMissing)).toNat col inside
      have done : state.doCsiFunction args .cht = some (state.setCol target, []) := by
        rw [VTermState.doCsiFunction, doCsiFunction.col, here, doCsiFunction.count,
          doCsiFunction.arg, goes]
        rfl
      exact ⟨_, done, fit.serves done fit.region (by simp)⟩
  | cbt =>
      obtain ⟨col, here, inside⟩ := sound.col
      obtain ⟨target, goes, below⟩ := tab_back sound.stops
        (csiArgCount (args.headD csiArgMissing)).toNat col inside (by
          unfold CarefulCsi at careful
          rw [here, Int.toNat_natCast] at careful
          omega)
      have done : state.doCsiFunction args .cbt = some (state.setCol target, []) := by
        rw [VTermState.doCsiFunction, doCsiFunction.col, here, doCsiFunction.count,
          doCsiFunction.arg, goes]
        rfl
      exact ⟨_, done, fit.serves done fit.region (by simp)⟩
  | ich | dch => exact ⟨_, rfl, fit.serves_calls (inside_scroll row.1 row.2 (.inl rfl))⟩
  | il | dl =>
      exact ⟨_, rfl, fit.serves_calls
        (inside_scroll ⟨top, regionBottom⟩ ⟨le_rfl, le_rfl⟩ (.inr rfl))⟩
  | su | sd =>
      exact ⟨_, rfl, fit.serves_calls
        (inside_scroll ⟨start, regionBottom⟩ ⟨le_rfl, le_rfl⟩ (.inr rfl))⟩
  | ed => exact ⟨_, rfl, fit.serves_calls (inside_eraseInDisplay _ _ _)⟩
  | el => exact ⟨_, rfl, fit.serves_calls (inside_eraseInLine _ _ _)⟩
  | ech =>
      have count := csiArgCount_small (arg careful)
      refine ⟨_, if_pos ?_, fit.serves_calls (List.forall_mem_singleton.mpr trivial)⟩
      unfold IsInt
      dsimp only [doCsiFunction.col, doCsiFunction.count, doCsiFunction.arg]
      omega
  | da | dsr => exact ⟨_, rfl, fit.serves_calls (by simp)⟩
  | tbc =>
      obtain ⟨col, here, inside⟩ := sound.col
      have cleared : ∃ after, state.clearTabs (args.headD csiArgMissing) = some after ∧
          ∃ tabstops, after = { state with tabstops := tabstops } := by
        unfold VTermState.clearTabs
        split_ifs
        · obtain ⟨written, wrote, -⟩ := sound.stops.put inside false
          have clear : clearColTabstop state.tabstops col = some written := wrote
          exact ⟨_, by rw [here, clear]; rfl, _, rfl⟩
        · obtain ⟨written, wrote, -⟩ := sound.stops.clear
          exact ⟨_, by rw [wrote]; rfl, _, rfl⟩
        · exact ⟨_, rfl, _, rfl⟩
      obtain ⟨after, clears, tabstops, rfl⟩ := cleared
      have done : state.doCsiFunction args .tbc =
          some ({ state with tabstops := tabstops }, []) := by
        rw [VTermState.doCsiFunction, doCsiFunction.arg, clears]
        rfl
      exact ⟨_, done, fit.serves done fit.region (by simp)⟩
  | sm | rm =>
      exact ⟨_, rfl, fit.serves_changeMode (fit.serves_setAnsiMode _ _)⟩
  | decsm =>
      refine ⟨_, rfl, fit.serves_changeMode ?_⟩
      rw [doCsiFunction.arg]
      cases told : decMode (csiArg (args.headD csiArgMissing)) with
      | none => exact fit.serves_calls (by simp)
      | some mode =>
          exact fit.serves_setDecMode mode true fun same _ => careful (by rw [told, same])
  | decrm =>
      refine ⟨_, rfl, fit.serves_changeMode ?_⟩
      rw [doCsiFunction.arg]
      cases decMode (csiArg (args.headD csiArgMissing)) with
      | none => exact fit.serves_calls (by simp)
      | some mode => exact fit.serves_setDecMode mode false fun _ never => absurd never (by simp)
  | sgr =>
      obtain ⟨reaction, selected, inside⟩ := setpenLoop_isSome state careful 0
      obtain ⟨pen, fgAnsi, same⟩ := penOnly_setpenLoop selected
      have done : state.doCsiFunction args .sgr = some reaction := selected
      refine ⟨reaction, done, fit.serves done ?_ (inside _ _)⟩
      rw [same]
      exact fit.region
  | decscusr =>
      have done : state.doCsiFunction args .decscusr =
          some (state.setCursorShape (args.headD csiArgMissing)) := rfl
      refine ⟨_, done, fit.serves done ?_ ?_⟩
      · unfold VTermState.setCursorShape
        dsimp only
        split_ifs <;> exact fit.region
      · simp [VTermState.setCursorShape, StateCall.Inside]
  | decstbm =>
      have done : state.doCsiFunction args .decstbm = some (state.setScrollregion args, []) := rfl
      exact ⟨_, done, fit.serves done careful (by simp)⟩
  | save =>
      have done : state.doCsiFunction args .save = some (state.savecursor, []) := rfl
      exact ⟨_, done, fit.serves done fit.region (by simp)⟩
  | restore =>
      have done : state.doCsiFunction args .restore = some state.restorecursor := rfl
      obtain ⟨mode, pen, atPhantom, same, origin⟩ := restorecursor_placed state
      refine ⟨_, done, fit.serves done ?_ (inside_restorecursor _ _ _)⟩
      rw [same, origin]
      exact fit.region

theorem bounded_between {low high : Int} (proper : low ≤ high) (number : Int) :
    low ≤ bounded low high number ∧ bounded low high number ≤ high := by
  unfold bounded
  dsimp only
  split_ifs <;> omega

theorem bounded_eq {low high number : Int} (inside : low ≤ number ∧ number ≤ high) :
    bounded low high number = number := by
  unfold bounded
  dsimp only
  split_ifs <;> omega

/-- Keeping the cursor in the screen, or in the scroll region, puts it into the screen. -/
theorem Fit.boundCursor (fit : state.Fit) : state.boundCursor.Sound := by
  have rows := fit.size.rows
  have cols := fit.size.cols
  obtain ⟨above, proper, below, explicit⟩ := fit.region
  refine ⟨⟨⟨fit.size, fit.tabs, fit.kept⟩, fit.region⟩, ?_, ?_⟩
  · unfold VTermState.boundCursor
    dsimp only
    split_ifs with origin
    · rw [if_pos (explicit origin)] at proper below
      have some_row : state.scrollregionStart ≤ state.scrollregionEnd - 1 := by omega
      have between := bounded_between some_row state.pos.row
      omega
    · have some_row : 0 ≤ (state.rows : Int) - 1 := by omega
      have between := bounded_between some_row state.pos.row
      omega
  · have some_col : 0 ≤ (state.cols : Int) - 1 := by omega
    have between := bounded_between some_col state.pos.col
    unfold VTermState.boundCursor
    dsimp only
    omega

theorem Sound.onCsi (sound : state.Sound) (event : CsiEvent)
    (careful : ∀ function, csiFunction event = some function →
      state.CarefulCsi event.args function) :
    ∃ reaction, state.onCsi event = some reaction ∧ state.Handles reaction := by
  unfold VTermState.onCsi
  cases told : csiFunction event with
  | none => exact ⟨_, rfl, .refl sound⟩
  | some function =>
      dsimp only
      split_ifs
      · exact ⟨_, rfl, .refl sound⟩
      · obtain ⟨reaction, done, fit, size, inside⟩ :=
          sound.doCsiFunction event.args function (careful function told)
        refine ⟨(reaction.1.boundCursor.updatecursor state.pos true, reaction.2),
          by rw [done]; rfl, fit.boundCursor.updatecursor _ _, ?_, inside⟩
        obtain ⟨atPhantom, same⟩ :=
          placed_updatecursor reaction.1.boundCursor state.pos true
        rw [same]
        exact size

end Sequences

/-- A call that avoids what the code does not check. -/
def Careful (state : VTermState) : ParserCall → Prop
  | .text bytes => ∃ encodings codepoints eaten,
      decodeText state.encodings bytes = some (encodings, codepoints, eaten) ∧
        state.CarefulText codepoints
  | .escape bytes => escapeFunction bytes = some .decrc → state.SavedInside
  | .csi event => ∀ function, csiFunction event = some function →
      state.CarefulCsi event.args function
  | .control _ | .osc _ | .dcs _ => True

/-- **A careful call is handled**, all its calls stay inside the screen, and the state is sound
again. -/
theorem Sound.handle (sound : state.Sound) {call : ParserCall} (careful : state.Careful call) :
    ∃ reaction, state.handle call = some reaction ∧ state.Handles reaction := by
  cases call with
  | text bytes =>
      obtain ⟨encodings, codepoints, eaten, decodes, text⟩ := careful
      have decoded : Sound { state with encodings := encodings } :=
        ⟨⟨⟨sound.size, sound.tabs, sound.kept⟩, sound.region⟩, sound.cursor⟩
      obtain ⟨reaction, put, handles⟩ := decoded.putCodepoints ⟨text.visible, text.kept, text.short⟩
      refine ⟨reaction, ?_, handles⟩
      rw [VTermState.handle, VTermState.onText, decodes]
      exact put
  | control control => exact sound.onControl control
  | escape bytes => exact sound.onEscape bytes careful
  | csi event => exact sound.onCsi event careful
  | osc command | dcs command => exact ⟨_, rfl, .refl sound⟩

/-- **A change of the size** keeps the state sound if the scroll region stays in the screen. -/
theorem Sound.onResize (sound : state.Sound) {rows cols : Nat} (size : UsualSize rows cols)
    (region : RegionHolds rows state.scrollregionStart state.scrollregionEnd state.mode.origin) :
    ∃ reaction, state.onResize rows cols = some reaction ∧ reaction.1.Sound ∧
      reaction.1.rows = rows ∧ reaction.1.cols = cols := by
  have written : ∃ tabstops, (if cols = state.cols then some state.tabstops
      else resizeTabstops state.tabstops state.cols cols) = some tabstops ∧
      tabstops.length = (cols + 7) / 8 := by
    split_ifs with same
    · exact ⟨_, rfl, by rw [same]; exact sound.tabs⟩
    · obtain ⟨tabstops, wrote, stops⟩ := sound.stops.resize cols
      exact ⟨tabstops, wrote, stops.size⟩
  obtain ⟨tabstops, wrote, length⟩ := written
  obtain ⟨⟨top, bottom⟩, left, right⟩ := sound.cursor
  obtain ⟨atPhantom, placed⟩ := placed_updatecursor { state with
    tabstops := tabstops
    rows := rows
    cols := cols
    pos := ⟨if rows ≤ state.pos.row then (rows : Int) - 1 else state.pos.row,
      if state.atPhantom = true ∧
          (if cols ≤ state.pos.col then (cols : Int) - 1 else state.pos.col) < cols - 1 then
        (if cols ≤ state.pos.col then (cols : Int) - 1 else state.pos.col) + 1
      else if cols ≤ state.pos.col then (cols : Int) - 1 else state.pos.col⟩
    atPhantom := if state.atPhantom = true ∧
        (if cols ≤ state.pos.col then (cols : Int) - 1 else state.pos.col) < cols - 1 then false
      else state.atPhantom } state.pos true
  have rows' := size.rows
  have cols' := size.cols
  refine ⟨_, by rw [VTermState.onResize, wrote]; rfl, ?_⟩
  dsimp only
  rw [placed]
  refine ⟨⟨⟨⟨size, length, sound.kept⟩, region⟩, ⟨?_, ?_⟩⟩, rfl, rfl⟩
  · dsimp only
    split_ifs <;> omega
  · dsimp only
    split_ifs <;> omega

/-- The state at the start is sound. -/
theorem sound_start {rows cols : Nat} (size : UsualSize rows cols) :
    ∃ start, vtermStateStart rows cols = some start ∧
      (vtermStateNew rows cols).Handles start := by
  have kept : KeptHolds (List.replicate combineCharsSize 0) := by
    have string : combineString (List.replicate combineCharsSize 0) = [] := by decide
    exact ⟨⟨.inl List.length_replicate, by rw [string, List.take_nil]; exact List.nil_prefix⟩,
      by decide, by rw [string]; decide⟩
  exact Allocated.reset ⟨size, List.length_replicate, kept⟩ .usascii

end VTermState

end Hackterm
