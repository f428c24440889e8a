import Hackterm.Screen.Moves
import Hackterm.Scrollback.Conservation
import Hackterm.State.Frame

/-! # The terminal

The screen has a primary and an alternate buffer and draws in one of them
(`Hackterm.ScreenBuffers`). The calls of the handlers change cells of this buffer, the pen, or
the buffer that is in use, and lines that scroll off go to the scrollback
(`Hackterm.ScreenBuffers.callback`). With the state of the terminal this makes the terminal
of the program (`Hackterm.Terminal`). A call changes a terminal only where it says
(`Hackterm.getcell_putglyph`).
-/

namespace Hackterm

/-- The code points of a gap behind a wide character, `(uint32_t)-1`. -/
abbrev gapChar : UInt32 := 0xFFFFFFFF

/-- The code points of `putglyph`, up to a zero. -/
def glyphCodes (chars : List Nat) : List UInt32 := (chars.map UInt32.ofNat).takeWhile (· ≠ 0)

theorem zero_mem_ofFn (glyph : List UInt32) (old : Vector UInt32 vtermMaxCharsPerCell)
    (room : glyph.length < vtermMaxCharsPerCell) :
    (0 : UInt32) ∈ Vector.ofFn fun i : Fin vtermMaxCharsPerCell =>
      if (i : Nat) < glyph.length then glyph.getD i 0
      else if (i : Nat) = glyph.length then 0 else old[i] := by
  rw [Vector.mem_iff_getElem]
  refine ⟨glyph.length, room, ?_⟩
  rw [Vector.getElem_ofFn, if_neg (Nat.lt_irrefl _), if_pos rfl]

/-- The loop of `putglyph` over the code points, and the zero behind them. A glyph that fills
the cell has no zero, and is outside what is modelled. -/
def ScreenCell.putChars (pen : ScreenPen) (glyph : List UInt32) (cell : ScreenCell) :
    Option ScreenCell :=
  if room : glyph.length < vtermMaxCharsPerCell then
    some
      { chars := Vector.ofFn fun i : Fin vtermMaxCharsPerCell =>
          if (i : Nat) < glyph.length then glyph.getD i 0
          else if (i : Nat) = glyph.length then 0 else cell.chars[i]
        pen := if glyph = [] then cell.pen else pen
        ended := zero_mem_ofFn glyph cell.chars room }
  else none

/-- `chars[0] = (uint32_t)-1`. A cell that loses its only zero is outside what is
modelled. -/
def ScreenCell.putGap (cell : ScreenCell) : Option ScreenCell :=
  if ended : (0 : UInt32) ∈ cell.chars.set 0 gapChar vtermMaxCharsPerCell_pos then
    some { cell with chars := cell.chars.set 0 gapChar vtermMaxCharsPerCell_pos, ended := ended }
  else none

variable {rows cols : Nat}

/-- A cell is changed where there is one. -/
def changeCell (row col : Int) (change : ScreenCell → Option ScreenCell)
    (screen : VTermScreen rows cols) : Option (VTermScreen rows cols) :=
  match getcell screen row col with
  | none => some screen
  | some cell => (change cell).map fun changed =>
      { screen with buffer := fun r c =>
          if (r : Int) = row ∧ (c : Int) = col then changed else screen.buffer r c }

/-- `putglyph`. -/
def putglyph (chars : List Nat) (width : Int) (pos : VTermPos) (screen : VTermScreen rows cols) :
    Option (VTermScreen rows cols) :=
  if (getcell screen pos.row pos.col).isNone then some screen
  else
    (changeCell pos.row pos.col (ScreenCell.putChars screen.pen (glyphCodes chars)) screen).bind
      fun screen => (List.range (width - 1).toNat).foldlM (fun screen (turn : Nat) =>
        changeCell pos.row (pos.col + 1 + turn) ScreenCell.putGap screen) screen

section Cells

variable {screen drawn : VTermScreen rows cols} {row col : Int}

/-- A cell that is changed, cell by cell. -/
theorem getcell_changeCell {change : ScreenCell → Option ScreenCell}
    (done : changeCell row col change screen = some drawn) :
    drawn.pen = screen.pen ∧ drawn.globalReverse = screen.globalReverse ∧ ∀ r c : Int,
      getcell drawn r c =
        if r = row ∧ c = col then (getcell screen r c).bind change else getcell screen r c := by
  unfold changeCell at done
  cases found : getcell screen row col with
  | none =>
      rw [found] at done
      obtain rfl := Option.some.inj done
      refine ⟨rfl, rfl, fun r c => ?_⟩
      split_ifs with here
      · rw [here.1, here.2, found, Option.bind_none]
      · rfl
  | some cell =>
      rw [found] at done
      obtain ⟨changed, changes, rfl⟩ := Option.map_eq_some_iff.mp done
      refine ⟨rfl, rfl, fun r c => ?_⟩
      by_cases inside : (0 ≤ r ∧ r < rows) ∧ 0 ≤ c ∧ c < cols
      · have place : ((r.toNat : Int) = r) ∧ (c.toNat : Int) = c := by omega
        rw [getcell, dif_pos inside]
        dsimp only
        rw [place.1, place.2]
        split_ifs with here
        · rw [here.1, here.2, found, Option.bind_some, changes]
        · rw [getcell, dif_pos inside]
      · rw [getcell_outside _ inside, getcell_outside _ inside]
        split_ifs <;> rfl

/-- The zero in the last place of a cell is never overwritten. -/
def ScreenCell.Ended (cell : ScreenCell) : Prop := cell.chars[5] = 0

/-- All cells of a screen keep the zero in their last place. -/
def Drawable (screen : VTermScreen rows cols) : Prop :=
  ∀ row col cell, getcell screen row col = some cell → cell.Ended

theorem putChars_isSome (pen : ScreenPen) {glyph : List UInt32} (cell : ScreenCell)
    (room : glyph.length < vtermMaxCharsPerCell) :
    ∃ changed, cell.putChars pen glyph = some changed := ⟨_, dif_pos room⟩

theorem putChars_ended {pen : ScreenPen} {glyph : List UInt32} {cell changed : ScreenCell}
    (done : cell.putChars pen glyph = some changed) (ended : cell.Ended) : changed.Ended := by
  unfold ScreenCell.putChars at done
  by_cases room : glyph.length < vtermMaxCharsPerCell
  swap
  · rw [dif_neg room] at done
    cases done
  rw [dif_pos room] at done
  obtain rfl := Option.some.inj done
  unfold ScreenCell.Ended at *
  rw [Vector.getElem_ofFn]
  dsimp only
  split_ifs with inside
  · exact absurd inside (by unfold vtermMaxCharsPerCell at room; omega)
  · rfl
  · exact ended

/-- A gap can be put into a cell that keeps its zero. -/
theorem putGap_isSome {cell : ScreenCell} (ended : cell.Ended) :
    ∃ changed, cell.putGap = some changed ∧ changed.Ended := by
  have last : (cell.chars.set 0 gapChar vtermMaxCharsPerCell_pos)[5] = 0 := by
    rw [Vector.getElem_set_ne _ _ (by decide)]
    exact ended
  have member : (0 : UInt32) ∈ cell.chars.set 0 gapChar vtermMaxCharsPerCell_pos := by
    rw [Vector.mem_iff_getElem]
    exact ⟨5, by decide, last⟩
  exact ⟨_, dif_pos member, last⟩

/-- A change that every cell allows is made. -/
theorem changeCell_isSome (drawable : Drawable screen) (row col : Int)
    {change : ScreenCell → Option ScreenCell}
    (allowed : ∀ cell : ScreenCell, cell.Ended →
      ∃ changed, change cell = some changed ∧ changed.Ended) :
    ∃ drawn, changeCell row col change screen = some drawn ∧ Drawable drawn := by
  have made : ∃ drawn, changeCell row col change screen = some drawn := by
    unfold changeCell
    cases found : getcell screen row col with
    | none => exact ⟨_, rfl⟩
    | some cell =>
        obtain ⟨changed, changes, -⟩ := allowed cell (drawable row col cell found)
        dsimp only
        rw [changes]
        exact ⟨_, rfl⟩
  obtain ⟨drawn, done⟩ := made
  refine ⟨drawn, done, fun r c cell found => ?_⟩
  rw [(getcell_changeCell done).2.2] at found
  split_ifs at found
  · obtain ⟨old, here, changes⟩ := Option.bind_eq_some_iff.mp found
    obtain ⟨changed, other, ended⟩ := allowed old (drawable r c old here)
    rw [other] at changes
    rw [← Option.some.inj changes]
    exact ended
  · exact drawable r c cell found

/-- The gaps behind a wide character, cell by cell. -/
theorem putGaps_eq (drawable : Drawable screen) (row col : Int) (count : Nat) :
    ∃ drawn, (List.range count).foldlM (fun screen (turn : Nat) =>
        changeCell row (col + turn) ScreenCell.putGap screen) screen = some drawn ∧
      Drawable drawn ∧ drawn.pen = screen.pen ∧ drawn.globalReverse = screen.globalReverse ∧
      ∀ r c : Int, getcell drawn r c =
        if r = row ∧ col ≤ c ∧ c < col + count then (getcell screen r c).bind ScreenCell.putGap
        else getcell screen r c := by
  induction count with
  | zero => exact ⟨screen, rfl, drawable, rfl, rfl, fun r c => by rw [if_neg (by omega)]⟩
  | succ count ih =>
      obtain ⟨before, folded, kept, pen, reverse, cells⟩ := ih
      obtain ⟨drawn, done, ended⟩ := changeCell_isSome kept row (col + count)
        fun cell ended => putGap_isSome ended
      obtain ⟨samePen, sameReverse, changed⟩ := getcell_changeCell done
      refine ⟨drawn, ?_, ended, samePen.trans pen, sameReverse.trans reverse, fun r c => ?_⟩
      · rw [List.range_succ, List.foldlM_append, folded]
        simp only [bind, Option.bind_some, List.foldlM_cons, done, List.foldlM_nil]
        rfl
      · rw [changed, cells]
        by_cases last : r = row ∧ c = col + count
        · rw [if_pos last, if_neg (by omega), if_pos (by omega)]
        · rw [if_neg last]
          by_cases before : r = row ∧ col ≤ c ∧ c < col + count
          · rw [if_pos before, if_pos (by omega)]
          · rw [if_neg before, if_neg (by omega)]

/-- **A glyph changes its own cell and the gaps behind it.** Outside the screen it changes
nothing. -/
theorem getcell_putglyph (drawable : Drawable screen) (chars : List Nat) (width : Int)
    (pos : VTermPos) (room : (glyphCodes chars).length < vtermMaxCharsPerCell) :
    ∃ drawn, putglyph chars width pos screen = some drawn ∧ Drawable drawn ∧
      drawn.pen = screen.pen ∧ drawn.globalReverse = screen.globalReverse ∧
      ∀ r c : Int, getcell drawn r c =
        if (getcell screen pos.row pos.col).isSome ∧ r = pos.row ∧ c = pos.col then
          (getcell screen r c).bind (ScreenCell.putChars screen.pen (glyphCodes chars))
        else if (getcell screen pos.row pos.col).isSome ∧ r = pos.row ∧ pos.col < c ∧
            c < pos.col + width then
          (getcell screen r c).bind ScreenCell.putGap
        else getcell screen r c := by
  unfold putglyph
  cases inside : (getcell screen pos.row pos.col).isSome with
  | false =>
      rw [if_pos (by rw [Option.isNone_iff_eq_none, ← Option.not_isSome_iff_eq_none, inside]; simp)]
      exact ⟨screen, rfl, drawable, rfl, rfl, fun r c => by simp⟩
  | true =>
      rw [if_neg (by rw [← Option.not_isSome, inside]; simp)]
      have allowed : ∀ cell : ScreenCell, cell.Ended → ∃ changed,
          cell.putChars screen.pen (glyphCodes chars) = some changed ∧ changed.Ended := by
        intro cell ended
        obtain ⟨changed, changes⟩ := putChars_isSome screen.pen cell room
        exact ⟨changed, changes, putChars_ended changes ended⟩
      obtain ⟨first, done, kept⟩ := changeCell_isSome drawable pos.row pos.col allowed
      obtain ⟨samePen, sameReverse, changed⟩ := getcell_changeCell done
      obtain ⟨drawn, folded, ended, pen, reverse, cells⟩ :=
        putGaps_eq kept pos.row (pos.col + 1) (width - 1).toNat
      refine ⟨drawn, ?_, ended, pen.trans samePen, reverse.trans sameReverse, fun r c => ?_⟩
      · rw [done, Option.bind_some, folded]
      · rw [cells, changed]
        by_cases gap : r = pos.row ∧ pos.col + 1 ≤ c ∧ c < pos.col + 1 + (width - 1).toNat
        · rw [if_pos gap, if_neg (by omega), if_neg (by omega), if_pos ⟨rfl, by omega⟩]
        · rw [if_neg gap]
          by_cases here : r = pos.row ∧ c = pos.col
          · rw [if_pos here, if_pos ⟨rfl, here⟩]
          · rw [if_neg here, if_neg fun both => here both.2, if_neg fun both => gap (by omega)]

end Cells

/-- The fields of `VTermScreen` with both buffers. -/
structure ScreenBuffers (rows cols : Nat) where
  primary : Fin rows → Fin cols → ScreenCell
  alternate : Fin rows → Fin cols → ScreenCell
  onAlternate : Bool
  pen : ScreenPen
  globalReverse : Bool

namespace ScreenBuffers

/-- The screen with the buffer in use. -/
def current (screen : ScreenBuffers rows cols) : VTermScreen rows cols where
  buffer := if screen.onAlternate then screen.alternate else screen.primary
  pen := screen.pen
  globalReverse := screen.globalReverse

/-- The buffer in use is replaced. -/
def put (screen : ScreenBuffers rows cols) (drawn : VTermScreen rows cols) :
    ScreenBuffers rows cols :=
  if screen.onAlternate then { screen with alternate := drawn.buffer }
  else { screen with primary := drawn.buffer }

/-- The callbacks of the state. The change of the size is `ScreenBuffers.resize`. -/
def callback (st : ScreenBuffers rows cols × Option ScrollBuffer) :
    StateCall → Option (ScreenBuffers rows cols × Option ScrollBuffer)
  | .putglyph chars width pos =>
      (putglyph chars width pos st.1.current).map fun drawn => (st.1.put drawn, st.2)
  | .scrollrect rect downward rightward =>
      (vtermScrollRect screenPrescroll rect downward rightward (st.1.current, st.2)).map
        fun (drawn, scrollback) => (st.1.put drawn, scrollback)
  | .erase rect => some (st.1.put (eraseInternal rect st.1.current), st.2)
  | .setpenattr attr => some ({ st.1 with pen := attr.apply st.1.pen }, st.2)
  | .settermprop (.altscreen on) => some ({ st.1 with onAlternate := on }, st.2)
  | .settermprop (.reverse on) => some ({ st.1 with globalReverse := on }, st.2)
  | .settermprop _ | .bell => some st
  | .resize _ _ => none

/-- A cell of a new buffer. -/
def blankCell (pen : ScreenPen) : ScreenCell where
  chars := Vector.replicate vtermMaxCharsPerCell 0
  pen := pen
  ended := by
    rw [Vector.mem_replicate]
    exact ⟨by decide, rfl⟩

/-- `realloc_buffer`. -/
def reallocBuffer (pen : ScreenPen) (buffer : Fin rows → Fin cols → ScreenCell)
    (newRows newCols : Nat) : Fin newRows → Fin newCols → ScreenCell := fun row col =>
  if inside : (row : Nat) < rows ∧ (col : Nat) < cols then
    buffer ⟨row, inside.1⟩ ⟨col, inside.2⟩
  else blankCell pen

/-- `resize`. -/
def resize (newRows newCols : Nat) (screen : ScreenBuffers rows cols) :
    ScreenBuffers newRows newCols where
  primary := reallocBuffer screen.pen screen.primary newRows newCols
  alternate := reallocBuffer screen.pen screen.alternate newRows newCols
  onAlternate := screen.onAlternate
  pen := screen.pen
  globalReverse := screen.globalReverse

/-- `screen_new` and `vterm_screen_enable_altscreen`, in memory that was zero. -/
def new (rows cols : Nat) : ScreenBuffers rows cols where
  primary := fun _ _ => blankCell (vtermStateNew rows cols).pen
  alternate := fun _ _ => blankCell (vtermStateNew rows cols).pen
  onAlternate := false
  pen := (vtermStateNew rows cols).pen
  globalReverse := false

end ScreenBuffers

/-- The terminal: its state, its screen, and the lines that left it. -/
structure Terminal (rows cols : Nat) where
  state : VTermState
  screen : ScreenBuffers rows cols
  scrollback : Option ScrollBuffer

namespace Terminal

/-- The calls of a handler are made. -/
def answer (terminal : Terminal rows cols) (reaction : Reaction) : Option (Terminal rows cols) :=
  (reaction.2.foldlM ScreenBuffers.callback (terminal.screen, terminal.scrollback)).map
    fun (screen, scrollback) => ⟨reaction.1, screen, scrollback⟩

/-- A call of the parser. -/
def push (terminal : Terminal rows cols) (call : ParserCall) : Option (Terminal rows cols) :=
  (terminal.state.handle call).bind terminal.answer

/-- `vterm_set_size`. -/
def setSize (newRows newCols : Nat) (terminal : Terminal rows cols) :
    Option (Terminal newRows newCols) :=
  (terminal.state.onResize newRows newCols).map fun reaction =>
    ⟨reaction.1, terminal.screen.resize newRows newCols, terminal.scrollback⟩

/-- `vterm_initialisation`. -/
def start (rows cols : Nat) : Option (Terminal rows cols) :=
  (vtermStateStart rows cols).bind
    (answer ⟨vtermStateNew rows cols, ScreenBuffers.new rows cols, none⟩)

end Terminal

section Defined

/-- A loop whose turns are all defined. -/
theorem foldlM_goes_on {α β : Type*} {f : β → α → Option β} {kept : β → Prop} {list : List α}
    (turns : ∀ element ∈ list, ∀ before, kept before →
      ∃ after, f before element = some after ∧ kept after)
    (first : β) (start : kept first) : ∃ last, list.foldlM f first = some last ∧ kept last := by
  induction list generalizing first with
  | nil => exact ⟨first, rfl, start⟩
  | cons element list ih =>
      obtain ⟨next, turn, held⟩ := turns element List.mem_cons_self first start
      obtain ⟨last, rest, reached⟩ := ih (fun other member => turns other
        (List.mem_cons_of_mem _ member)) next held
      exact ⟨last, by rw [List.foldlM_cons, turn]; exact rest, reached⟩

/-- Rows that are on the screen can be pushed. -/
theorem screenPrescroll_isSome (narrow : cols ≤ 1000) (screen : VTermScreen rows cols)
    (rect : VTermRect) (below : rect.endRow ≤ rows) (scrollback : Option ScrollBuffer) :
    ∃ told, screenPrescroll screen rect scrollback = some told := by
  unfold screenPrescroll
  by_cases other : rect.startRow ≠ 0 ∨ rect.startCol ≠ 0 ∨ rect.endCol ≠ cols
  · exact ⟨scrollback, if_pos other⟩
  · rw [if_neg other]
    have pushes : ∀ row ∈ (List.range (rect.endRow - rect.startRow).toNat).map fun turn : Nat =>
        rect.startRow + turn, ∀ before : Option ScrollBuffer, True →
        ∃ after, (if 1000 < cols then none
          else (reportedRow screen row).map fun line => some (scrollBufferPush before line)) =
            some after ∧ True := by
      intro row member before _
      obtain ⟨turn, within, rfl⟩ := List.mem_map.mp member
      rw [List.mem_range] at within
      obtain ⟨line, found, -⟩ := reportedRow_isSome screen (rect.startRow + turn) (by omega)
        (by omega)
      rw [if_neg (Nat.not_lt.mpr narrow), found]
      exact ⟨_, rfl, trivial⟩
    obtain ⟨told, pushed, -⟩ := foldlM_goes_on pushes scrollback trivial
    exact ⟨told, pushed⟩

theorem scrollTold_isSome (narrow : cols ≤ 1000) (screen : VTermScreen rows cols) (rect : VTermRect)
    (downward rightward : Int) (below : rect.endRow ≤ rows) (scrollback : Option ScrollBuffer) :
    ∃ told, scrollTold screenPrescroll rect downward rightward screen scrollback = some told := by
  unfold scrollTold
  split_ifs with whole
  · exact ⟨scrollback, rfl⟩
  · have first : ∃ told, prescrollRows screenPrescroll (scrollDest rect downward rightward)
        (scrollSrc rect downward rightward) screen scrollback = some told := by
      unfold prescrollRows
      split_ifs with up down
      · refine screenPrescroll_isSome narrow screen _ ?_ scrollback
        simp only [scrollSrc]
        split_ifs <;> omega
      · refine screenPrescroll_isSome narrow screen _ ?_ scrollback
        simp only [scrollDest]
        split_ifs <;> omega
      · exact ⟨scrollback, rfl⟩
    obtain ⟨told, rowsTold⟩ := first
    rw [rowsTold, Option.bind_some]
    unfold prescrollCols
    have below' : (scrollDest rect downward rightward).endRow ≤ rows := by
      simp only [scrollDest]
      split_ifs <;> omega
    split_ifs with left right
    · exact screenPrescroll_isSome narrow screen _ (by exact below') told
    · exact screenPrescroll_isSome narrow screen _ (by exact below') told
    · exact ⟨told, rfl⟩

/-- A call that stays inside the screen. -/
def StateCall.Inside (rows cols : Nat) : StateCall → Prop
  | .putglyph chars _ _ => (glyphCodes chars).length < vtermMaxCharsPerCell
  | .scrollrect rect downward rightward =>
      ((0 ≤ rect.startRow ∧ rect.endRow ≤ rows) ∧ 0 ≤ rect.startCol ∧ rect.endCol ≤ cols) ∧
        (downward = 0 ∨ rightward = 0) ∧ ¬ (downward = 0 ∧ rightward = 0)
  | .resize _ _ => False
  | _ => True

namespace ScreenBuffers

/-- All cells keep the zero in their last place. -/
structure Ended (screen : ScreenBuffers rows cols) : Prop where
  primary : ∀ row col, (screen.primary row col).Ended
  alternate : ∀ row col, (screen.alternate row col).Ended

variable {screen : ScreenBuffers rows cols}

theorem Ended.drawable (ended : screen.Ended) : Drawable screen.current := by
  intro row col cell found
  unfold getcell at found
  split_ifs at found with inside
  rw [← Option.some.inj found]
  unfold current
  dsimp only
  split_ifs
  · exact ended.alternate _ _
  · exact ended.primary _ _

theorem Ended.put (ended : screen.Ended) {drawn : VTermScreen rows cols}
    (drawable : Drawable drawn) : (screen.put drawn).Ended := by
  have cells : ∀ row col, (drawn.buffer row col).Ended := by
    intro row col
    apply drawable (row : Nat) (col : Nat)
    rw [getcell, dif_pos (by omega)]
    rfl
  unfold ScreenBuffers.put
  split_ifs
  · exact ⟨ended.primary, cells⟩
  · exact ⟨cells, ended.alternate⟩

theorem drawable_erase {pen : ScreenPen} {cell : ScreenCell} (ended : cell.Ended) :
    (cell.erase pen).Ended := by
  unfold ScreenCell.Ended ScreenCell.erase
  dsimp only
  rw [Vector.getElem_set_ne _ _ (by decide)]
  exact ended

theorem drawable_eraseInternal {drawn : VTermScreen rows cols} (drawable : Drawable drawn)
    (rect : VTermRect) : Drawable (eraseInternal rect drawn) := by
  intro row col cell found
  rw [getcell_eraseInternal] at found
  split_ifs at found
  · obtain ⟨old, here, rfl⟩ := Option.map_eq_some_iff.mp found
    exact drawable_erase (drawable row col old here)
  · exact drawable row col cell found

theorem drawable_shifted {drawn scrolled : VTermScreen rows cols} (drawable : Drawable drawn)
    {rect : VTermRect} {downward rightward : Int}
    (cells : ∀ row col, getcell scrolled row col =
      shiftedCell drawn rect downward rightward row col) :
    Drawable scrolled := by
  intro row col cell found
  rw [cells, shiftedCell] at found
  split_ifs at found
  · exact drawable _ _ cell found
  · obtain ⟨old, here, rfl⟩ := Option.map_eq_some_iff.mp found
    exact drawable_erase (drawable row col old here)
  · exact drawable row col cell found

/-- **A call inside the screen is carried out.** -/
theorem callback_isSome (narrow : cols ≤ 1000) (ended : screen.Ended)
    (scrollback : Option ScrollBuffer) {call : StateCall} (inside : call.Inside rows cols) :
    ∃ after, callback (screen, scrollback) call = some after ∧ after.1.Ended := by
  cases call with
  | putglyph chars width pos =>
      obtain ⟨drawn, done, drawable, -⟩ := getcell_putglyph ended.drawable chars width pos inside
      refine ⟨(screen.put drawn, scrollback), ?_, ended.put drawable⟩
      rw [callback, done]
      rfl
  | scrollrect rect downward rightward =>
      obtain ⟨⟨inRows, inCols⟩, straight, moves⟩ := inside
      obtain ⟨scrolled, done, -, cells⟩ := vtermScrollRect_eq screenPrescroll screen.current rect
        downward rightward inRows inCols straight moves
      obtain ⟨told, called⟩ := scrollTold_isSome narrow screen.current rect downward rightward
        inRows.2 scrollback
      refine ⟨(screen.put scrolled, told), ?_, ended.put (drawable_shifted ended.drawable cells)⟩
      rw [callback, done, called]
      rfl
  | erase rect => exact ⟨_, rfl, ended.put (drawable_eraseInternal ended.drawable rect)⟩
  | setpenattr attr => exact ⟨_, rfl, ended.primary, ended.alternate⟩
  | settermprop prop =>
      cases prop with
      | altscreen on => exact ⟨_, rfl, ended.primary, ended.alternate⟩
      | reverse on => exact ⟨_, rfl, ended.primary, ended.alternate⟩
      | _ => exact ⟨_, rfl, ended⟩
  | bell => exact ⟨_, rfl, ended⟩
  | resize rows cols => exact absurd inside id

/-- All calls of a handler are carried out. -/
theorem callbacks_isSome (narrow : cols ≤ 1000) (ended : screen.Ended)
    (scrollback : Option ScrollBuffer) {calls : List StateCall}
    (inside : ∀ call ∈ calls, call.Inside rows cols) :
    ∃ after, calls.foldlM callback (screen, scrollback) = some after ∧ after.1.Ended :=
  foldlM_goes_on (fun call member before kept => callback_isSome narrow kept before.2
    (inside call member)) (screen, scrollback) ended

end ScreenBuffers

end Defined

end Hackterm
