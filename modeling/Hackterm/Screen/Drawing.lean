import Mathlib.Tactic.Ring
import Hackterm.Layout.Columns
import Hackterm.Nunifont
import Hackterm.Screen.Session

/-! # Drawing the text

A frame is drawn row by row (`Hackterm.redrawTextFrame`), and each row cell by cell, where a cell
of two columns is followed by one that is not drawn (`Hackterm.drawRow`). Every cell that is
drawn stands at its own column (`Hackterm.drawRowFrom_eq`), and of each cell only the lower half of
its first code point is drawn. The frame of a session, without a scroll offset, is what the
abstract terminal displays (`Hackterm.session_drawn`).
-/

namespace Hackterm

open Planes Layout VTermState

/-- A call of `draw_unitext_renderer` for a text of one character. -/
structure UnitextCall where
  x : Int
  y : Int
  text : UInt16
  bg : UInt32
  fg : UInt32
  bold : Bool
  underline : Fin 4
  italic : Bool
  strike : Bool
deriving DecidableEq

/-- `draw_unitext_fancy_renderer`: in one half of a blink the colors are exchanged. -/
def drawUnitextFancyRenderer (blinkValue : Bool) (x y : Int) (text : UInt16) (bg fg : UInt32)
    (attrs : ScreenPen) : UnitextCall :=
  let reverse := if attrs.blink && blinkValue then true else attrs.reverse
  ⟨x, y, text, if reverse then fg else bg, if reverse then bg else fg, attrs.bold,
    attrs.underline, attrs.italic, attrs.strike⟩

/-- `(red << 24) + (green << 16) + (blue << 8) + 0xff`. -/
def VTermColor.pack (color : VTermColor) : UInt32 :=
  (color.red.toUInt32 <<< 24) + (color.green.toUInt32 <<< 16) + (color.blue.toUInt32 <<< 8) + 0xFF

/-- `rtext`, whose characters have 16 bits: a cell without text is drawn as a space. -/
def rtext (chars : List UInt32) : UInt16 :=
  let first := (chars.headD 0).toUInt16
  if first = 0 then 0x20 else first

/-- The columns of the display are as wide as the font. -/
def Nunifont.advance (font : Nunifont) : Int := font.width + font.space

/-- The rows of the display are as high as the font. -/
def Nunifont.lineHeight (font : Nunifont) : Int := font.height + font.space

section Rows

variable (font : Nunifont) (blinkValue : Bool) (ypos : Int)

/-- The cell that `draw_row` draws at a position. -/
def drawRowCell (xpos : Int) (cell : VTermScreenCell) : UnitextCall :=
  drawUnitextFancyRenderer blinkValue xpos ypos (rtext cell.chars) cell.pen.bg.pack
    cell.pen.fg.pack cell.pen

/-- The loop of `draw_row`; `skip` behind a cell of two columns. -/
def drawRowFrom : Bool → Int → Line → List UnitextCall
  | _, _, [] => []
  | true, xpos, _ :: row => drawRowFrom false xpos row
  | false, xpos, cell :: row =>
      let next := xpos + font.advance
      drawRowCell blinkValue ypos xpos cell ::
        drawRowFrom (cell.width = 2) (if cell.width = 2 then next + font.advance else next) row

/-- `draw_row`, of a row that has `glen` cells. -/
def drawRow (cols : Nat) (row : Line) (glen : Nat) : List UnitextCall :=
  drawRowFrom font blinkValue ypos false 0 (row.take (min cols glen))

/-- What is drawn of a look. -/
def drawLook (column : Nat) (look : Look) : UnitextCall :=
  drawUnitextFancyRenderer blinkValue (column * font.advance) ypos
    (match look.shown with
      | .blank => 0x20
      | .gap => 0xFFFF
      | .glyph chars => rtext chars)
    look.pen.bg.pack look.pen.fg.pack look.pen

/-- What is drawn of the looks of a row, with their widths. -/
def drawLooks (looks : List (Look × Nat)) : List UnitextCall :=
  (visible looks).map fun (column, look) => drawLook font blinkValue ypos column look

theorem drawRowCell_eq (column : Nat) (cell : VTermScreenCell) :
    drawRowCell blinkValue ypos (column * font.advance) cell =
      drawLook font blinkValue ypos column cell.look.1 := by
  have text : rtext cell.chars = match (shownChars cell.chars) with
      | .blank => 0x20
      | .gap => 0xFFFF
      | .glyph chars => rtext chars := by
    cases cell.chars with
    | nil => rfl
    | cons first rest =>
        rw [shownChars]
        split_ifs with gap
        · rw [rtext, List.headD_cons, gap]
          rfl
        · rfl
  rw [drawRowCell, text]
  rfl

/-- **Every cell is drawn at its column.** -/
theorem drawRowFrom_eq (row : Line) (skip : Bool) (column : Nat) :
    drawRowFrom font blinkValue ypos skip
        ((if skip then column + 1 else column : Nat) * font.advance) row =
      (visibleFrom skip column (lineLook row)).map fun (column, look) =>
        drawLook font blinkValue ypos column look := by
  induction row generalizing skip column with
  | nil => cases skip <;> rfl
  | cons cell row ih =>
      cases skip with
      | true => exact ih false (column + 1)
      | false =>
          have next : (if cell.width = 2 then (column : Int) * font.advance + font.advance +
                font.advance else column * font.advance + font.advance) =
              ((if cell.width = 2 then column + 1 + 1 else column + 1 : Nat) : Int) *
                font.advance := by
            split_ifs <;> push_cast <;> ring
          have rest := ih (cell.width = 2) (column + 1)
          simp only [decide_eq_true_eq] at rest
          rw [drawRowFrom, if_neg Bool.false_ne_true, drawRowCell_eq, next, rest]
          rfl

theorem drawRow_eq {cols : Nat} {row : Line} (whole : row.length = cols) :
    drawRow font blinkValue ypos cols row cols =
      drawLooks font blinkValue ypos (lineLook row) := by
  have all := drawRowFrom_eq font blinkValue ypos row false 0
  rw [if_neg Bool.false_ne_true, Int.natCast_zero, Int.zero_mul] at all
  rw [drawRow, Nat.min_self, List.take_of_length_le whole.le, all]
  rfl

end Rows

/-- `SDL_Rect`. -/
structure SDLRect where
  x : Int
  y : Int
  w : Int
  h : Int
deriving DecidableEq

/-- What is drawn of a row: its text, and the rectangle of the cursor over it. -/
structure DrawnRow where
  text : List UnitextCall
  cursor : Option SDLRect
deriving DecidableEq

section Frames

variable {rows cols : Nat} (font : Nunifont) (blinkValue : Bool)

/-- The rectangle of the cursor at the row of the window, over a cell with so many columns. -/
def cursorRect (column : Int) (row width : Nat) : SDLRect where
  x := column * font.advance
  y := row * font.lineHeight
  w := if width = 2 then font.advance + font.advance else font.advance
  h := font.lineHeight

/-- The body of the loop of `redraw_text`. To read a cell that the row does not have is
undefined. -/
def redrawTextRow (terminal : Terminal rows cols) (row : Nat) (trow : Int) (grabbed : GrabbedRow) :
    Option DrawnRow :=
  let cursorpos := terminal.state.pos
  let text := grabbed.rowdata.elim [] fun rowdata =>
    drawRow font blinkValue (row * font.lineHeight) cols rowdata grabbed.len
  match grabbed.rowdata with
  | none => some ⟨text, none⟩
  | some rowdata =>
      if cursorpos.row = trow ∧ cursorpos.col < cols ∧ cursorpos.row < rows then
        if cursorpos.col < 0 then none
        else rowdata[cursorpos.col.toNat]?.map fun cell =>
          ⟨text, some (cursorRect font cursorpos.col row cell.width)⟩
      else some ⟨text, none⟩

/-- What `redraw_text` draws of each row of the window. -/
def redrawTextFrame (terminal : Terminal rows cols) (scrollOffset : Int) :
    Option (List DrawnRow) :=
  (List.range rows).mapM fun row : Nat => do
    let grabbed ← grabRow terminal.screen.current terminal.scrollback (row - scrollOffset)
    redrawTextRow font blinkValue terminal row (row - scrollOffset) grabbed

/-- What is drawn of a row of the display. -/
def displayRow (display : Display) (pos : VTermPos) (row : Nat) : DrawnRow :=
  let looks := rowSeen display.cols display.globalReverse display.current row
  ⟨drawLooks font blinkValue (row * font.lineHeight) looks,
    if pos.row = row then looks[pos.col.toNat]?.map fun look => cursorRect font pos.col row look.2
    else none⟩

/-- A row that is shown. -/
theorem Terminal.Shows.row {terminal : Terminal rows cols} {display : Display}
    (shows : terminal.Shows display) (size : display.rows = rows) {row : Nat} (below : row < rows) :
    ∃ line, reportedRow terminal.screen.current row = some line ∧ line.length = cols ∧
      lineLook line = rowSeen display.cols display.globalReverse display.current row := by
  obtain ⟨lines, found, looks⟩ := shows.screen
  obtain ⟨line, reported, length⟩ := reportedRow_isSome terminal.screen.current row (by omega)
    (by omega)
  refine ⟨line, reported, length, ?_⟩
  rw [size] at looks
  have places := congrArg (·[row]?) ((mapM_eq_some_iff _ _ _).mp found)
  have shown := congrArg (·[row]?) looks
  simp only [List.getElem?_map, List.getElem?_range below, Option.map_some, reported]
    at places shown
  obtain ⟨other, there, same⟩ := Option.map_eq_some_iff.mp places.symm
  rw [there, Option.map_some, Option.some.injEq] at shown
  rw [← Option.some.inj same, shown]

/-- **The frame is what is displayed.** -/
theorem redrawTextFrame_shows {terminal : Terminal rows cols} {display : Display}
    (shows : terminal.Shows display) (size : display.rows = rows)
    (inside : 0 ≤ terminal.state.pos.col ∧ terminal.state.pos.col < cols) :
    redrawTextFrame font blinkValue terminal 0 = some ((List.range rows).map
      (displayRow font blinkValue display terminal.state.pos)) := by
  unfold redrawTextFrame
  rw [mapM_eq_some_iff, List.map_map]
  refine List.map_congr_left fun row member => ?_
  have below : row < rows := List.mem_range.mp member
  obtain ⟨cells, reported, length, here⟩ := shows.row size below
  have grabbed : grabRow terminal.screen.current terminal.scrollback ((row : Int) - 0) =
      some ⟨some cells, cols⟩ := by
    rw [grabRow, if_pos (by omega), Int.sub_zero, reported, Option.map_some]
  rw [grabbed, Int.sub_zero]
  show redrawTextRow font blinkValue terminal row row ⟨some cells, cols⟩ = _
  unfold redrawTextRow
  dsimp only [Option.elim_some]
  rw [drawRow_eq font blinkValue _ length, Function.comp_apply, displayRow, here]
  by_cases cursor : terminal.state.pos.row = row
  · have cell : terminal.state.pos.col.toNat < cells.length := by omega
    have look : (rowSeen display.cols display.globalReverse display.current
        row)[terminal.state.pos.col.toNat]? = some cells[terminal.state.pos.col.toNat].look := by
      rw [← here, lineLook, List.getElem?_map, List.getElem?_eq_getElem cell]
      rfl
    rw [if_pos ⟨cursor, inside.2, by omega⟩, if_neg (by omega), List.getElem?_eq_getElem cell,
      if_pos cursor, look]
    rfl
  · rw [if_neg fun all => cursor all.1, if_neg cursor]

end Frames


/-- **Sessions are drawn as they are displayed.** Without a scroll offset, every frame of a session
has all that the abstract terminal displays behind the calls of the state, each cell at its own
column, and the cursor in its place. -/
theorem session_drawn (rows cols : Nat) (size : UsualSize rows cols) (font : Nunifont)
    (blinkValue : Bool) (events : List TermEvent)
    (careful : ∀ start, vtermStateStart rows cols = some start → CarefulEvents start.1 events) :
    ∃ session last reaction, Session.start rows cols = some session ∧
      events.foldlM Session.step session = some last ∧
      reactFromStart rows cols events = some reaction ∧
      redrawTextFrame font blinkValue last.terminal 0 =
        some ((List.range last.rows).map (displayRow font blinkValue
          (reaction.2.foldl Display.call (Display.new rows cols)) reaction.1.pos)) := by
  obtain ⟨session, last, reaction, begun, run, reacts, holds⟩ := Session.holds_run size careful
  obtain ⟨same, sound, carries⟩ := holds
  have cursor := sound.state.cursor.2
  rw [sound.sized.2] at cursor
  have drawn := redrawTextFrame_shows font blinkValue carries.shows carries.sized cursor
  rw [same] at drawn
  exact ⟨session, last, reaction, begun, run, reacts, drawn⟩

/-- The size changes from 24 rows and 80 columns to 30 and 100, and a line feed follows. -/
theorem session_drawn_resized :
    ∃ session last reaction, Session.start 24 80 = some session ∧
      [.resize 30 100, .call (.control 0x0A)].foldlM Session.step session = some last ∧
      reactFromStart 24 80 [.resize 30 100, .call (.control 0x0A)] = some reaction ∧
      redrawTextFrame ⟨8, 16, 0⟩ true last.terminal 0 =
        some ((List.range last.rows).map (displayRow ⟨8, 16, 0⟩ true
          (reaction.2.foldl Display.call (Display.new 24 80)) reaction.1.pos)) := by
  refine session_drawn 24 80 usualSize_common ⟨8, 16, 0⟩ true _ fun start started => ?_
  obtain ⟨tabstops, -, -, same⟩ := vtermStateStart_eq 24 80
  rw [started] at same
  obtain rfl := Option.some.inj same
  exact ⟨⟨⟨by decide, by decide⟩, regionHolds_reset (by decide)⟩,
    fun _ _ => ⟨trivial, fun _ _ => trivial⟩⟩

end Hackterm
