import Hackterm.Bits.CInt
import Hackterm.Encoding.Decode
import Hackterm.Screen.Cells

/-! # The state of the terminal emulator

Behind the parser, the terminal keeps its cursor, its modes and its pen, and calls the
screen (`Hackterm.StateCall`). A handler answers with the state it leaves and the calls it
makes, in their order (`Hackterm.Reaction`). What is written to the host and the mouse modes
have no part here, as the program reads neither.
-/

namespace Hackterm

open BitFields

/-- `VTermPos`. -/
structure VTermPos where
  row : Int
  col : Int
deriving DecidableEq

/-- The modes in `VTermState`. -/
structure VTermMode where
  keypad : Bool
  cursor : Bool
  autowrap : Bool
  insert : Bool
  newline : Bool
  cursorVisible : Bool
  cursorBlink : Bool
  cursorShape : Fin 4
  altScreen : Bool
  origin : Bool
deriving DecidableEq

/-- `VTERM_PROP_CURSORSHAPE_BLOCK`. -/
def cursorshapeBlock : Fin 4 := 1

/-- `VTERM_PROP_CURSORSHAPE_UNDERLINE`. -/
def cursorshapeUnderline : Fin 4 := 2

/-- `saved` in `VTermState`. -/
structure SavedCursor where
  pos : VTermPos
  pen : ScreenPen
  cursorVisible : Bool
  cursorBlink : Bool
  cursorShape : Fin 4

/-- `VTermState`. `combine_chars` is the array that is allocated, of which
`combine_chars_size` cells are known. The pen has the fields of a `ScreenPen`. -/
structure VTermState where
  rows : Nat
  cols : Nat
  pos : VTermPos
  atPhantom : Bool
  scrollregionStart : Int
  scrollregionEnd : Int
  tabstops : List UInt8
  combineChars : List Nat
  combineWidth : Int
  combinePos : VTermPos
  mode : VTermMode
  encodings : Encodings
  pen : ScreenPen
  defaultFg : VTermColor
  defaultBg : VTermColor
  fgAnsi : Int
  boldIsHighbright : Bool
  saved : SavedCursor

/-- `VTermAttr` with its `VTermValue`. -/
inductive PenAttr where
  | bold (on : Bool)
  | underline (number : Fin 4)
  | italic (on : Bool)
  | blink (on : Bool)
  | reverse (on : Bool)
  | strike (on : Bool)
  | font (number : Fin 16)
  | foreground (color : VTermColor)
  | background (color : VTermColor)
deriving DecidableEq

/-- `VTermProp` with its `VTermValue`, for the properties that a mode sets. -/
inductive TermProp where
  | cursorvisible (on : Bool)
  | cursorblink (on : Bool)
  | altscreen (on : Bool)
  | reverse (on : Bool)
  | cursorshape (number : Fin 4)
deriving DecidableEq

/-- The calls of `VTermStateCallbacks` that the screen acts on. -/
inductive StateCall where
  | putglyph (chars : List Nat) (width : Int) (pos : VTermPos)
  | scrollrect (rect : VTermRect) (downward rightward : Int)
  | erase (rect : VTermRect)
  | setpenattr (attr : PenAttr)
  | settermprop (prop : TermProp)
  | bell
  | resize (rows cols : Nat)
deriving DecidableEq

/-- `setpenattr` of the screen. -/
def PenAttr.apply (attr : PenAttr) (pen : ScreenPen) : ScreenPen :=
  match attr with
  | .bold on => { pen with bold := on }
  | .underline number => { pen with underline := number }
  | .italic on => { pen with italic := on }
  | .blink on => { pen with blink := on }
  | .reverse on => { pen with reverse := on }
  | .strike on => { pen with strike := on }
  | .font number => { pen with font := number }
  | .foreground color => { pen with fg := color }
  | .background color => { pen with bg := color }

/-- What a call makes of the pen of the screen. -/
def StateCall.drawnWith (pen : ScreenPen) : StateCall → ScreenPen
  | .setpenattr attr => attr.apply pen
  | _ => pen

/-- The pen of the screen behind some calls. -/
def penAfter (pen : ScreenPen) (calls : List StateCall) : ScreenPen :=
  calls.foldl StateCall.drawnWith pen

/-- `CSI_ARG`. -/
def csiArg (arg : Int) : Nat := (arg % 2 ^ 31).toNat

/-- `CSI_ARG_HAS_MORE`. The flag is a negative `int`, so all bits from the 31st on count. -/
def csiArgHasMore (arg : Int) : Bool := arg < 0 ∨ 2 ^ 31 ≤ arg

/-- `CSI_ARG_IS_MISSING`. -/
def csiArgIsMissing (arg : Int) : Bool := csiArg arg = 2 ^ 31 - 1

/-- `CSI_ARG_OR`. -/
def csiArgOr (arg default : Int) : Int := if csiArgIsMissing arg then default else csiArg arg

/-- `CSI_ARG_COUNT`. -/
def csiArgCount (arg : Int) : Int :=
  if csiArgIsMissing arg ∨ csiArg arg = 0 then 1 else csiArg arg

/-- The state a handler leaves and its calls. -/
abbrev Reaction := VTermState × List StateCall

/-- One part of a handler behind another. -/
def Reaction.andThen (first : Reaction) (second : VTermState → Reaction) : Reaction :=
  ((second first.1).1, first.2 ++ (second first.1).2)

namespace VTermState

/-- `SCROLLREGION_END`. -/
def scrollregionBottom (state : VTermState) : Int :=
  if -1 < state.scrollregionEnd then state.scrollregionEnd else state.rows

/-- The scroll region over the full width. -/
def scrollregion (state : VTermState) : VTermRect :=
  ⟨state.scrollregionStart, state.scrollregionBottom, 0, state.cols⟩

/-- The row of the cursor from its column on. -/
def rowFromCursor (state : VTermState) : VTermRect :=
  ⟨state.pos.row, state.pos.row + 1, state.pos.col, state.cols⟩

/-- The whole screen. -/
def fullRect (state : VTermState) : VTermRect := ⟨0, state.rows, 0, state.cols⟩

/-- `pos.row = row`. -/
def setRow (row : Int) (state : VTermState) : VTermState :=
  { state with pos := { state.pos with row := row } }

/-- `pos.col = col`. -/
def setCol (col : Int) (state : VTermState) : VTermState :=
  { state with pos := { state.pos with col := col } }

/-- `updatecursor`. A cursor that has not moved keeps its phantom column. -/
def updatecursor (oldpos : VTermPos) (cancelPhantom : Bool) (state : VTermState) : VTermState :=
  if state.pos.col = oldpos.col ∧ state.pos.row = oldpos.row then state
  else if cancelPhantom then { state with atPhantom := false }
  else state

end VTermState

/-- `scroll`. The screen answers every call, so nothing else is done. -/
def scroll (rect : VTermRect) (downward rightward : Int) : List StateCall :=
  if downward = 0 ∧ rightward = 0 then [] else [.scrollrect rect downward rightward]

/-- `linefeed`. -/
def linefeed (state : VTermState) : Reaction :=
  if state.pos.row = state.scrollregionBottom - 1 then (state, scroll state.scrollregion 1 0)
  else if state.pos.row < state.rows - 1 then (state.setRow (state.pos.row + 1), [])
  else (state, [])

section Projections

variable (state : VTermState)

@[simp] theorem setRow_row (row : Int) : (state.setRow row).pos.row = row := rfl

@[simp] theorem setRow_col (row : Int) : (state.setRow row).pos.col = state.pos.col := rfl

@[simp] theorem setCol_row (col : Int) : (state.setCol col).pos.row = state.pos.row := rfl

@[simp] theorem setCol_col (col : Int) : (state.setCol col).pos.col = col := rfl

end Projections

end Hackterm
