import Hackterm.Inline.Receive

/-! # The window, the grid and the remote terminal

The size of the terminal is kept in four places: the display, the character cell,
the grid of `libvterm` and what the host was told. Window events change the display
and recompute the others (`Hackterm.processResize`); the text stream changes the cell
(`Hackterm.inlineDataReceive`).
-/

namespace Hackterm

/-- The window events the code looks at. -/
inductive WindowEventId where
  | resized
  | restored
  | rotate
  | other
deriving DecidableEq

/-- An SDL event. `data1` and `data2` are what the code reads as the data of a window
event, whatever the type is. `windowSize` and `keyboardShown` are what
`SDL_GetWindowSize` and `SDL_IsScreenKeyboardShown` answer while it is handled. -/
structure SdlEvent where
  isWindowEvent : Bool
  event : WindowEventId
  data1 : Int
  data2 : Int
  windowSize : Int × Int
  keyboardShown : Bool

/-- The state of the display. `vt` is the size held by the terminal, as rows and
columns, once there is one; `resized` is the size last passed to `c_resize`, as
columns and rows. The character cell is part of the state of the text stream. -/
structure Geometry where
  displayWidth : Int
  displayHeight : Int
  displayWidthLastKb : Int
  displayHeightLastKb : Int
  displayWidthAbs : Int
  displayHeightAbs : Int
  forcedRecreaterenderer : Int
  cols : Int
  rows : Int
  vt : Option (Int × Int)
  resized : Option (Int × Int)
  inlineData : InlineData

namespace Geometry

/-- The character cell. -/
def nunifont (st : Geometry) : Nunifont := st.inlineData.nunifont

/-- `display_width` and `display_height`. -/
def setDisplay (width height : Int) (st : Geometry) : Geometry :=
  { st with displayWidth := width, displayHeight := height }

/-- `display_width_abs` and `display_height_abs`. -/
def setDisplayAbs (size : Int × Int) (st : Geometry) : Geometry :=
  { st with displayWidthAbs := size.1, displayHeightAbs := size.2 }

/-- `display_width_last_kb` and `display_height_last_kb`. -/
def setDisplayLastKb (width height : Int) (st : Geometry) : Geometry :=
  { st with displayWidthLastKb := width, displayHeightLastKb := height }

/-- `rows` and `cols` as they are computed from the display and the character cell. -/
def computeGrid (st : Geometry) : Geometry :=
  { st with
    rows := st.displayHeight.tdiv st.nunifont.height
    cols := st.displayWidth.tdiv st.nunifont.width }

end Geometry

/-- `vterm_set_size`. The terminal tells `screen_resize` its new size. -/
def vtermSetSize (rows cols : Int) (st : Geometry) : Geometry :=
  { st with vt := some (rows, cols), rows := rows, cols := cols }

/-- `terminal_resize`. `main` has set `c_resize` before it is called. -/
def terminalResize (st : Geometry) : Geometry :=
  let st := st.computeGrid
  let st := { st with resized := some (st.cols, st.rows) }
  if st.vt.isSome then vtermSetSize st.rows st.cols st else st

/-- The branch of `process_resize` that gets a new size for the window. -/
def recreateRenderer (event : SdlEvent) (st : Geometry) : Geometry :=
  let st := { st with forcedRecreaterenderer := 0 }
  let st := (st.setDisplayAbs event.windowSize).setDisplay event.data1 event.data2
  let st :=
    if event.keyboardShown then st.setDisplay st.displayWidthLastKb st.displayHeightLastKb else st
  terminalResize st

/-- The branch of `process_resize` for a rotated display. -/
def rotateDisplay (event : SdlEvent) (st : Geometry) : Geometry :=
  let st := st.setDisplay event.data1 event.data2
  let st := if event.keyboardShown then st.setDisplayLastKb event.data1 event.data2 else st
  terminalResize st

/-- `process_resize`. -/
def processResize (event : SdlEvent) (st : Geometry) : Geometry :=
  let st :=
    if 1 < st.forcedRecreaterenderer then
      { st with forcedRecreaterenderer := st.forcedRecreaterenderer - 1 }
    else st
  let st :=
    if st.forcedRecreaterenderer = 1 ∨
        event.isWindowEvent ∧ (event.event = .resized ∨ event.event = .restored) then
      recreateRenderer event st
    else st
  if event.isWindowEvent ∧ event.event = .rotate then rotateDisplay event st else st

/-- `vterm_initialisation`. -/
def vtermInitialisation (st : Geometry) : Geometry :=
  let st := st.computeGrid
  { st with vt := some (st.rows, st.cols) }

/-- The state when `main` enters its loop, in a window of the given size: the cell
size is chosen, the terminal created and, in `console_read_init`, resized. -/
def mainStart (inlineData : InlineData) (windowSize : Int × Int) : Geometry :=
  let size := if 2000 < windowSize.2 ∨ 2000 < windowSize.1 then 32 else 16
  let st : Geometry :=
    { displayWidth := windowSize.1, displayHeight := windowSize.2
      displayWidthLastKb := 0, displayHeightLastKb := 0
      displayWidthAbs := windowSize.1, displayHeightAbs := windowSize.2
      forcedRecreaterenderer := 0, cols := 0, rows := 0, vt := none, resized := none
      inlineData := { inlineData with nunifont := nunifontSize size inlineData.nunifont } }
  terminalResize (vtermInitialisation st)

/-- What changes the geometry: a window event or a chunk of text from the host. -/
inductive GeometryEvent where
  | window (event : SdlEvent)
  | text (data : List UInt8)

/-- The state after an event. -/
def geometryStep (png : Libpng) (st : Geometry) : GeometryEvent → Option Geometry
  | .window event => some (processResize event st)
  | .text data =>
      (inlineDataReceive png st.inlineData data).map fun call => { st with inlineData := call.1 }

end Hackterm
