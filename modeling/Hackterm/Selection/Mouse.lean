import Hackterm.Selection.Pointer
import Hackterm.Selection.Region

/-! # The mouse

A drag copies the text of its region when the button is released. A short click, the second
one at the same cell, copies a word: it looks for a space in the text that was extracted
from the row of the cell, to the left and to the right of the index that is the column of
the cell (`Hackterm.selectWord`).
-/

namespace Hackterm

variable {rows cols : Nat}

/-- What the mouse points at: the screen, the scrollback, the size of the cells, and what lies
in memory around the cells of a row and around a text that was extracted. -/
structure TextView (rows cols : Nat) where
  screen : VTermScreen rows cols
  buffer : Option ScrollBuffer
  font : Nunifont
  behind : Int → Int → UInt32
  stale : Int → UInt16

/-- `get_text_region` of what is viewed. -/
def TextView.getTextRegion (view : TextView rows cols) (box : SelectBox) : Option TextRegion :=
  Hackterm.getTextRegion view.screen view.buffer view.behind box.startX box.startY box.endX box.endY

/-- The variables of the selection. -/
structure Mouse where
  drawSelection : Bool
  selectStartX : Int
  selectStartY : Int
  selectStartScrollOffset : Int
  selectEndX : Int
  selectEndY : Int
  selectEndScrollOffset : Int
  selectText : SelectBox
  lastTextPoint : Int × Int
  drawFadeSelection : Int
  scrollOffset : Int
deriving DecidableEq

/-- The events the code looks at, with the fields it reads. -/
inductive MouseEvent where
  | wheel (y : Int)
  | motion (x y : Int)
  | up
  | down (x y : Int)
deriving DecidableEq

/-- `mouse_to_select_box` of the two ends. -/
def Mouse.selectBox (font : Nunifont) (mouse : Mouse) : SelectBox :=
  mouseToSelectBox font mouse.selectStartX mouse.selectStartY mouse.selectStartScrollOffset
    mouse.selectEndX mouse.selectEndY mouse.selectEndScrollOffset

/-- `text[n]` of a text that was extracted: its units, eight zeros, and what lies around
them in memory. -/
def textUnit (stale : Int → UInt16) (text : List UInt16) (n : Int) : UInt16 :=
  if 0 ≤ n ∧ n < text.length + 8 then text.getD n.toNat 0 else stale n

/-- The units that end a word. -/
def isBreak (unit : UInt16) : Bool := unit = 0x20 || unit = 0x0A

/-- The search to the left from the index `n` on: `word_start_x`. -/
def leftBound (unit : Int → UInt16) : Nat → Int
  | 0 => if isBreak (unit 0) then 1 else -1
  | n + 1 => if isBreak (unit ((n + 1 : Nat) : Int)) then n + 2 else leftBound unit n

/-- The search to the right from the index `n` on, for so many turns: `word_end_x`. -/
def rightBound (unit : Int → UInt16) : Nat → Int → Int
  | 0, _ => -1
  | turns + 1, n => if isBreak (unit n) then n - 1 else rightBound unit turns (n + 1)

/-- The indices the search to the left looks at. -/
def leftReads (unit : Int → UInt16) : Nat → List Int
  | 0 => [0]
  | n + 1 =>
      ((n + 1 : Nat) : Int) ::
        if isBreak (unit ((n + 1 : Nat) : Int)) then [] else leftReads unit n

/-- The indices the search to the right looks at. -/
def rightReads (unit : Int → UInt16) : Nat → Int → List Int
  | 0, _ => []
  | turns + 1, n => n :: if isBreak (unit n) then [] else rightReads unit turns (n + 1)

/-- What a short click selects in the text of its row: the bounds, the units that are copied
between them, if `copy_text` is called, and the indices of the text that are used. -/
structure WordSelection where
  startX : Int
  endX : Int
  copied : Option (List UInt16)
  reads : List Int

/-- The selection of a word, from the column of the click on. -/
def selectWord (stale : Int → UInt16) (cols : Nat) (text : List UInt16) (textStartX : Int) :
    WordSelection :=
  let unit := textUnit stale text
  let turns := (min (cols : Int) text.length - textStartX).toNat
  let wordStartX := if textStartX < 0 then -1 else leftBound unit textStartX.toNat
  let wordEndX := rightBound unit turns textStartX
  let wordEndX := if wordEndX = -1 then (text.length : Int) - 1 else wordEndX
  let indices := Int.range wordStartX (wordEndX + 1)
  { startX := wordStartX
    endX := wordEndX
    copied := if text.length ≠ 0 then some (indices.map unit) else none
    reads :=
      (if textStartX < 0 then [] else leftReads unit textStartX.toNat) ++
        rightReads unit turns textStartX ++ if text.length ≠ 0 then indices else [] }

/-- The release of a short click. -/
def releaseClick (view : TextView rows cols) (mouse : Mouse) :
    Option (Mouse × Option (List UInt16)) := do
  let mouse := { mouse with selectEndScrollOffset := mouse.scrollOffset }
  let box := mouse.selectBox view.font
  if mouse.lastTextPoint = (box.startX, box.startY) then
    let region ← view.getTextRegion ⟨0, box.startY, cols, box.startY⟩
    let word := selectWord view.stale cols region.text box.startX
    pure ({ mouse with
      selectText := ⟨word.startX, box.startY, word.endX + 1, box.startY⟩
      drawFadeSelection := 50
      lastTextPoint := (box.startX, box.startY) }, word.copied)
  else
    pure ({ mouse with
      drawSelection := false
      drawFadeSelection := 0
      lastTextPoint := (box.startX, box.startY) }, none)

/-- The corners of a selection, columns and rows each in order. -/
def SelectBox.ordered (box : SelectBox) : SelectBox :=
  let (startX, endX) := if box.endX < box.startX then (box.endX, box.startX) else (box.startX, box.endX)
  let (startY, endY) := if box.endY < box.startY then (box.endY, box.startY) else (box.startY, box.endY)
  ⟨startX, startY, endX, endY⟩

/-- The release of a drag. -/
def releaseDrag (view : TextView rows cols) (mouse : Mouse) :
    Option (Mouse × Option (List UInt16)) := do
  let mouse := { mouse with selectEndScrollOffset := mouse.scrollOffset }
  let box := mouse.selectBox view.font
  let mouse := { mouse with selectText := box }
  let region ← view.getTextRegion box.ordered
  pure ({ mouse with drawFadeSelection := 50 },
    if region.text.length ≠ 0 then some region.text else none)

/-- The selection that is made of the two ends when the button is released. -/
def Mouse.released (font : Nunifont) (mouse : Mouse) : SelectBox :=
  { mouse with selectEndScrollOffset := mouse.scrollOffset }.selectBox font

/-- The two ends are less than 15 pixels apart. -/
def Mouse.isClick (mouse : Mouse) : Bool :=
  (mouse.selectStartX - mouse.selectEndX).natAbs < 15 &&
    (mouse.selectStartY - mouse.selectEndY).natAbs < 15

/-- `process_mouse_event`, with the units that are passed to `copy_text`, if it is called. -/
def processMouseEvent (view : TextView rows cols) (mouse : Mouse) :
    MouseEvent → Option (Mouse × Option (List UInt16))
  | .wheel y =>
      let scrollOffset := if y > 0 then mouse.scrollOffset + 1 else max 0 (mouse.scrollOffset - 1)
      some ({ mouse with scrollOffset := scrollOffset }, none)
  | .motion x y =>
      if mouse.drawSelection then
        let mouse := { mouse with selectEndScrollOffset := mouse.scrollOffset }
        let mouse := { mouse with selectText := mouse.selectBox view.font }
        some ({ mouse with selectEndX := x, selectEndY := y }, none)
      else some (mouse, none)
  | .up =>
      let mouse := { mouse with drawSelection := false }
      if mouse.isClick then releaseClick view mouse else releaseDrag view mouse
  | .down x y =>
      some ({ mouse with
        selectStartScrollOffset := mouse.scrollOffset
        selectStartX := x
        selectStartY := y
        selectEndX := x
        selectEndY := y
        selectText := ⟨-1, -1, -1, -1⟩
        drawSelection := true
        drawFadeSelection := 0 }, none)

end Hackterm
