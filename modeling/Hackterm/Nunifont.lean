import Mathlib.Data.List.Basic

/-! # The character cell

The font has one glyph table and two cell sizes. The cell size is global state
that both the window code and the text stream of the host change.
-/

namespace Hackterm

/-- `nunifont_width`, `nunifont_height` and `nunifont_space`. -/
structure Nunifont where
  width : Int
  height : Int
  space : Int
deriving DecidableEq

/-- `nunifont_size`. A size other than 16 and 32 only resets the space. -/
def nunifontSize (size : Int) (font : Nunifont) : Nunifont :=
  let font := if size = 16 then { font with width := 8, height := 16 } else font
  let font := if size = 32 then { font with width := 16, height := 32 } else font
  { font with space := 0 }

end Hackterm
