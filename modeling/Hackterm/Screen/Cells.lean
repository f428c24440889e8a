import Mathlib.Data.List.Basic
import Mathlib.Data.List.OfFn

/-! # The screen buffer of the terminal emulator

A cell holds up to six code points, ended by a zero if there is room, and the pen it
was drawn with. The application does not see the cells of the buffer, but what
`vterm_screen_get_cell` reports of them, which also depends on the cell to the right
(`Hackterm.vtermScreenGetCell`).
-/

namespace Hackterm

/-- `VTermColor`. -/
structure VTermColor where
  red : UInt8
  green : UInt8
  blue : UInt8
deriving DecidableEq

/-- `ScreenPen`. -/
structure ScreenPen where
  fg : VTermColor
  bg : VTermColor
  bold : Bool
  underline : Fin 4
  italic : Bool
  blink : Bool
  reverse : Bool
  strike : Bool
  font : Fin 16
deriving DecidableEq

/-- `VTERM_MAX_CHARS_PER_CELL`. -/
abbrev vtermMaxCharsPerCell : Nat := 6

theorem vtermMaxCharsPerCell_pos : 0 < vtermMaxCharsPerCell := by decide

/-- `ScreenCell` with at most five code points, so that a zero ends them. -/
structure ScreenCell where
  chars : Vector UInt32 vtermMaxCharsPerCell
  pen : ScreenPen
  ended : (0 : UInt32) ∈ chars
deriving DecidableEq

/-- `VTermScreenCell`: the code points before the zero, the number of columns, and
the pen, whose attributes are `attrs` and whose colours `fg` and `bg`. -/
structure VTermScreenCell where
  chars : List UInt32
  width : Nat
  pen : ScreenPen
deriving DecidableEq

/-- The pen of a new screen. -/
def defaultPen : ScreenPen :=
  ⟨⟨240, 240, 240⟩, ⟨0, 0, 0⟩, false, ⟨0, Nat.succ_pos 3⟩, false, false, false, false,
    ⟨0, Nat.succ_pos 15⟩⟩

/-- A letter in that pen, as it is reported. -/
def letterCell : VTermScreenCell := ⟨[0x41], 1, defaultPen⟩

/-- `VTermRect`. -/
structure VTermRect where
  startRow : Int
  endRow : Int
  startCol : Int
  endCol : Int
deriving DecidableEq

/-- The fields of `VTermScreen` that the cells depend on. `buffer` is the one of the
primary and the alternate buffer that is in use. -/
structure VTermScreen (rows cols : Nat) where
  buffer : Fin rows → Fin cols → ScreenCell
  pen : ScreenPen
  globalReverse : Bool

variable {rows cols : Nat}

/-- `getcell`. -/
def getcell (screen : VTermScreen rows cols) (row col : Int) : Option ScreenCell :=
  if inside : (0 ≤ row ∧ row < rows) ∧ 0 ≤ col ∧ col < cols then
    some (screen.buffer ⟨row.toNat, by omega⟩ ⟨col.toNat, by omega⟩)
  else none

/-- `vterm_screen_get_cell`; `none` when it returns 0 and leaves the cell as it was. -/
def vtermScreenGetCell (screen : VTermScreen rows cols) (row col : Int) :
    Option VTermScreenCell := do
  let intcell ← getcell screen row col
  let gap := col < (cols : Int) - 1 ∧
    ((getcell screen row (col + 1)).any fun next => next.chars[0] = 0xFFFFFFFF) = true
  pure
    { chars := intcell.chars.toList.takeWhile (· ≠ 0)
      width := if gap then 2 else 1
      pen := { intcell.pen with reverse := intcell.pen.reverse ^^ screen.globalReverse } }

/-- The cells of a row, as `grab_row` and `screen_prescroll` collect them. Where a
cell is not reported, they keep what was in memory. -/
def reportedRow (screen : VTermScreen rows cols) (row : Int) : Option (List VTermScreenCell) :=
  (List.range cols).mapM fun n : Nat => vtermScreenGetCell screen row n

/-- A list collects to the results of its elements, in order. -/
theorem mapM_eq_some_iff {α β : Type*} (f : α → Option β) (list : List α) (results : List β) :
    list.mapM f = some results ↔ list.map f = results.map some := by
  induction list generalizing results with
  | nil => cases results <;> simp
  | cons head list ih =>
      rw [List.mapM_cons, List.map_cons]
      cases first : f head with
      | none => cases results <;> simp
      | some result =>
          cases rest : list.mapM f with
          | none =>
              have none_ := fun others => (ih others).not.mp (by simp [rest])
              cases results with
              | nil => simp
              | cons other results => simpa using fun _ => none_ results
          | some others =>
              have collected := (ih others).mp rest
              cases results with
              | nil => simp
              | cons other results => simp [collected, List.map_inj_right]

/-- Results are collected when every element has one. -/
theorem mapM_of_isSome {α β : Type*} (f : α → Option β) (list : List α)
    (all : ∀ element ∈ list, (f element).isSome) :
    ∃ results, list.mapM f = some results ∧ results.length = list.length := by
  induction list with
  | nil => exact ⟨[], rfl, rfl⟩
  | cons head list ih =>
      obtain ⟨result, first⟩ := Option.isSome_iff_exists.mp (all head List.mem_cons_self)
      obtain ⟨results, rest, length⟩ := ih fun other member => all other
        (List.mem_cons_of_mem _ member)
      refine ⟨result :: results, ?_, by rw [List.length_cons, length, List.length_cons]⟩
      rw [List.mapM_cons, first, rest]
      rfl

theorem getcell_isSome (screen : VTermScreen rows cols) (row col : Int) :
    (getcell screen row col).isSome ↔ (0 ≤ row ∧ row < rows) ∧ 0 ≤ col ∧ col < cols := by
  unfold getcell
  split <;> simp_all

/-- A row of the screen is reported whole. -/
theorem reportedRow_isSome (screen : VTermScreen rows cols) (row : Int) (above : 0 ≤ row)
    (below : row < rows) :
    ∃ line, reportedRow screen row = some line ∧ line.length = cols := by
  have reported : ∀ n ∈ List.range cols, (vtermScreenGetCell screen row n).isSome := by
    intro n member
    have inside : (getcell screen row n).isSome :=
      (getcell_isSome screen row n).mpr ⟨⟨above, below⟩, by omega, by simpa using member⟩
    obtain ⟨intcell, found⟩ := Option.isSome_iff_exists.mp inside
    rw [vtermScreenGetCell, found]
    rfl
  obtain ⟨line, collected, length⟩ := mapM_of_isSome _ _ reported
  exact ⟨line, collected, by rw [length, List.length_range]⟩

/-- A row is reported from its own cells. -/
theorem reportedRow_congr (first second : VTermScreen rows cols) (row other : Int)
    (pen : first.globalReverse = second.globalReverse)
    (same : ∀ col, getcell first row col = getcell second other col) :
    reportedRow first row = reportedRow second other := by
  unfold reportedRow vtermScreenGetCell
  simp only [same, pen]

end Hackterm
