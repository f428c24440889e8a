import Hackterm.Plane.Cells
import Hackterm.Screen.Callbacks

/-! # What the terminal shows

The abstract terminal has a plane of looks for each buffer, on which every call acts at once
(`Hackterm.Display.call`), and a list of the rows that were scrolled off. Behind the zero of a
cell, and behind the first code point of a gap, there can be old code points; they are no part
of its look (`Hackterm.ScreenCell.look`). The screen, whose rows are moved one by one and whose
cells are changed one by one, is carried along with the abstract terminal by every call
(`Hackterm.ScreenBuffers.callback_display`).
-/

namespace Hackterm

open Planes

/-- What is shown of the code points of a cell. -/
inductive Shown where
  | blank
  | gap
  | glyph (chars : List UInt32)
deriving DecidableEq

/-- The code points of a cell, up to a zero. -/
def shownChars : List UInt32 → Shown
  | [] => .blank
  | first :: rest => if first = gapChar then .gap else .glyph (first :: rest)

/-- What a cell looks like. -/
structure Look where
  shown : Shown
  pen : ScreenPen
deriving DecidableEq

/-- An erased cell. -/
def Look.blank (pen : ScreenPen) : Look := ⟨.blank, pen⟩

/-- A gap keeps the pen. -/
def Look.gap (look : Look) : Look := { look with shown := .gap }

/-- A glyph that is drawn. -/
def Look.drawn (pen : ScreenPen) (glyph : List UInt32) (look : Look) : Look :=
  ⟨shownChars glyph, if glyph = [] then look.pen else pen⟩

/-- The code points of a cell before the zero. -/
def ScreenCell.shownPart (cell : ScreenCell) : List UInt32 := cell.chars.toList.takeWhile (· ≠ 0)

/-- What a cell of the buffer looks like. -/
def ScreenCell.look (cell : ScreenCell) : Look := ⟨shownChars cell.shownPart, cell.pen⟩

/-- What a cell that is reported looks like, and its width. -/
def VTermScreenCell.look (cell : VTermScreenCell) : Look × Nat :=
  (⟨shownChars cell.chars, cell.pen⟩, cell.width)

section Looks

theorem glyphCodes_ne_zero (chars : List Nat) : ∀ code ∈ glyphCodes chars, code ≠ 0 := by
  intro code member
  simpa using List.mem_takeWhile_imp member

theorem toList_eq_cons (chars : Vector UInt32 vtermMaxCharsPerCell) :
    ∃ rest, chars.toList = chars[0] :: rest := by
  have length : chars.toList.length = vtermMaxCharsPerCell := Vector.length_toList
  cases all : chars.toList with
  | nil =>
      rw [all] at length
      cases length
  | cons first rest =>
      refine ⟨rest, ?_⟩
      have inside : 0 < chars.toList.length := by
        rw [length]
        decide
      have here : chars.toList[0] = chars[0] := Vector.getElem_toList inside
      rw [← here]
      simp only [all, List.getElem_cons_zero]

theorem look_erase (pen : ScreenPen) (cell : ScreenCell) :
    (cell.erase pen).look = .blank pen := by
  obtain ⟨rest, begins⟩ := toList_eq_cons (cell.erase pen).chars
  have zero : (cell.erase pen).chars[0] = 0 := Vector.getElem_set_self _
  unfold ScreenCell.look ScreenCell.shownPart
  rw [begins, zero, List.takeWhile_cons_of_neg (by simp)]
  rfl

theorem look_putGap {cell changed : ScreenCell} (done : cell.putGap = some changed) :
    changed.look = cell.look.gap := by
  unfold ScreenCell.putGap at done
  split_ifs at done with ended
  obtain rfl := Option.some.inj done
  have first : (cell.chars.set 0 gapChar vtermMaxCharsPerCell_pos)[0] = gapChar :=
    Vector.getElem_set_self _
  obtain ⟨rest, begins⟩ := toList_eq_cons (cell.chars.set 0 gapChar vtermMaxCharsPerCell_pos)
  unfold ScreenCell.look ScreenCell.shownPart
  dsimp only
  rw [begins, first, List.takeWhile_cons_of_pos (by decide)]
  rfl

/-- The code points that are written are the ones that are shown. -/
theorem shownPart_putChars {pen : ScreenPen} {glyph : List UInt32} {cell changed : ScreenCell}
    (nonzero : ∀ code ∈ glyph, code ≠ 0) (done : cell.putChars pen glyph = some changed) :
    changed.shownPart = glyph ∧ changed.pen = if glyph = [] then cell.pen else pen := by
  unfold ScreenCell.putChars at done
  by_cases room : glyph.length < vtermMaxCharsPerCell
  swap
  · rw [dif_neg room] at done
    cases done
  rw [dif_pos room] at done
  obtain rfl := Option.some.inj done
  refine ⟨?_, rfl⟩
  unfold ScreenCell.shownPart
  dsimp only
  generalize written : (Vector.ofFn fun i : Fin vtermMaxCharsPerCell =>
      if (i : Nat) < glyph.length then glyph.getD i 0
      else if (i : Nat) = glyph.length then 0 else cell.chars[i]) = chars
  have length : chars.toList.length = vtermMaxCharsPerCell := Vector.length_toList
  have places : ∀ i (inside : i < chars.toList.length), chars.toList[i] =
      if i < glyph.length then glyph.getD i 0
      else if i = glyph.length then 0 else cell.chars.get ⟨i, length ▸ inside⟩ := by
    intro i inside
    subst written
    rw [Vector.getElem_toList, Vector.getElem_ofFn]
    rfl
  have front : chars.toList.take glyph.length = glyph := by
    refine List.ext_getElem (by rw [List.length_take, length]; omega) fun i _ inside => ?_
    rw [List.getElem_take, places i (by omega), if_pos inside, List.getD_eq_getElem _ _ inside]
  have behind : glyph.length < chars.toList.length := by omega
  have zero : chars.toList[glyph.length] = 0 := by
    rw [places _ (by omega), if_neg (Nat.lt_irrefl _), if_pos rfl]
  have whole : chars.toList = glyph ++ 0 :: chars.toList.drop (glyph.length + 1) := by
    conv_lhs => rw [← List.take_append_drop glyph.length chars.toList, front,
      List.drop_eq_getElem_cons (by omega), zero]
  rw [whole, List.takeWhile_append_of_pos fun code member => decide_eq_true (nonzero code member),
    List.takeWhile_cons_of_neg (by simp), List.append_nil]

theorem look_putChars {pen : ScreenPen} {glyph : List UInt32} {cell changed : ScreenCell}
    (nonzero : ∀ code ∈ glyph, code ≠ 0) (done : cell.putChars pen glyph = some changed) :
    changed.look = cell.look.drawn pen glyph := by
  obtain ⟨part, drawn⟩ := shownPart_putChars nonzero done
  unfold ScreenCell.look Look.drawn
  rw [part, drawn]

/-- A gap is seen by its first code point. -/
theorem look_gap_iff (cell : ScreenCell) : cell.look.shown = .gap ↔ cell.chars[0] = gapChar := by
  obtain ⟨rest, begins⟩ := toList_eq_cons cell.chars
  unfold ScreenCell.look ScreenCell.shownPart
  rw [begins]
  by_cases zero : cell.chars[0] = 0
  · rw [List.takeWhile_cons_of_neg (by simp [zero]), zero]
    exact ⟨nofun, fun same => absurd same (by decide)⟩
  · rw [List.takeWhile_cons_of_pos (by simp [zero]), shownChars]
    by_cases gap : cell.chars[0] = gapChar
    · rw [if_pos gap]
      exact ⟨fun _ => gap, fun _ => rfl⟩
    · rw [if_neg gap]
      exact ⟨nofun, fun same => absurd same gap⟩

end Looks

variable {rows cols : Nat}

/-- The looks of the cells of a screen. -/
def seen (screen : VTermScreen rows cols) : Plane Look := look ScreenCell.look (getcell screen)

/-- The looks of a glyph that is put, and of the gaps behind it. -/
def glyphSeen (pen : ScreenPen) (chars : List Nat) (width : Int) (pos : VTermPos)
    (plane : Plane Look) : Plane Look :=
  if (plane pos.row pos.col).isSome then
    change (fun row col => row = pos.row ∧ pos.col < col ∧ col < pos.col + width) Look.gap
      (change (fun row col => row = pos.row ∧ col = pos.col) (Look.drawn pen (glyphCodes chars))
        plane)
  else plane

/-- A row as it is reported. -/
def rowSeen (cols : Nat) (reverse : Bool) (plane : Plane Look) (row : Int) : List (Look × Nat) :=
  (List.range cols).filterMap fun col : Nat => (plane row col).map fun look =>
    ({ look with pen := { look.pen with reverse := look.pen.reverse ^^ reverse } },
      if (col : Int) < (cols : Int) - 1 ∧
        ((plane row (col + 1)).any fun next => next.shown = .gap) = true then 2 else 1)

/-- The abstract terminal: what is shown, and the rows that were scrolled off the top. -/
structure Display where
  rows : Nat
  cols : Nat
  primary : Plane Look
  alternate : Plane Look
  onAlternate : Bool
  pen : ScreenPen
  globalReverse : Bool
  history : List (List (Look × Nat))

namespace Display

/-- The buffer in use. -/
def current (display : Display) : Plane Look :=
  if display.onAlternate then display.alternate else display.primary

/-- The buffer in use is replaced. -/
def put (plane : Plane Look) (display : Display) : Display :=
  if display.onAlternate then { display with alternate := plane }
  else { display with primary := plane }

/-- The rows that a scroll takes off the top of the screen. -/
def leaving (rect : VTermRect) (downward rightward : Int) (display : Display) :
    List (List (Look × Nat)) :=
  if rect.endRow - rect.startRow ≤ downward.natAbs ∨
      rect.endCol - rect.startCol ≤ rightward.natAbs then []
  else if rect.startRow = 0 ∧ rect.startCol = 0 ∧ rect.endCol = display.cols then
    (List.range downward.toNat).map fun row : Nat =>
      rowSeen display.cols display.globalReverse display.current row
  else []

/-- What a call makes of the display. -/
def call (display : Display) : StateCall → Display
  | .putglyph chars width pos =>
      display.put (glyphSeen display.pen chars width pos display.current)
  | .scrollrect rect downward rightward =>
      { display.put (shift rect.Contains downward rightward (.blank display.pen) display.current)
        with history := display.history ++ display.leaving rect downward rightward }
  | .erase rect =>
      display.put (change rect.Contains (fun _ => .blank display.pen) display.current)
  | .setpenattr attr => { display with pen := attr.apply display.pen }
  | .settermprop (.altscreen on) => { display with onAlternate := on }
  | .settermprop (.reverse on) => { display with globalReverse := on }
  | .settermprop _ | .bell => display
  | .resize rows cols =>
      { display with
        rows := rows
        cols := cols
        primary := crop rows cols (.blank display.pen) display.primary
        alternate := crop rows cols (.blank display.pen) display.alternate }

/-- The display at the start. -/
def new (rows cols : Nat) : Display where
  rows := rows
  cols := cols
  primary := ofRows rows cols (.blank (vtermStateNew rows cols).pen) []
  alternate := ofRows rows cols (.blank (vtermStateNew rows cols).pen) []
  onAlternate := false
  pen := (vtermStateNew rows cols).pen
  globalReverse := false
  history := []

end Display

/-- What the screen displays, with the rows that were scrolled off. -/
def ScreenBuffers.display (history : List (List (Look × Nat))) (screen : ScreenBuffers rows cols) :
    Display where
  rows := rows
  cols := cols
  primary := seen ⟨screen.primary, screen.pen, screen.globalReverse⟩
  alternate := seen ⟨screen.alternate, screen.pen, screen.globalReverse⟩
  onAlternate := screen.onAlternate
  pen := screen.pen
  globalReverse := screen.globalReverse
  history := history

/-- What a line of the scrollback looks like. -/
def lineLook (line : Line) : List (Look × Nat) := line.map VTermScreenCell.look

namespace ScreenBuffers

variable {screen : ScreenBuffers rows cols} {history : List (List (Look × Nat))}

theorem display_current : (screen.display history).current = seen screen.current := by
  unfold Display.current display current
  dsimp only
  split_ifs <;> rfl

theorem display_put (drawn : VTermScreen rows cols) :
    (screen.put drawn).display history = (screen.display history).put (seen drawn) := by
  unfold ScreenBuffers.put Display.put display
  dsimp only
  split_ifs <;> rfl

end ScreenBuffers

section Simulation

variable {screen drawn : VTermScreen rows cols}

theorem seen_eraseInternal (rect : VTermRect) :
    seen (eraseInternal rect screen) =
      change rect.Contains (fun _ => .blank screen.pen) (seen screen) := by
  funext row col
  unfold seen look change
  rw [getcell_eraseInternal]
  split_ifs
  · rw [Option.map_map, Option.map_map]
    exact congrArg (Option.map · _) (funext (look_erase screen.pen))
  · rfl

theorem seen_shifted {rect : VTermRect} {downward rightward : Int}
    (cells : ∀ row col, getcell drawn row col =
      shiftedCell screen rect downward rightward row col) :
    seen drawn = shift rect.Contains downward rightward (.blank screen.pen) (seen screen) := by
  funext row col
  unfold seen look shift
  rw [cells, shiftedCell]
  split_ifs
  · rfl
  · rw [Option.map_map, Option.map_map]
    exact congrArg (Option.map · _) (funext (look_erase screen.pen))
  · rfl

/-- Cells that are changed where they are, as they are seen. -/
theorem map_look_bind {found : Option ScreenCell} {make : ScreenCell → Option ScreenCell}
    {f : Look → Look} (made : ∀ cell, found = some cell →
      ∃ changed, make cell = some changed ∧ changed.look = f cell.look) :
    (found.bind make).map ScreenCell.look = (found.map ScreenCell.look).map f := by
  cases found with
  | none => rfl
  | some cell =>
      obtain ⟨changed, done, looks⟩ := made cell rfl
      rw [Option.bind_some, done, Option.map_some, looks, Option.map_some, Option.map_some]

theorem seen_putglyph (drawable : Drawable screen) (chars : List Nat) (width : Int)
    (pos : VTermPos) (room : (glyphCodes chars).length < vtermMaxCharsPerCell) :
    ∃ drawn, putglyph chars width pos screen = some drawn ∧ Drawable drawn ∧
      seen drawn = glyphSeen screen.pen chars width pos (seen screen) := by
  obtain ⟨drawn, done, kept, -, -, cells⟩ :=
    getcell_putglyph drawable chars width pos room
  refine ⟨drawn, done, kept, funext fun row => funext fun col => ?_⟩
  have there : (seen screen pos.row pos.col).isSome = (getcell screen pos.row pos.col).isSome :=
    Option.isSome_map
  unfold glyphSeen
  rw [there]
  unfold seen look
  rw [cells]
  cases inside : (getcell screen pos.row pos.col).isSome with
  | false =>
      rw [if_neg (by simp), if_neg (by simp), if_neg Bool.false_ne_true]
  | true =>
      rw [if_pos rfl]
      unfold change
      by_cases here : row = pos.row ∧ col = pos.col
      · rw [if_pos ⟨rfl, here⟩, if_neg (by omega), if_pos here]
        refine map_look_bind fun cell _ => ?_
        obtain ⟨changed, made⟩ := putChars_isSome screen.pen cell room
        exact ⟨changed, made, look_putChars (glyphCodes_ne_zero chars) made⟩
      · rw [if_neg fun both => here both.2]
        by_cases behind : row = pos.row ∧ pos.col < col ∧ col < pos.col + width
        · rw [if_pos ⟨rfl, behind⟩, if_pos behind, if_neg here]
          refine map_look_bind fun cell found => ?_
          obtain ⟨changed, made, -⟩ := putGap_isSome (drawable row col cell found)
          exact ⟨changed, made, look_putGap made⟩
        · rw [if_neg fun both => behind both.2, if_neg behind, if_neg here]

/-- A cell as it is reported. -/
theorem look_vtermScreenGetCell (row col : Int) :
    (vtermScreenGetCell screen row col).map VTermScreenCell.look =
      (seen screen row col).map fun look =>
        ({ look with pen :=
            { look.pen with reverse := look.pen.reverse ^^ screen.globalReverse } },
          if col < (cols : Int) - 1 ∧
            ((seen screen row (col + 1)).any fun next => next.shown = .gap) = true then 2
          else 1) := by
  have gaps : (seen screen row (col + 1)).any (fun next => next.shown = .gap) =
      (getcell screen row (col + 1)).any fun next => next.chars[0] = gapChar := by
    unfold seen look
    rw [Option.any_map]
    exact congrArg (Option.any · _) (funext fun cell => decide_eq_decide.mpr (look_gap_iff cell))
  rw [gaps]
  unfold vtermScreenGetCell seen look
  cases getcell screen row col <;> rfl

/-- A row as it is reported. -/
theorem lineLook_reportedRow {row : Int} {line : Line}
    (reported : reportedRow screen row = some line) :
    lineLook line = rowSeen cols screen.globalReverse (seen screen) row := by
  have cells := (mapM_eq_some_iff _ _ _).mp reported
  have all : rowSeen cols screen.globalReverse (seen screen) row =
      ((List.range cols).map fun n : Nat => vtermScreenGetCell screen row n).filterMap
        (Option.map VTermScreenCell.look) := by
    unfold rowSeen
    rw [List.filterMap_map]
    exact congrArg (List.filterMap · _) (funext fun col => (look_vtermScreenGetCell row col).symm)
  rw [all, cells, List.filterMap_map]
  exact (congrFun List.filterMap_eq_map line).symm

/-- Of the scrolls inside the screen, only those upward from the top over the full width take
rows off. -/
theorem scrollTold_leaves (narrow : cols ≤ 1000) (rect : VTermRect) (downward rightward : Int)
    (inRows : 0 ≤ rect.startRow ∧ rect.endRow ≤ rows)
    (inCols : 0 ≤ rect.startCol ∧ rect.endCol ≤ cols) (straight : downward = 0 ∨ rightward = 0)
    (lines : List Line) :
    ∃ top, scrollTold screenPrescroll rect downward rightward screen
        (scrollBufferPushAll none lines) = some (scrollBufferPushAll none (lines ++ top)) ∧
      top.map lineLook =
        if rect.endRow - rect.startRow ≤ downward.natAbs ∨
            rect.endCol - rect.startCol ≤ rightward.natAbs then []
        else if rect.startRow = 0 ∧ rect.startCol = 0 ∧ rect.endCol = cols then
          (List.range downward.toNat).map fun row : Nat =>
            rowSeen cols screen.globalReverse (seen screen) row
        else [] := by
  have quiet : ∀ user : Option ScrollBuffer, ∀ other : VTermRect,
      other.startRow ≠ 0 ∨ other.startCol ≠ 0 ∨ other.endCol ≠ cols →
        screenPrescroll screen other user = some user :=
    fun user other outside => screenPrescroll_ignores screen user other outside
  unfold scrollTold
  by_cases whole : rect.endRow - rect.startRow ≤ downward.natAbs ∨
      rect.endCol - rect.startCol ≤ rightward.natAbs
  · rw [if_pos whole, if_pos whole]
    exact ⟨[], by rw [List.append_nil], rfl⟩
  rw [if_neg whole, if_neg whole]
  -- the callback for columns is never one for the top of the screen
  have columns : ∀ user, prescrollCols screenPrescroll (scrollDest rect downward rightward)
      (scrollSrc rect downward rightward) screen user = some user := by
    intro user
    unfold prescrollCols scrollDest scrollSrc
    dsimp only
    split_ifs
    all_goals first | rfl | exact quiet user _ (by dsimp only; omega)
  by_cases top : 0 < downward ∧ rect.startRow = 0 ∧ rect.startCol = 0 ∧ rect.endCol = cols
  · obtain ⟨up, first, left, right⟩ := top
    have still : rightward = 0 := straight.resolve_left up.ne'
    obtain ⟨told, reported, -, pushed⟩ := screenPrescroll_top screen narrow downward.toNat
      (by omega) (scrollBufferPushAll none lines)
    have rows_told : prescrollRows screenPrescroll (scrollDest rect downward rightward)
        (scrollSrc rect downward rightward) screen (scrollBufferPushAll none lines) =
          some (scrollBufferPushAll none (lines ++ told)) := by
      rw [scrollBufferPushAll_append, ← pushed]
      unfold prescrollRows scrollDest scrollSrc
      dsimp only
      rw [if_pos (by rw [if_pos up.le, if_pos up.le]; omega), if_pos up.le, if_pos up.le,
        if_pos still.ge, if_pos still.ge, first, left, right, still]
      congr 2
      omega
    rw [rows_told, Option.bind_some, columns, if_pos ⟨first, left, right⟩]
    refine ⟨told, rfl, ?_⟩
    have each := (mapM_eq_some_iff _ _ _).mp reported
    refine List.ext_getElem ?_ fun i inTold inRange => ?_
    · have same := congrArg List.length each
      rw [List.length_map, List.length_map, List.length_range] at same
      rw [List.length_map, List.length_map, List.length_range, same]
    · rw [List.length_map] at inTold
      rw [List.length_map, List.length_range] at inRange
      rw [List.getElem_map, List.getElem_map, List.getElem_range]
      apply lineLook_reportedRow
      have here := congrArg (·[i]?) each
      rwa [List.getElem?_map, List.getElem?_map, List.getElem?_range inRange,
        List.getElem?_eq_getElem inTold, Option.map_some, Option.map_some,
        Option.some.injEq] at here
  · have rows_quiet : prescrollRows screenPrescroll (scrollDest rect downward rightward)
        (scrollSrc rect downward rightward) screen (scrollBufferPushAll none lines) =
          some (scrollBufferPushAll none lines) := by
      unfold prescrollRows scrollDest scrollSrc
      dsimp only
      split_ifs
      all_goals first | rfl | exact quiet _ _ (by dsimp only; omega)
    rw [rows_quiet, Option.bind_some, columns]
    refine ⟨[], by rw [List.append_nil], ?_⟩
    split_ifs with full
    · have down : downward ≤ 0 := Int.not_lt.mp fun up => top ⟨up, full⟩
      rw [Int.toNat_of_nonpos down]
      rfl
    · rfl

end Simulation

namespace ScreenBuffers

variable {screen : ScreenBuffers rows cols}

/-- **Every call carries the screen along with the display.** -/
theorem callback_display (narrow : cols ≤ 1000) (ended : screen.Ended) (lines : List Line)
    {call : StateCall} (inside : call.Inside rows cols) :
    ∃ after more, callback (screen, scrollBufferPushAll none lines) call =
        some (after, scrollBufferPushAll none (lines ++ more)) ∧ after.Ended ∧
      after.display ((lines ++ more).map lineLook) =
        (screen.display (lines.map lineLook)).call call := by
  have silent : lines ++ [] = lines := List.append_nil lines
  cases call with
  | putglyph chars width pos =>
      obtain ⟨drawn, done, drawable, looks⟩ :=
        seen_putglyph ended.drawable chars width pos inside
      refine ⟨screen.put drawn, [], by rw [callback, done, silent]; rfl, ended.put drawable, ?_⟩
      rw [silent, display_put, looks, Display.call, display_current]
      rfl
  | scrollrect rect downward rightward =>
      obtain ⟨⟨inRows, inCols⟩, straight, moves⟩ := inside
      obtain ⟨scrolled, done, -, cells⟩ := vtermScrollRect_eq screenPrescroll screen.current rect
        downward rightward inRows inCols straight moves
      obtain ⟨top, told, leaves⟩ :=
        @scrollTold_leaves _ _ screen.current narrow rect downward rightward inRows inCols straight
          lines
      refine ⟨screen.put scrolled, top, ?_, ended.put (drawable_shifted ended.drawable cells), ?_⟩
      · rw [callback, done, told]
        rfl
      · rw [Display.call, Display.leaving, display_current, List.map_append, leaves, display_put,
          seen_shifted cells]
        unfold Display.put display
        dsimp only
        split_ifs <;> rfl
  | erase rect =>
      refine ⟨screen.put (eraseInternal rect screen.current), [], by rw [silent]; rfl,
        ended.put (drawable_eraseInternal ended.drawable rect), ?_⟩
      rw [silent, display_put, seen_eraseInternal, Display.call, display_current]
      rfl
  | setpenattr attr =>
      exact ⟨{ screen with pen := attr.apply screen.pen }, [], by rw [silent]; rfl,
        ⟨ended.primary, ended.alternate⟩, by rw [silent]; rfl⟩
  | settermprop prop =>
      cases prop with
      | altscreen on =>
          exact ⟨{ screen with onAlternate := on }, [], by rw [silent]; rfl,
            ⟨ended.primary, ended.alternate⟩, by rw [silent]; rfl⟩
      | reverse on =>
          exact ⟨{ screen with globalReverse := on }, [], by rw [silent]; rfl,
            ⟨ended.primary, ended.alternate⟩, by rw [silent]; rfl⟩
      | cursorvisible on | cursorblink on | cursorshape number =>
          exact ⟨_, [], by rw [silent]; rfl, ended, by rw [silent]; rfl⟩
  | bell => exact ⟨_, [], by rw [silent]; rfl, ended, by rw [silent]; rfl⟩
  | resize rows cols => exact absurd inside id

/-- All calls of a handler carry the screen along with the display. -/
theorem callbacks_display (narrow : cols ≤ 1000) (ended : screen.Ended) (lines : List Line)
    {calls : List StateCall} (inside : ∀ call ∈ calls, call.Inside rows cols) :
    ∃ after more, calls.foldlM callback (screen, scrollBufferPushAll none lines) =
        some (after, scrollBufferPushAll none (lines ++ more)) ∧ after.Ended ∧
      after.display ((lines ++ more).map lineLook) =
        calls.foldl Display.call (screen.display (lines.map lineLook)) := by
  induction calls generalizing screen lines with
  | nil => exact ⟨screen, [], by rw [List.append_nil]; rfl, ended, by rw [List.append_nil]; rfl⟩
  | cons call calls ih =>
      obtain ⟨first, others⟩ := List.forall_mem_cons.mp inside
      obtain ⟨next, more, done, held, displays⟩ := callback_display narrow ended lines first
      obtain ⟨after, later, rest, kept, shows⟩ := ih held (lines ++ more) others
      rw [List.append_assoc] at rest shows
      refine ⟨after, more ++ later, ?_, kept, ?_⟩
      · rw [List.foldlM_cons, done]
        exact rest
      · rw [shows, displays, List.foldl_cons]

end ScreenBuffers

end Hackterm
