import Hackterm.Screen.Cells

/-! # Scrolling a rectangle of the screen

A scroll moves the part of a rectangle that stays in it and erases the rest
(`Hackterm.vtermScrollRect`). Before anything moves, `moverect_internal` tells the
application through the `prescroll` callback which cells are about to leave. The
rows are copied in the order in which no row is overwritten before it was copied
(`Hackterm.moveRows_ascending`, `Hackterm.moveRows_descending`).
-/

namespace Hackterm

variable {rows cols : Nat} {σ : Type}

/-- The `prescroll` callback: what it makes of the data of the application when a
rectangle of the screen is about to leave it. -/
abbrev Prescroll (rows cols : Nat) (σ : Type) :=
  VTermScreen rows cols → VTermRect → σ → Option σ

/-- `cell->chars[0] = 0` and `cell->pen = screen->pen`. -/
def ScreenCell.erase (pen : ScreenPen) (cell : ScreenCell) : ScreenCell where
  chars := cell.chars.set 0 0 vtermMaxCharsPerCell_pos
  pen := pen
  ended := by
    rw [Vector.mem_iff_getElem]
    exact ⟨0, vtermMaxCharsPerCell_pos, Vector.getElem_set_self _⟩

/-- The cells a rectangle covers. -/
def VTermRect.Contains (rect : VTermRect) (row col : Int) : Prop :=
  (rect.startRow ≤ row ∧ row < rect.endRow) ∧ rect.startCol ≤ col ∧ col < rect.endCol

instance (rect : VTermRect) (row col : Int) : Decidable (rect.Contains row col) :=
  inferInstanceAs (Decidable (_ ∧ _))

/-- `erase_internal`. Cells outside the screen are skipped. -/
def eraseInternal (rect : VTermRect) (screen : VTermScreen rows cols) :
    VTermScreen rows cols :=
  { screen with buffer := fun row col =>
      if rect.Contains row col then (screen.buffer row col).erase screen.pen
      else screen.buffer row col }

/-- `memmove` of `count` cells inside two rows. Cells outside a row are outside what
is modelled. -/
def copyCells (screen : VTermScreen rows cols) (toRow toCol fromRow fromCol count : Int) :
    Option (VTermScreen rows cols) :=
  if ((0 ≤ toRow ∧ toRow < rows) ∧ 0 ≤ toCol ∧ toCol + count ≤ cols) ∧
      (0 ≤ fromRow ∧ fromRow < rows) ∧ 0 ≤ fromCol ∧ fromCol + count ≤ cols then
    some { screen with buffer := fun row col =>
      if row = toRow ∧ toCol ≤ col ∧ col < toCol + count then
        (getcell screen fromRow (fromCol + (col - toCol))).getD (screen.buffer row col)
      else screen.buffer row col }
  else none

/-- One turn of the loop of `moverect_internal`. -/
def moveRow (dest src : VTermRect) (screen : VTermScreen rows cols) (row : Int) :
    Option (VTermScreen rows cols) :=
  if row < 0 then some screen
  else copyCells screen row dest.startCol (row + (src.startRow - dest.startRow)) src.startCol
    (src.endCol - src.startCol)

/-- The rows of `moverect_internal`, in the order of its loop. -/
def moveOrder (dest src : VTermRect) : List Int :=
  let count := (dest.endRow - dest.startRow).toNat
  if src.startRow - dest.startRow < 0 then
    (List.range count).map fun turn : Nat => dest.endRow - 1 - turn
  else (List.range count).map fun turn : Nat => dest.startRow + turn

/-- The call of `prescroll` for the rows that leave. -/
def prescrollRows (prescroll : Prescroll rows cols σ) (dest src : VTermRect)
    (screen : VTermScreen rows cols) (user : σ) : Option σ :=
  if dest.startRow < src.startRow then
    prescroll screen ⟨dest.startRow, src.startRow, dest.startCol, dest.endCol⟩ user
  else if dest.startRow > src.startRow then
    prescroll screen ⟨src.endRow, dest.endRow, dest.startCol, dest.endCol⟩ user
  else some user

/-- The call of `prescroll` for the columns that leave. -/
def prescrollCols (prescroll : Prescroll rows cols σ) (dest src : VTermRect)
    (screen : VTermScreen rows cols) (user : σ) : Option σ :=
  if dest.startCol < src.startCol then
    prescroll screen ⟨dest.startRow, dest.endRow, dest.startCol, src.startCol⟩ user
  else if dest.startCol > src.startCol then
    prescroll screen ⟨dest.startRow, dest.endRow, src.endCol, dest.endCol⟩ user
  else some user

/-- `moverect_internal`. -/
def moverectInternal (prescroll : Prescroll rows cols σ) (dest src : VTermRect)
    (st : VTermScreen rows cols × σ) : Option (VTermScreen rows cols × σ) := do
  let user ← prescrollRows prescroll dest src st.1 st.2
  let user ← prescrollCols prescroll dest src st.1 user
  let screen ← (moveOrder dest src).foldlM (moveRow dest src) st.1
  pure (screen, user)

/-- Where `vterm_scroll_rect` moves the cells to. -/
def scrollDest (rect : VTermRect) (downward rightward : Int) : VTermRect where
  startRow := if 0 ≤ downward then rect.startRow else rect.startRow - downward
  endRow := if 0 ≤ downward then rect.endRow - downward else rect.endRow
  startCol := if 0 ≤ rightward then rect.startCol else rect.startCol - rightward
  endCol := if 0 ≤ rightward then rect.endCol - rightward else rect.endCol

/-- Where `vterm_scroll_rect` moves the cells from. -/
def scrollSrc (rect : VTermRect) (downward rightward : Int) : VTermRect where
  startRow := if 0 ≤ downward then rect.startRow + downward else rect.startRow
  endRow := if 0 ≤ downward then rect.endRow else rect.endRow + downward
  startCol := if 0 ≤ rightward then rect.startCol + rightward else rect.startCol
  endCol := if 0 ≤ rightward then rect.endCol else rect.endCol + rightward

/-- What `vterm_scroll_rect` erases after the move. -/
def scrollErased (rect : VTermRect) (downward rightward : Int) : VTermRect where
  startRow := if 0 < downward then rect.endRow - downward else rect.startRow
  endRow := if downward < 0 then rect.startRow - downward else rect.endRow
  startCol := if 0 < rightward then rect.endCol - rightward else rect.startCol
  endCol := if rightward < 0 then rect.startCol - rightward else rect.endCol

/-- `vterm_scroll_rect` with the callbacks of the screen layer. A scroll by more than
the area only erases. -/
def vtermScrollRect (prescroll : Prescroll rows cols σ) (rect : VTermRect)
    (downward rightward : Int) (st : VTermScreen rows cols × σ) :
    Option (VTermScreen rows cols × σ) :=
  if rect.endRow - rect.startRow ≤ downward.natAbs ∨
      rect.endCol - rect.startCol ≤ rightward.natAbs then
    some (eraseInternal rect st.1, st.2)
  else do
    let (screen, user) ← moverectInternal prescroll (scrollDest rect downward rightward)
      (scrollSrc rect downward rightward) st
    pure (eraseInternal (scrollErased rect downward rightward) screen, user)

/-- Copying a whole row. -/
theorem copyCells_row (screen : VTermScreen rows cols) (toRow fromRow : Int)
    (target : 0 ≤ toRow ∧ toRow < rows) (source : 0 ≤ fromRow ∧ fromRow < rows) :
    ∃ moved, copyCells screen toRow 0 fromRow 0 cols = some moved ∧ moved.pen = screen.pen ∧
      moved.globalReverse = screen.globalReverse ∧
      ∀ row col : Int, getcell moved row col =
        if row = toRow then getcell screen fromRow col else getcell screen row col := by
  refine ⟨_, if_pos ⟨⟨target, le_rfl, by omega⟩, source, le_rfl, by omega⟩, rfl, rfl, ?_⟩
  intro row col
  by_cases inside : (0 ≤ row ∧ row < rows) ∧ 0 ≤ col ∧ col < cols
  · by_cases here : row = toRow
    · subst here
      have across : (0 ≤ fromRow ∧ fromRow < rows) ∧ 0 ≤ col ∧ col < cols := ⟨source, inside.2⟩
      rw [if_pos rfl]
      conv_lhs => rw [getcell, dif_pos inside]
      dsimp only
      rw [if_pos (by omega)]
      obtain ⟨cell, found⟩ := Option.isSome_iff_exists.mp
        ((getcell_isSome screen fromRow col).mpr across)
      rw [show (0 : Int) + ((col.toNat : Int) - 0) = col by omega, found, Option.getD_some]
    · rw [if_neg here]
      conv_lhs => rw [getcell, dif_pos inside]
      dsimp only
      rw [if_neg (by omega), getcell, dif_pos inside]
  · have outside : getcell screen row col = none := by rw [getcell, dif_neg inside]
    rw [getcell, dif_neg inside, outside]
    split
    · rename_i here
      rw [getcell, dif_neg (by rintro ⟨_, below⟩; exact inside ⟨here ▸ target, below⟩)]
    · rfl

/-- **Rows move up** when they are copied from the top. -/
theorem moveRows_ascending (dest src : VTermRect) (left : dest.startCol = 0)
    (width : src.startCol = 0 ∧ src.endCol = cols) (top : 0 ≤ dest.startRow)
    (upward : dest.startRow < src.startRow) (count : Nat)
    (bottom : src.startRow + count ≤ rows) (screen : VTermScreen rows cols) :
    ∃ moved, ((List.range count).map fun turn : Nat => dest.startRow + turn).foldlM
        (moveRow dest src) screen = some moved ∧ moved.pen = screen.pen ∧
      moved.globalReverse = screen.globalReverse ∧
      ∀ row col : Int, getcell moved row col =
        if dest.startRow ≤ row ∧ row < dest.startRow + count then
          getcell screen (row + (src.startRow - dest.startRow)) col
        else getcell screen row col := by
  induction count with
  | zero =>
      refine ⟨screen, rfl, rfl, rfl, fun row col => ?_⟩
      rw [if_neg (by omega)]
  | succ count ih =>
      obtain ⟨middle, moving, pen, reverse, cells⟩ := ih (by omega)
      obtain ⟨moved, copying, samePen, sameReverse, copied⟩ := copyCells_row middle
        (dest.startRow + count) (dest.startRow + count + (src.startRow - dest.startRow))
        ⟨by omega, by omega⟩ ⟨by omega, by omega⟩
      refine ⟨moved, ?_, samePen.trans pen, sameReverse.trans reverse, fun row col => ?_⟩
      · rw [List.range_succ, List.map_append, List.foldlM_append, moving]
        simp only [bind, Option.bind_some, List.map_cons, List.map_nil, List.foldlM_cons,
          List.foldlM_nil]
        rw [moveRow, if_neg (by omega), left, width.1, width.2, Int.sub_zero, copying]
        rfl
      · rw [copied]
        by_cases last : row = dest.startRow + count
        · -- the source row is below the rows copied so far
          rw [if_pos last, cells, if_neg (by omega), if_pos (by omega), last]
        · rw [if_neg last, cells]
          by_cases before : dest.startRow ≤ row ∧ row < dest.startRow + count
          · rw [if_pos before, if_pos (by omega)]
          · rw [if_neg before, if_neg (by omega)]

/-- Moving rows inside the screen is defined. -/
theorem moveRows_isSome (dest src : VTermRect) (order : List Int)
    (inRows : ∀ row ∈ order, (0 ≤ row ∧ row < rows) ∧
      0 ≤ row + (src.startRow - dest.startRow) ∧ row + (src.startRow - dest.startRow) < rows)
    (inCols : (0 ≤ dest.startCol ∧ dest.startCol + (src.endCol - src.startCol) ≤ cols) ∧
      0 ≤ src.startCol ∧ src.startCol + (src.endCol - src.startCol) ≤ cols)
    (screen : VTermScreen rows cols) :
    ∃ moved, order.foldlM (moveRow dest src) screen = some moved := by
  induction order generalizing screen with
  | nil => exact ⟨screen, rfl⟩
  | cons row order ih =>
      obtain ⟨here, source⟩ := inRows row List.mem_cons_self
      obtain ⟨moved, rest⟩ := ih (fun other member => inRows other (List.mem_cons_of_mem _ member)) _
      refine ⟨moved, ?_⟩
      rw [List.foldlM_cons, moveRow, if_neg (by omega), copyCells,
        if_pos ⟨⟨here, inCols.1⟩, source, inCols.2⟩]
      exact rest

/-- Erasing, cell by cell. -/
theorem getcell_eraseInternal (rect : VTermRect) (screen : VTermScreen rows cols) (row col : Int) :
    getcell (eraseInternal rect screen) row col =
      if rect.Contains row col then (getcell screen row col).map (ScreenCell.erase screen.pen)
      else getcell screen row col := by
  by_cases inside : (0 ≤ row ∧ row < rows) ∧ 0 ≤ col ∧ col < cols
  · have position : ((row.toNat : Int) = row) ∧ (col.toNat : Int) = col := by omega
    rw [getcell, getcell, dif_pos inside, dif_pos inside, eraseInternal]
    dsimp only
    rw [position.1, position.2]
    split <;> rfl
  · rw [getcell, getcell, dif_neg inside, dif_neg inside]
    split <;> rfl

/-- **An upward scroll of the full width.** The callback is told about the rows that
leave; then the others move up, and the last ones are blank. -/
theorem vtermScrollRect_up (prescroll : Prescroll rows cols σ) (screen : VTermScreen rows cols)
    (user told : σ) (height count : Nat) (wide : 0 < cols) (positive : 1 ≤ count)
    (less : count < height) (fits : height ≤ rows)
    (called : prescroll screen ⟨0, count, 0, cols⟩ user = some told) :
    ∃ scrolled, vtermScrollRect prescroll ⟨0, height, 0, cols⟩ count 0 (screen, user) =
        some (scrolled, told) ∧ scrolled.globalReverse = screen.globalReverse ∧
      ∀ row col : Int, getcell scrolled row col =
        if 0 ≤ row ∧ row < height - count then getcell screen (row + count) col
        else if 0 ≤ row ∧ row < height then
          (getcell screen row col).map (ScreenCell.erase screen.pen)
        else getcell screen row col := by
  obtain ⟨moved, moving, pen, reverse, cells⟩ := moveRows_ascending
    ⟨0, height - count, 0, cols⟩ ⟨count, height, 0, cols⟩ rfl ⟨rfl, rfl⟩ le_rfl (by
      show (0 : Int) < count
      omega) (height - count) (by
      show (count : Int) + (height - count : Nat) ≤ rows
      omega) screen
  have dest : scrollDest ⟨0, height, 0, cols⟩ count 0 = ⟨0, height - count, 0, cols⟩ := by
    simp [scrollDest]
  have src : scrollSrc ⟨0, height, 0, cols⟩ count 0 = ⟨count, height, 0, cols⟩ := by
    simp [scrollSrc]
  have erased : scrollErased ⟨0, height, 0, cols⟩ count 0 = ⟨height - count, height, 0, cols⟩ := by
    simp [scrollErased, show 0 < count by omega]
  refine ⟨eraseInternal ⟨height - count, height, 0, cols⟩ moved, ?_, reverse, ?_⟩
  · have order : moveOrder ⟨0, (height : Int) - count, 0, cols⟩ ⟨count, height, 0, cols⟩ =
        (List.range (height - count)).map fun turn : Nat => (0 : Int) + turn := by
      rw [moveOrder, if_neg (by dsimp only; omega)]
      dsimp only
      rw [show ((height : Int) - count - 0).toNat = height - count by omega]
    dsimp only at moving
    unfold vtermScrollRect
    rw [if_neg (by dsimp only; omega), dest, src, erased]
    unfold moverectInternal prescrollRows prescrollCols
    dsimp only
    rw [if_pos (by omega), called]
    simp only [bind, Option.bind_some, gt_iff_lt, lt_irrefl, if_false, order, moving]
    rfl
  · intro row col
    dsimp only at cells
    rw [getcell_eraseInternal, cells, pen]
    by_cases upper : 0 ≤ row ∧ row < height - count
    · rw [if_neg (by rintro ⟨⟨below, _⟩, _⟩; dsimp only at below; omega), if_pos (by omega),
        if_pos upper, Int.sub_zero]
    · rw [if_neg upper, if_neg (show ¬ (0 ≤ row ∧ row < 0 + ((height - count : Nat) : Int)) by omega)]
      by_cases band : 0 ≤ row ∧ row < height
      · rw [if_pos band]
        by_cases across : 0 ≤ col ∧ col < cols
        · rw [if_pos ⟨⟨by dsimp only; omega, band.2⟩, across⟩]
        · have outside : getcell screen row col = none := by
            rw [getcell, dif_neg (by rintro ⟨_, inside⟩; exact across inside)]
          rw [if_neg (by rintro ⟨_, inside⟩; exact across inside), outside]
          rfl
      · rw [if_neg band, if_neg (by rintro ⟨inside, _⟩; dsimp only at inside; omega)]

/-- A move whose callbacks leave the data of the application alone. -/
theorem moverectInternal_quiet (prescroll : Prescroll rows cols σ) (dest src : VTermRect)
    (screen : VTermScreen rows cols) (user : σ)
    (vertical : dest.startRow < src.startRow →
      prescroll screen ⟨dest.startRow, src.startRow, dest.startCol, dest.endCol⟩ user = some user)
    (down : src.startRow < dest.startRow →
      prescroll screen ⟨src.endRow, dest.endRow, dest.startCol, dest.endCol⟩ user = some user)
    (left : dest.startCol < src.startCol →
      prescroll screen ⟨dest.startRow, dest.endRow, dest.startCol, src.startCol⟩ user = some user)
    (right : src.startCol < dest.startCol →
      prescroll screen ⟨dest.startRow, dest.endRow, src.endCol, dest.endCol⟩ user = some user)
    (inRows : (0 ≤ dest.startRow ∧ dest.endRow ≤ rows) ∧ 0 ≤ src.startRow ∧
      dest.endRow + (src.startRow - dest.startRow) ≤ rows)
    (inCols : (0 ≤ dest.startCol ∧ dest.startCol + (src.endCol - src.startCol) ≤ cols) ∧
      0 ≤ src.startCol ∧ src.startCol + (src.endCol - src.startCol) ≤ cols) :
    ∃ moved, moverectInternal prescroll dest src (screen, user) = some (moved, user) := by
  obtain ⟨moved, moving⟩ := moveRows_isSome dest src (moveOrder dest src) (by
    intro row member
    unfold moveOrder at member
    dsimp only at member
    split at member <;>
      · obtain ⟨turn, before, rfl⟩ := List.mem_map.mp member
        rw [List.mem_range] at before
        omega) inCols screen
  refine ⟨moved, ?_⟩
  have rowsCall : prescrollRows prescroll dest src screen user = some user := by
    unfold prescrollRows
    split_ifs with first second
    · exact vertical first
    · exact down second
    · rfl
  have colsCall : prescrollCols prescroll dest src screen user = some user := by
    unfold prescrollCols
    split_ifs with first second
    · exact left first
    · exact right second
    · rfl
  rw [moverectInternal, rowsCall]
  simp only [bind, Option.bind_some, colsCall, moving]
  rfl

/-- **A scroll that is no scroll off the top.** When the callback ignores rectangles
that do not start in the first row and column or do not have the full width, a scroll
inside the screen that is not upward or does not start in the first row leaves the
data of the application alone. -/
theorem vtermScrollRect_quiet (prescroll : Prescroll rows cols σ) (screen : VTermScreen rows cols)
    (user : σ) (rect : VTermRect) (downward rightward : Int)
    (inRows : 0 ≤ rect.startRow ∧ rect.endRow ≤ rows)
    (inCols : 0 ≤ rect.startCol ∧ rect.endCol ≤ cols)
    (ignores : ∀ other : VTermRect,
      other.startRow ≠ 0 ∨ other.startCol ≠ 0 ∨ other.endCol ≠ cols →
        prescroll screen other user = some user)
    (elsewhere : downward ≤ 0 ∨ rect.startRow ≠ 0) :
    ∃ scrolled, vtermScrollRect prescroll rect downward rightward (screen, user) =
      some (scrolled, user) := by
  unfold vtermScrollRect
  split
  · exact ⟨_, rfl⟩
  · rename_i area
    obtain ⟨moved, moving⟩ := moverectInternal_quiet prescroll
      (scrollDest rect downward rightward) (scrollSrc rect downward rightward) screen user
      (fun upward => ignores _ (by
        simp only [scrollDest, scrollSrc] at upward ⊢
        split_ifs at upward ⊢ <;> omega))
      (fun down => ignores _ (by
        simp only [scrollDest, scrollSrc] at down ⊢
        split_ifs at down ⊢ <;> omega))
      (fun left => ignores _ (by
        simp only [scrollDest, scrollSrc] at left ⊢
        split_ifs at left ⊢ <;> omega))
      (fun right => ignores _ (by
        simp only [scrollDest, scrollSrc] at right ⊢
        split_ifs at right ⊢ <;> omega))
      (by
        simp only [scrollDest, scrollSrc]
        split_ifs <;> omega)
      (by
        simp only [scrollDest, scrollSrc]
        split_ifs <;> omega)
    exact ⟨_, by rw [moving]; rfl⟩

end Hackterm
