import Hackterm.Screen.Scroll
import Mathlib.Data.List.Induction

/-! # What a scroll does to the cells

Rows are copied one by one, each before its own cells are overwritten, so together they are
moved at once (`Hackterm.moveRows_eq`). A scroll in one direction therefore shifts the cells
of the rectangle: a cell takes the one whose place is so many rows below and columns to the
right, where this is in the rectangle, and is blank where it is not
(`Hackterm.vtermScrollRect_eq`). Scrolling back restores what was not pushed out
(`Hackterm.vtermScrollRect_back`).
-/

namespace Hackterm

variable {rows cols : Nat} {σ : Type}

theorem getcell_outside (screen : VTermScreen rows cols) {row col : Int}
    (outside : ¬ ((0 ≤ row ∧ row < rows) ∧ 0 ≤ col ∧ col < cols)) :
    getcell screen row col = none := dif_neg outside

/-- Copying cells of a row, cell by cell. -/
theorem copyCells_eq (screen : VTermScreen rows cols) (toRow toCol fromRow fromCol count : Int)
    (target : (0 ≤ toRow ∧ toRow < rows) ∧ 0 ≤ toCol ∧ toCol + count ≤ cols)
    (source : (0 ≤ fromRow ∧ fromRow < rows) ∧ 0 ≤ fromCol ∧ fromCol + count ≤ cols) :
    ∃ moved, copyCells screen toRow toCol fromRow fromCol count = some moved ∧
      moved.pen = screen.pen ∧ moved.globalReverse = screen.globalReverse ∧
      ∀ row col : Int, getcell moved row col =
        if row = toRow ∧ toCol ≤ col ∧ col < toCol + count then
          getcell screen fromRow (fromCol + (col - toCol))
        else getcell screen row col := by
  refine ⟨_, if_pos ⟨target, source⟩, rfl, rfl, fun row col => ?_⟩
  by_cases inside : (0 ≤ row ∧ row < rows) ∧ 0 ≤ col ∧ col < cols
  · have position : ((row.toNat : Int) = row) ∧ (col.toNat : Int) = col := by omega
    conv_lhs => rw [getcell, dif_pos inside]
    dsimp only
    rw [position.1, position.2]
    by_cases here : row = toRow ∧ toCol ≤ col ∧ col < toCol + count
    · rw [if_pos here, if_pos here]
      obtain ⟨cell, found⟩ := Option.isSome_iff_exists.mp
        ((getcell_isSome screen fromRow (fromCol + (col - toCol))).mpr ⟨source.1, by omega⟩)
      rw [found, Option.getD_some]
    · rw [if_neg here, if_neg here, getcell, dif_pos inside]
  · rw [getcell_outside _ inside, getcell_outside screen inside, if_neg]
    rintro ⟨rfl, left, right⟩
    exact inside ⟨target.1, by omega⟩

/-- The rows are copied so that none is overwritten before it was copied. -/
def Unspoiled (down : Int) (order : List Int) : Prop :=
  order.Pairwise fun earlier later => later + down ≠ earlier

/-- **Rows are moved at once.** -/
theorem moveRows_eq (dest src : VTermRect) (order : List Int)
    (unspoiled : Unspoiled (src.startRow - dest.startRow) order)
    (inRows : ∀ row ∈ order, (0 ≤ row ∧ row < rows) ∧
      0 ≤ row + (src.startRow - dest.startRow) ∧ row + (src.startRow - dest.startRow) < rows)
    (inCols : (0 ≤ dest.startCol ∧ dest.startCol + (src.endCol - src.startCol) ≤ cols) ∧
      0 ≤ src.startCol ∧ src.startCol + (src.endCol - src.startCol) ≤ cols)
    (screen : VTermScreen rows cols) :
    ∃ moved, order.foldlM (moveRow dest src) screen = some moved ∧ moved.pen = screen.pen ∧
      moved.globalReverse = screen.globalReverse ∧
      ∀ row col : Int, getcell moved row col =
        if row ∈ order ∧ dest.startCol ≤ col ∧
            col < dest.startCol + (src.endCol - src.startCol) then
          getcell screen (row + (src.startRow - dest.startRow))
            (col + (src.startCol - dest.startCol))
        else getcell screen row col := by
  induction order using List.reverseRecOn with
  | nil => exact ⟨screen, rfl, rfl, rfl, fun row col => by simp⟩
  | append_singleton front last ih =>
      obtain ⟨before, -, apart⟩ := List.pairwise_append.mp unspoiled
      obtain ⟨middle, moving, pen, reverse, cells⟩ := ih before
        fun row member => inRows row (List.mem_append_left _ member)
      obtain ⟨here, source⟩ := inRows last (List.mem_append_right _ (List.mem_singleton_self last))
      obtain ⟨moved, copying, samePen, sameReverse, copied⟩ := copyCells_eq middle last
        dest.startCol (last + (src.startRow - dest.startRow)) src.startCol
        (src.endCol - src.startCol) ⟨here, inCols.1⟩ ⟨source, inCols.2⟩
      refine ⟨moved, ?_, samePen.trans pen, sameReverse.trans reverse, fun row col => ?_⟩
      · rw [List.foldlM_append, moving]
        simp only [bind, Option.bind_some, List.foldlM_cons, List.foldlM_nil]
        rw [moveRow, if_neg (by omega), copying]
        rfl
      · rw [copied]
        by_cases copies : row = last ∧ dest.startCol ≤ col ∧
            col < dest.startCol + (src.endCol - src.startCol)
        · -- the source row was not overwritten by the rows before
          have fresh : last + (src.startRow - dest.startRow) ∉ front := fun member =>
            apart _ member last (List.mem_singleton_self last) rfl
          rw [if_pos copies, cells, if_neg fun both => fresh both.1, if_pos ⟨by
            rw [copies.1]
            exact List.mem_append_right _ (List.mem_singleton_self last), copies.2⟩, copies.1]
          congr 1
          omega
        · rw [if_neg copies, cells]
          have same : (row ∈ front ∧ dest.startCol ≤ col ∧
              col < dest.startCol + (src.endCol - src.startCol)) ↔
              row ∈ front ++ [last] ∧ dest.startCol ≤ col ∧
                col < dest.startCol + (src.endCol - src.startCol) := by
            rw [List.mem_append, List.mem_singleton]
            constructor
            · rintro ⟨member, window⟩
              exact ⟨.inl member, window⟩
            · rintro ⟨member | last, window⟩
              · exact ⟨member, window⟩
              · exact absurd ⟨last, window⟩ copies
          simp only [same]

/-- The order of `moverect_internal` is one in which no row is spoiled. -/
theorem unspoiled_moveOrder (dest src : VTermRect) :
    Unspoiled (src.startRow - dest.startRow) (moveOrder dest src) := by
  unfold Unspoiled moveOrder
  dsimp only
  split_ifs with descending
  · rw [List.pairwise_map]
    exact List.pairwise_lt_range.imp fun before => by omega
  · rw [List.pairwise_map]
    exact List.pairwise_lt_range.imp fun before => by omega

theorem mem_moveOrder (dest src : VTermRect) (row : Int) :
    row ∈ moveOrder dest src ↔ dest.startRow ≤ row ∧ row < dest.endRow := by
  unfold moveOrder
  dsimp only
  split_ifs with descending
  · simp only [List.mem_map, List.mem_range]
    constructor
    · rintro ⟨turn, before, rfl⟩
      omega
    · rintro ⟨above, below⟩
      exact ⟨(dest.endRow - 1 - row).toNat, by omega, by omega⟩
  · simp only [List.mem_map, List.mem_range]
    constructor
    · rintro ⟨turn, before, rfl⟩
      omega
    · rintro ⟨above, below⟩
      exact ⟨(row - dest.startRow).toNat, by omega, by omega⟩

/-- What the application is told in a scroll: of the rows and of the columns that leave. -/
def scrollTold (prescroll : Prescroll rows cols σ) (rect : VTermRect) (downward rightward : Int)
    (screen : VTermScreen rows cols) (user : σ) : Option σ :=
  if rect.endRow - rect.startRow ≤ downward.natAbs ∨
      rect.endCol - rect.startCol ≤ rightward.natAbs then some user
  else
    (prescrollRows prescroll (scrollDest rect downward rightward)
        (scrollSrc rect downward rightward) screen user).bind
      (prescrollCols prescroll (scrollDest rect downward rightward)
        (scrollSrc rect downward rightward) screen)

/-- The cells of a rectangle that is shifted. -/
def shiftedCell (screen : VTermScreen rows cols) (rect : VTermRect)
    (downward rightward row col : Int) : Option ScreenCell :=
  if rect.Contains row col then
    if rect.Contains (row + downward) (col + rightward) then
      getcell screen (row + downward) (col + rightward)
    else (getcell screen row col).map (ScreenCell.erase screen.pen)
  else getcell screen row col

/-- **A scroll shifts the cells** of a rectangle inside the screen, if it goes in one
direction. -/
theorem vtermScrollRect_eq (prescroll : Prescroll rows cols σ) (screen : VTermScreen rows cols)
    (rect : VTermRect) (downward rightward : Int)
    (inRows : 0 ≤ rect.startRow ∧ rect.endRow ≤ rows)
    (inCols : 0 ≤ rect.startCol ∧ rect.endCol ≤ cols) (straight : downward = 0 ∨ rightward = 0)
    (moves : ¬ (downward = 0 ∧ rightward = 0)) :
    ∃ scrolled : VTermScreen rows cols,
      (∀ user, vtermScrollRect prescroll rect downward rightward (screen, user) =
        (scrollTold prescroll rect downward rightward screen user).map (scrolled, ·)) ∧
      (scrolled.pen = screen.pen ∧ scrolled.globalReverse = screen.globalReverse) ∧
      ∀ row col, getcell scrolled row col =
        shiftedCell screen rect downward rightward row col := by
  unfold vtermScrollRect scrollTold shiftedCell
  split_ifs with whole
  · refine ⟨eraseInternal rect screen, fun user => rfl, ⟨rfl, rfl⟩, fun row col => ?_⟩
    rw [getcell_eraseInternal]
    split_ifs with here source
    · unfold VTermRect.Contains at here source
      omega
    · rfl
    · rfl
  · obtain ⟨moved, moving, pen, reverse, cells⟩ := moveRows_eq
      (scrollDest rect downward rightward) (scrollSrc rect downward rightward)
      (moveOrder (scrollDest rect downward rightward) (scrollSrc rect downward rightward))
      (unspoiled_moveOrder _ _)
      (by
        intro row member
        rw [mem_moveOrder] at member
        simp only [scrollDest, scrollSrc] at member ⊢
        split_ifs at member ⊢ <;> omega)
      (by
        simp only [scrollDest, scrollSrc]
        split_ifs <;> omega) screen
    refine ⟨eraseInternal (scrollErased rect downward rightward) moved, fun user => ?_,
      ⟨pen, reverse⟩, ?_⟩
    · rw [moverectInternal, Option.map_bind]
      cases prescrollRows prescroll (scrollDest rect downward rightward)
        (scrollSrc rect downward rightward) screen user with
      | none => rfl
      | some first =>
          simp only [bind, Option.bind_some, moving, Function.comp_apply]
          cases prescrollCols prescroll (scrollDest rect downward rightward)
            (scrollSrc rect downward rightward) screen first with
          | none => rfl
          | some second => rfl
    · intro row col
      rw [getcell_eraseInternal, cells, pen]
      have window : ∀ x : Int, (scrollDest rect downward rightward).startCol ≤ x ∧
          x < (scrollDest rect downward rightward).startCol +
            ((scrollSrc rect downward rightward).endCol -
              (scrollSrc rect downward rightward).startCol) ↔
          (scrollDest rect downward rightward).startCol ≤ x ∧
            x < (scrollDest rect downward rightward).endCol := by
        intro x
        simp only [scrollDest, scrollSrc]
        split_ifs <;> omega
      have shift : (scrollSrc rect downward rightward).startRow -
          (scrollDest rect downward rightward).startRow = downward ∧
          (scrollSrc rect downward rightward).startCol -
            (scrollDest rect downward rightward).startCol = rightward := by
        simp only [scrollDest, scrollSrc]
        split_ifs <;> omega
      have erased : (scrollErased rect downward rightward).Contains row col ↔
          rect.Contains row col ∧ ¬ rect.Contains (row + downward) (col + rightward) := by
        simp only [scrollErased, VTermRect.Contains]
        split_ifs <;> omega
      have moves : (((scrollDest rect downward rightward).startRow ≤ row ∧
          row < (scrollDest rect downward rightward).endRow) ∧
          (scrollDest rect downward rightward).startCol ≤ col ∧
            col < (scrollDest rect downward rightward).endCol) ↔
          rect.Contains row col ∧ rect.Contains (row + downward) (col + rightward) := by
        simp only [scrollDest, VTermRect.Contains]
        split_ifs <;> omega
      simp only [mem_moveOrder, window, shift.1, shift.2, erased, moves]
      by_cases here : rect.Contains row col
      · by_cases source : rect.Contains (row + downward) (col + rightward)
        · rw [if_neg fun both => both.2 source, if_pos ⟨here, source⟩, if_pos here, if_pos source]
        · rw [if_pos ⟨here, source⟩, if_neg fun both => source both.2, if_pos here, if_neg source]
      · rw [if_neg fun both => here both.1, if_neg fun both => here both.1, if_neg here]

/-- **Scrolling back** restores the cells that were not pushed out of the rectangle. The
others are blank. -/
theorem vtermScrollRect_back (prescroll : Prescroll rows cols σ) (screen : VTermScreen rows cols)
    (user told toldBack : σ) (rect : VTermRect) (downward rightward : Int)
    (scrolled back : VTermScreen rows cols) (inRows : 0 ≤ rect.startRow ∧ rect.endRow ≤ rows)
    (inCols : 0 ≤ rect.startCol ∧ rect.endCol ≤ cols) (straight : downward = 0 ∨ rightward = 0)
    (moves : ¬ (downward = 0 ∧ rightward = 0))
    (there : vtermScrollRect prescroll rect downward rightward (screen, user) =
      some (scrolled, told))
    (again : vtermScrollRect prescroll rect (-downward) (-rightward) (scrolled, told) =
      some (back, toldBack)) (row col : Int) :
    (¬ rect.Contains row col ∨ rect.Contains (row - downward) (col - rightward) →
      getcell back row col = getcell screen row col) ∧
      (rect.Contains row col → ¬ rect.Contains (row - downward) (col - rightward) →
        ∃ cell, getcell back row col = some cell ∧ cell.chars[0] = 0 ∧ cell.pen = screen.pen) := by
  obtain ⟨first, forth, ⟨pen, -⟩, cells⟩ := vtermScrollRect_eq prescroll screen rect downward
    rightward inRows inCols straight moves
  rw [forth] at there
  obtain ⟨_, -, same⟩ := Option.map_eq_some_iff.mp there
  obtain ⟨rfl, -⟩ := Prod.mk.inj same
  obtain ⟨second, backward, -, restored⟩ := vtermScrollRect_eq prescroll first rect (-downward)
    (-rightward) inRows inCols (by omega) (by omega)
  rw [backward] at again
  obtain ⟨_, -, same⟩ := Option.map_eq_some_iff.mp again
  obtain ⟨rfl, -⟩ := Prod.mk.inj same
  rw [restored, shiftedCell, ← Int.sub_eq_add_neg, ← Int.sub_eq_add_neg]
  constructor
  · intro kept
    by_cases here : rect.Contains row col
    · have source := kept.resolve_left (not_not_intro here)
      rw [if_pos here, if_pos source, cells, shiftedCell, if_pos source, Int.sub_add_cancel,
        Int.sub_add_cancel, if_pos here]
    · rw [if_neg here, cells, shiftedCell, if_neg here]
  · intro here pushed
    have inside : (getcell first row col).isSome := by
      rw [getcell_isSome]
      unfold VTermRect.Contains at here
      omega
    obtain ⟨cell, found⟩ := Option.isSome_iff_exists.mp inside
    rw [if_pos here, if_neg pushed, found]
    exact ⟨_, rfl, Vector.getElem_set_self _, pen⟩

end Hackterm
