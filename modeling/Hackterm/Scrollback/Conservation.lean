import Hackterm.Screen.Scroll
import Hackterm.Scrollback.Viewport

/-! # Lines that scroll off the top

When rows leave the top of the screen over its full width, the application pushes
what is reported of them before they are overwritten (`Hackterm.screenPrescroll`).
So an upward scroll conserves the scrollback followed by the region, and no other
scroll touches the scrollback (`Hackterm.scroll_conserves`).
-/

namespace Hackterm

open Streaming

variable {rows cols : Nat}

/-- `screen_prescroll`. The array of a line has 1000 cells, and writing past it is
undefined. -/
def screenPrescroll : Prescroll rows cols (Option ScrollBuffer) := fun screen rect buffer =>
  if rect.startRow ≠ 0 ∨ rect.startCol ≠ 0 ∨ rect.endCol ≠ cols then some buffer
  else ((List.range (rect.endRow - rect.startRow).toNat).map fun turn : Nat =>
    rect.startRow + turn).foldlM (fun buffer row =>
      if 1000 < cols then none
      else (reportedRow screen row).map fun line => some (scrollBufferPush buffer line)) buffer

/-- The lines in the buffer, oldest first. -/
def bufferLines (buffer : Option ScrollBuffer) : List Line :=
  (buffer.getD scrollBufferInit).ring.unrolled.filterMap Prod.fst

/-- The buffer holds the last lines pushed. -/
theorem bufferLines_pushAll (history : List Line) :
    bufferLines (scrollBufferPushAll none history) = storedLines history := by
  have blank : ∀ count : Nat,
      (List.replicate count ((none : Option Line), 0)).filterMap Prod.fst = [] := by
    intro count
    rw [List.filterMap_eq_nil_iff]
    intro slot member
    rw [List.eq_of_mem_replicate member]
  have lines : ∀ list : List Line, (list.map storedLine).filterMap Prod.fst = list := by
    intro list
    rw [List.filterMap_map]
    exact List.filterMap_some
  rw [bufferLines, unrolled_scrollBufferPushAll, List.rtake, List.length_append,
    List.length_replicate, List.length_map, Nat.add_sub_cancel_left, List.drop_append,
    List.length_replicate, List.filterMap_append, List.drop_replicate, blank, List.nil_append,
    ← List.map_drop, lines]
  rfl

theorem bufferLines_pushAll_append (history more : List Line) :
    bufferLines (scrollBufferPushAll none (history ++ more)) =
      (bufferLines (scrollBufferPushAll none history) ++ more).rtake scrollBufferInitialSize := by
  rw [bufferLines_pushAll, bufferLines_pushAll, storedLines, storedLines, rtake_rtake_append]

theorem scrollBufferPushAll_append (buffer : Option ScrollBuffer) (history more : List Line) :
    scrollBufferPushAll buffer (history ++ more) =
      scrollBufferPushAll (scrollBufferPushAll buffer history) more :=
  List.foldl_append

/-- Rectangles that are not the top of the screen are ignored. -/
theorem screenPrescroll_ignores (screen : VTermScreen rows cols) (buffer : Option ScrollBuffer)
    (rect : VTermRect) (other : rect.startRow ≠ 0 ∨ rect.startCol ≠ 0 ∨ rect.endCol ≠ cols) :
    screenPrescroll screen rect buffer = some buffer :=
  if_pos other

/-- The top rows are pushed as they are reported, top to bottom. -/
theorem screenPrescroll_top (screen : VTermScreen rows cols) (narrow : cols ≤ 1000) (count : Nat)
    (fits : count ≤ rows) (buffer : Option ScrollBuffer) :
    ∃ top, (List.range count).mapM (fun row : Nat => reportedRow screen row) = some top ∧
      top.length = count ∧
      screenPrescroll screen ⟨0, count, 0, cols⟩ buffer =
        some (scrollBufferPushAll buffer top) := by
  obtain ⟨top, reported, length⟩ := mapM_of_isSome (fun row : Nat => reportedRow screen row)
    (List.range count) fun row member => by
      obtain ⟨line, found, _⟩ := reportedRow_isSome screen row (by omega)
        (by rw [List.mem_range] at member; omega)
      rw [found]
      rfl
  refine ⟨top, reported, by rw [length, List.length_range], ?_⟩
  unfold screenPrescroll
  rw [if_neg (by simp)]
  have count_eq : (((count : Int) - 0).toNat) = count := by omega
  dsimp only
  rw [count_eq, List.foldlM_map]
  have pushes : ∀ (list : List Nat) (lines : List Line) (buffer : Option ScrollBuffer),
      list.mapM (fun row : Nat => reportedRow screen row) = some lines →
      list.foldlM (fun buffer (row : Nat) =>
        if 1000 < cols then none
        else (reportedRow screen ((0 : Int) + row)).map fun line =>
          some (scrollBufferPush buffer line)) buffer =
        some (scrollBufferPushAll buffer lines) := by
    intro list
    induction list with
    | nil =>
        intro lines buffer collected
        obtain rfl : [] = lines := by simpa using collected
        rfl
    | cons row list ih =>
        intro lines buffer collected
        rw [mapM_eq_some_iff] at collected
        cases lines with
        | nil => cases collected
        | cons line lines =>
            rw [List.map_cons, List.map_cons, List.cons.injEq] at collected
            rw [List.foldlM_cons, if_neg (by omega), Int.zero_add, collected.1]
            exact ih lines (some (scrollBufferPush buffer line))
              ((mapM_eq_some_iff _ _ _).mpr collected.2)
  exact pushes _ top buffer reported

/-- **Conservation of scrolled lines.** An upward scroll of the full width at the top of
the screen appends the rows that leave to the scrollback, as they were reported before
it, moves the others up and blanks the last ones. A screen without columns appends nothing, and
neither do scrolls that are not upward and scrolls of regions that do not start in the first
row, on a screen of any width. -/
theorem scroll_conserves (screen : VTermScreen rows cols) (history : List Line) :
    let buffer := scrollBufferPushAll none history
    (0 < cols → cols ≤ 1000 → ∀ height count : Nat, height ≤ rows → 1 ≤ count → count < height →
      ∃ scrolled after top,
        vtermScrollRect screenPrescroll ⟨0, height, 0, cols⟩ count 0 (screen, buffer) =
            some (scrolled, after) ∧
          (List.range count).mapM (fun row : Nat => reportedRow screen row) = some top ∧
          top.length = count ∧
          bufferLines after = (bufferLines buffer ++ top).rtake scrollBufferInitialSize ∧
          (∀ row : Int, 0 ≤ row → row < height - count →
            reportedRow scrolled row = reportedRow screen (row + count) ∧
              ∀ col, getcell scrolled row col = getcell screen (row + count) col) ∧
          (∀ row : Int, height - count ≤ row → row < height → ∀ col,
            getcell scrolled row col = (getcell screen row col).map (·.erase screen.pen)) ∧
          ∀ row : Int, height ≤ row → ∀ col,
            getcell scrolled row col = getcell screen row col) ∧
    (cols = 0 → ∀ height count : Nat,
      ∃ scrolled, vtermScrollRect screenPrescroll ⟨0, height, 0, cols⟩ count 0 (screen, buffer) =
        some (scrolled, buffer)) ∧
    ∀ (rect : VTermRect) (downward rightward : Int),
      0 ≤ rect.startRow → rect.endRow ≤ rows → 0 ≤ rect.startCol → rect.endCol ≤ cols →
      downward ≤ 0 ∨ rect.startRow ≠ 0 →
      ∃ scrolled, vtermScrollRect screenPrescroll rect downward rightward (screen, buffer) =
        some (scrolled, buffer) := by
  intro buffer
  refine ⟨?_, ?_, ?_⟩
  · intro wide narrow height count fits positive less
    obtain ⟨top, reported, length, called⟩ :=
      screenPrescroll_top screen narrow count (by omega) buffer
    obtain ⟨scrolled, scroll, reverse, cells⟩ := vtermScrollRect_up screenPrescroll screen buffer
      (scrollBufferPushAll buffer top) height count wide positive less fits called
    refine ⟨scrolled, _, top, scroll, reported, length, ?_, ?_, ?_, ?_⟩
    · rw [← scrollBufferPushAll_append, bufferLines_pushAll_append]
    · intro row above below
      have moved : ∀ col, getcell scrolled row col = getcell screen (row + count) col := by
        intro col
        rw [cells, if_pos ⟨above, below⟩]
      exact ⟨reportedRow_congr scrolled screen row (row + count) reverse moved, moved⟩
    · intro row above below col
      rw [cells, if_neg (by omega), if_pos (by omega)]
    · intro row above col
      rw [cells, if_neg (by omega), if_neg (by omega)]
  · rintro rfl height count
    exact ⟨_, if_pos (Or.inr (Int.le_refl 0))⟩
  · intro rect downward rightward top bottom left right elsewhere
    exact vtermScrollRect_quiet screenPrescroll screen buffer rect downward rightward
      ⟨top, bottom⟩ ⟨left, right⟩ (screenPrescroll_ignores screen buffer) elsewhere

/-- A screen whose cells all hold one letter. -/
def letterScreen (rows cols : Nat) : VTermScreen rows cols where
  buffer _ _ := ⟨#v[0x41, 0, 0, 0, 0, 0], defaultPen, by simp⟩
  pen := defaultPen
  globalReverse := false

/-- A screen of three rows and two columns with nothing in its scrollback. -/
theorem scroll_conserves_letters :
    let screen := letterScreen 3 2
    let buffer := scrollBufferPushAll none []
    (∀ height count : Nat, height ≤ 3 → 1 ≤ count → count < height →
      ∃ scrolled after top,
        vtermScrollRect screenPrescroll ⟨0, height, 0, (2 : Nat)⟩ count 0 (screen, buffer) =
            some (scrolled, after) ∧
          (List.range count).mapM (fun row : Nat => reportedRow screen row) = some top ∧
          top.length = count ∧
          bufferLines after = (bufferLines buffer ++ top).rtake scrollBufferInitialSize ∧
          (∀ row : Int, 0 ≤ row → row < height - count →
            reportedRow scrolled row = reportedRow screen (row + count) ∧
              ∀ col, getcell scrolled row col = getcell screen (row + count) col) ∧
          (∀ row : Int, height - count ≤ row → row < height → ∀ col,
            getcell scrolled row col = (getcell screen row col).map (·.erase screen.pen)) ∧
          ∀ row : Int, height ≤ row → ∀ col,
            getcell scrolled row col = getcell screen row col) ∧
    ∀ (rect : VTermRect) (downward rightward : Int),
      0 ≤ rect.startRow → rect.endRow ≤ (3 : Nat) → 0 ≤ rect.startCol → rect.endCol ≤ (2 : Nat) →
      downward ≤ 0 ∨ rect.startRow ≠ 0 →
      ∃ scrolled, vtermScrollRect screenPrescroll rect downward rightward (screen, buffer) =
        some (scrolled, buffer) := by
  obtain ⟨upward, -, others⟩ := scroll_conserves (letterScreen 3 2) []
  exact ⟨upward (by decide) (by decide), others⟩

/-- A screen of two rows and no columns: every scroll is one by more than the area, so
the row that leaves is not appended. -/
theorem scroll_conserves_no_columns :
    let screen := letterScreen 2 0
    (1 ≤ 1 ∧ 1 < 2 ∧ 0 ≤ 1000) ∧
      (List.range 1).mapM (fun row : Nat => reportedRow screen row) = some [[]] ∧
      ∃ scrolled, vtermScrollRect screenPrescroll ⟨0, 2, 0, 0⟩ 1 0 (screen, none) =
          some (scrolled, none) ∧
        bufferLines none ≠ (bufferLines none ++ [[]]).rtake scrollBufferInitialSize := by
  refine ⟨by decide, rfl, _, rfl, ?_⟩
  have empty : bufferLines none = [] := (bufferLines_pushAll []).trans (List.rtake_nil _)
  have positive := scrollBufferInitialSize_pos
  rw [empty, List.nil_append, rtake_of_length_le _ _ (by rw [List.length_singleton]; omega)]
  simp

end Hackterm
