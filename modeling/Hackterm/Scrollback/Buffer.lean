import Hackterm.Screen.Cells
import Hackterm.Streaming.Ring

/-! # The scrollback buffer

Lines that leave the screen are kept in a ring of `scroll_buffer_initial_size`
slots, which the first push allocates (`Hackterm.scrollBufferPush`). Rows with a
negative number are read from the ring, the others from the screen
(`Hackterm.grabRow`). After any pushes, the line pushed so many pushes before the
last one stands where `scroll_buffer_get` looks for it
(`Hackterm.scrollBufferGet_pushAll`).
-/

namespace Hackterm

open Streaming

/-- `scroll_buffer_initial_size`. -/
@[irreducible] def scrollBufferInitialSize : Nat := 10000

theorem scrollBufferInitialSize_pos : 0 < scrollBufferInitialSize := by
  unfold scrollBufferInitialSize
  omega

instance : NeZero scrollBufferInitialSize := ⟨scrollBufferInitialSize_pos.ne'⟩

/-- The cells of a stored line. -/
abbrev Line := List VTermScreenCell

/-- `scroll_buffer` and `scroll_buffer_lens`, slot by slot, and `scroll_buffer_end`.
A slot without a line is NULL. -/
structure ScrollBuffer where
  slots : List (Option Line × Nat)
  bufferEnd : Nat
  sized : slots.length = scrollBufferInitialSize
  inside : bufferEnd ≤ scrollBufferInitialSize

/-- `scroll_buffer_init`. -/
def scrollBufferInit : ScrollBuffer where
  slots := List.replicate scrollBufferInitialSize (none, 0)
  bufferEnd := 0
  sized := List.length_replicate
  inside := Nat.zero_le _

/-- `scroll_buffer_size`, which is 0 before the first push. -/
def scrollBufferSize (buffer : Option ScrollBuffer) : Nat :=
  if buffer.isSome then scrollBufferInitialSize else 0

/-- `scroll_buffer_push`, which allocates the buffer when there is none. -/
def scrollBufferPush (buffer : Option ScrollBuffer) (scrollLine : Line) : ScrollBuffer :=
  let buffer := buffer.getD scrollBufferInit
  let slot := if scrollBufferInitialSize ≤ buffer.bufferEnd then 0 else buffer.bufferEnd
  { slots := buffer.slots.set slot (some scrollLine, scrollLine.length)
    bufferEnd := slot + 1
    sized := by rw [List.length_set, buffer.sized]
    inside := by
      have room := scrollBufferInitialSize_pos
      simp only [slot]
      split <;> omega }

/-- `scroll_buffer_get`: the line and the length in the slot so many slots before the
last one. An index outside the buffer is undefined. -/
def scrollBufferGet (buffer : ScrollBuffer) (lineNumber : Nat) : Option (Option Line × Nat) :=
  let idx : Int := buffer.bufferEnd - lineNumber - 1
  let idx := if idx < 0 then scrollBufferInitialSize + idx else idx
  if idx < 0 then none else buffer.slots[idx.toNat]?

/-- What `grab_row` hands its caller: the cells, if there are any, and the length,
which callers start at 0. -/
structure GrabbedRow where
  rowdata : Option Line
  len : Nat
deriving DecidableEq

variable {rows cols : Nat}

/-- `grab_row`. The cells of a row below the screen are not initialised, which is
undefined. -/
def grabRow (screen : VTermScreen rows cols) (buffer : Option ScrollBuffer) (trow : Int) :
    Option GrabbedRow :=
  if 0 ≤ trow then (reportedRow screen trow).map fun rowdata => ⟨some rowdata, cols⟩
  else if (scrollBufferSize buffer : Int) < 0 - trow then some ⟨none, 0⟩
  else do
    let (line, len) ← scrollBufferGet (← buffer) (0 - trow).toNat
    pure ⟨line, len⟩

/-- The rows `redraw_text` draws, top to bottom; a row without cells stays blank. -/
def redrawText (screen : VTermScreen rows cols) (buffer : Option ScrollBuffer)
    (scrollOffset : Int) : Option (List GrabbedRow) :=
  (List.range rows).mapM fun row : Nat => grabRow screen buffer (row - scrollOffset)

/-- The buffer after the pushes of a history, oldest first. -/
def scrollBufferPushAll (buffer : Option ScrollBuffer) (history : List Line) :
    Option ScrollBuffer :=
  history.foldl (fun buffer line => some (scrollBufferPush buffer line)) buffer

/-- The buffer as a ring. -/
def ScrollBuffer.ring (buffer : ScrollBuffer) :
    Ring (Option Line × Nat) scrollBufferInitialSize :=
  ⟨buffer.slots, buffer.bufferEnd, buffer.sized, buffer.inside⟩

/-- A line with its length, as a slot holds it. -/
def storedLine (line : Line) : Option Line × Nat := (some line, line.length)

theorem ring_scrollBufferPush (buffer : Option ScrollBuffer) (line : Line) :
    (scrollBufferPush buffer line).ring =
      (buffer.getD scrollBufferInit).ring.push (storedLine line) := rfl

/-- A push writes after the lines that were pushed before. -/
theorem ring_scrollBufferPushAll (buffer : Option ScrollBuffer) (history : List Line) :
    ((scrollBufferPushAll buffer history).getD scrollBufferInit).ring =
      (buffer.getD scrollBufferInit).ring.pushAll (history.map storedLine) := by
  induction history generalizing buffer with
  | nil => rfl
  | cons line history ih =>
      rw [scrollBufferPushAll, List.foldl_cons, ← scrollBufferPushAll, ih, Option.getD_some,
        ring_scrollBufferPush]
      rfl

/-- The slots from the oldest to the newest, after a history of pushes. -/
theorem unrolled_scrollBufferPushAll (history : List Line) :
    ((scrollBufferPushAll none history).getD scrollBufferInit).ring.unrolled =
      (List.replicate scrollBufferInitialSize (none, 0) ++ history.map storedLine).rtake
        scrollBufferInitialSize := by
  have empty : scrollBufferInit.ring.unrolled =
      List.replicate scrollBufferInitialSize (none, 0) := by
    rw [Ring.unrolled]
    exact List.rotate_zero _
  rw [ring_scrollBufferPushAll, Ring.unrolled_pushAll, Option.getD_none, empty]

theorem scrollBufferPushAll_isSome (history : List Line) (present : history ≠ []) :
    ∃ buffer, scrollBufferPushAll none history = some buffer := by
  obtain ⟨front, last, rfl⟩ := List.eq_nil_or_concat history |>.resolve_left present
  rw [List.concat_eq_append, scrollBufferPushAll, List.foldl_append]
  exact ⟨_, rfl⟩

/-- A line number below the place to write next counts back from there. -/
theorem scrollBufferGet_recent (buffer : ScrollBuffer) (lineNumber : Nat)
    (recent : lineNumber < buffer.bufferEnd) :
    scrollBufferGet buffer lineNumber = buffer.slots[buffer.bufferEnd - 1 - lineNumber]? := by
  have idx : (buffer.bufferEnd : Int) - lineNumber - 1 =
      ((buffer.bufferEnd - 1 - lineNumber : Nat) : Int) := by omega
  unfold scrollBufferGet
  rw [idx]
  dsimp only
  rw [if_neg (Int.not_lt.mpr (Int.natCast_nonneg _)), if_neg (by omega), Int.toNat_natCast]

/-- Any other line number counts back once around. -/
theorem scrollBufferGet_wrapped (buffer : ScrollBuffer) (lineNumber : Nat)
    (wrapped : buffer.bufferEnd ≤ lineNumber)
    (inside : lineNumber < scrollBufferInitialSize + buffer.bufferEnd) :
    scrollBufferGet buffer lineNumber =
      buffer.slots[scrollBufferInitialSize + buffer.bufferEnd - 1 - lineNumber]? := by
  have below : (buffer.bufferEnd : Int) - lineNumber - 1 < 0 := by omega
  have idx : (scrollBufferInitialSize : Int) + ((buffer.bufferEnd : Int) - lineNumber - 1) =
      ((scrollBufferInitialSize + buffer.bufferEnd - 1 - lineNumber : Nat) : Int) := by omega
  unfold scrollBufferGet
  dsimp only
  rw [if_pos below, idx, if_neg (by omega), Int.toNat_natCast]

/-- The slot so many slots before the last one, in the order of the pushes. -/
theorem scrollBufferGet_eq_unrolled (buffer : ScrollBuffer) (lineNumber : Nat)
    (inside : lineNumber < scrollBufferInitialSize) :
    scrollBufferGet buffer lineNumber =
      buffer.ring.unrolled[scrollBufferInitialSize - 1 - lineNumber]? := by
  rw [Ring.getElem?_unrolled _ _ inside]
  by_cases recent : lineNumber < buffer.bufferEnd
  · rw [scrollBufferGet_recent buffer lineNumber recent,
      if_pos (show lineNumber < buffer.ring.next from recent)]
    rfl
  · rw [scrollBufferGet_wrapped buffer lineNumber (by omega) (by omega),
      if_neg (show ¬ lineNumber < buffer.ring.next from recent)]
    rfl

/-- The line number of the size of the buffer is read once around. -/
theorem scrollBufferGet_size (buffer : ScrollBuffer) (pushed : 0 < buffer.bufferEnd) :
    scrollBufferGet buffer scrollBufferInitialSize = scrollBufferGet buffer 0 := by
  rw [scrollBufferGet_recent buffer 0 pushed,
    scrollBufferGet_wrapped buffer _ buffer.inside (by omega)]
  congr 1
  omega

theorem scrollBufferPushAll_bufferEnd (history : List Line) (buffer : ScrollBuffer)
    (pushed : scrollBufferPushAll none history = some buffer) : 0 < buffer.bufferEnd := by
  rcases List.eq_nil_or_concat history with rfl | ⟨front, last, rfl⟩
  · cases pushed
  · rw [List.concat_eq_append, scrollBufferPushAll, List.foldl_append] at pushed
    obtain rfl := Option.some.inj pushed
    exact Nat.succ_pos _

/-- **The ring remembers.** After any pushes, the slot so many slots before the last
one holds the line pushed so many pushes before the last one; if there was none, it
is NULL. -/
theorem scrollBufferGet_pushAll (history : List Line) (buffer : ScrollBuffer)
    (pushed : scrollBufferPushAll none history = some buffer) (lineNumber : Nat)
    (inside : lineNumber < scrollBufferInitialSize) :
    scrollBufferGet buffer lineNumber =
      some ((history.reverse[lineNumber]?.map storedLine).getD (none, 0)) := by
  have unrolled := unrolled_scrollBufferPushAll history
  rw [pushed, Option.getD_some] at unrolled
  rw [scrollBufferGet_eq_unrolled _ _ inside, unrolled, List.rtake, List.getElem?_drop,
    List.length_append, List.length_replicate, List.length_map, Nat.add_sub_cancel_left]
  by_cases older : lineNumber < history.length
  · have inHistory : history.length - 1 - lineNumber < history.length := by omega
    have place : history.length + (scrollBufferInitialSize - 1 - lineNumber) -
        scrollBufferInitialSize = history.length - 1 - lineNumber := by omega
    rw [List.getElem?_append_right (by rw [List.length_replicate]; omega), List.length_replicate,
      place, List.getElem?_map, List.getElem?_reverse older,
      List.getElem?_eq_getElem inHistory]
    rfl
  · rw [List.getElem?_append_left (by rw [List.length_replicate]; omega), List.getElem?_replicate,
      if_pos (by omega), List.getElem?_eq_none (by rw [List.length_reverse]; omega)]
    rfl

end Hackterm
