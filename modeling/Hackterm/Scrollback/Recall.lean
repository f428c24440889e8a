import Hackterm.Scrollback.Buffer

/-! # What the scrollback recalls

The buffer as a list of the lines pushed last, and no older ones. Every line number
below the size of the buffer reads the list, and a line is forgotten when there are as
many newer ones as the buffer has slots (`Hackterm.scrollBuffer_recalls`).
-/

namespace Hackterm

/-- What `scroll_buffer_get` answers for every line number below the size of the buffer. -/
def recalled (buffer : Option ScrollBuffer) : List (Option (Option Line × Nat)) :=
  (List.range (scrollBufferSize buffer)).map fun lineNumber =>
    buffer.bind (scrollBufferGet · lineNumber)

theorem recalled_pushAll (history : List Line) (present : history ≠ []) :
    recalled (scrollBufferPushAll none history) =
      (List.range scrollBufferInitialSize).map fun lineNumber =>
        some ((history.reverse[lineNumber]?.map storedLine).getD (none, 0)) := by
  obtain ⟨buffer, pushed⟩ := scrollBufferPushAll_isSome history present
  rw [pushed]
  apply List.map_congr_left
  intro lineNumber member
  exact scrollBufferGet_pushAll history buffer pushed lineNumber (List.mem_range.mp member)

/-- A line is recalled by its length and its cells alike. -/
theorem storedLine_injective : Function.Injective storedLine := by
  intro first second same
  exact Option.some.inj (congrArg Prod.fst same)

/-- A line of the history bears on what is recalled as long as there are fewer newer lines
than slots. -/
theorem recalled_set_iff (history : List Line) (i : Nat) (inside : i < history.length) :
    (∀ other, recalled (scrollBufferPushAll none (history.set i other)) =
        recalled (scrollBufferPushAll none history)) ↔
      scrollBufferInitialSize ≤ history.length - 1 - i := by
  have present : history ≠ [] := List.ne_nil_of_length_pos (by omega)
  have changed : ∀ other, history.set i other ≠ [] := fun other =>
    List.ne_nil_of_length_pos (by rw [List.length_set]; omega)
  constructor
  · intro forgotten
    by_contra remembered
    let cell : VTermScreenCell :=
      ⟨[], 1, ⟨⟨0, 0, 0⟩, ⟨0, 0, 0⟩, false, 0, false, false, false, false, 0⟩⟩
    have read : ∀ other, (recalled (scrollBufferPushAll none (history.set i other)))[
        history.length - 1 - i]? = some (some (storedLine other)) := by
      intro other
      have place : (history.set i other).length - 1 - (history.length - 1 - i) = i := by
        rw [List.length_set]
        omega
      rw [recalled_pushAll _ (changed other), List.getElem?_map,
        List.getElem?_range (Nat.not_le.mp remembered), Option.map_some,
        List.getElem?_reverse (by rw [List.length_set]; omega), place,
        List.getElem?_set_self inside]
      rfl
    have same := (read []).symm.trans ((congrArg (·[history.length - 1 - i]?)
      ((forgotten []).trans (forgotten [cell]).symm)).trans (read [cell]))
    cases storedLine_injective (Option.some.inj (Option.some.inj same))
  · intro newer other
    rw [recalled_pushAll _ present, recalled_pushAll _ (changed other)]
    apply List.map_congr_left
    intro lineNumber member
    have below := List.mem_range.mp member
    rw [List.getElem?_reverse (by rw [List.length_set]; omega), List.length_set,
      List.getElem?_reverse (by omega), List.getElem?_set_ne (by omega)]

/-- **The scrollback is a bounded list.** After any pushes to the buffer that was not
allocated yet, each line number below its size reads the line pushed so many pushes
before the last one, or no line and the length 0 if there was none. A line is forgotten
exactly when as many newer ones exist as the buffer has slots, and the place to write next
lies between 1 and the size of the buffer. -/
theorem scrollBuffer_recalls (history : List Line) (buffer : ScrollBuffer)
    (pushed : scrollBufferPushAll none history = some buffer) :
    (∀ lineNumber < scrollBufferSize (some buffer),
      (history.length < lineNumber + 1 → scrollBufferGet buffer lineNumber = some (none, 0)) ∧
        ∀ older : lineNumber < history.length,
          scrollBufferGet buffer lineNumber =
            some (some history[history.length - 1 - lineNumber],
              history[history.length - 1 - lineNumber].length)) ∧
      (∀ i < history.length,
        (∀ other, recalled (scrollBufferPushAll none (history.set i other)) =
            recalled (some buffer)) ↔
          scrollBufferSize (some buffer) ≤ history.length - 1 - i) ∧
      1 ≤ buffer.bufferEnd ∧ buffer.bufferEnd ≤ scrollBufferSize (some buffer) := by
  refine ⟨fun lineNumber inside => ?_, fun i inside => ?_, ?_, buffer.inside⟩
  · rw [scrollBufferGet_pushAll history buffer pushed lineNumber inside]
    refine ⟨fun few => ?_, fun older => ?_⟩
    · rw [List.getElem?_eq_none (by rw [List.length_reverse]; omega)]
      rfl
    · rw [List.getElem?_reverse older, List.getElem?_eq_getElem]
      rfl
  · have bears := recalled_set_iff history i inside
    rw [pushed] at bears
    exact bears
  · exact scrollBufferPushAll_bufferEnd history buffer pushed

/-- Behind two pushes the first line is found at the number 1, and none at the number 2. -/
theorem scrollBuffer_recalls_two :
    ∃ buffer, scrollBufferPushAll none [[letterCell, letterCell], [letterCell]] = some buffer ∧
      scrollBufferGet buffer 0 = some (some [letterCell], 1) ∧
      scrollBufferGet buffer 1 = some (some [letterCell, letterCell], 2) ∧
      scrollBufferGet buffer 2 = some (none, 0) := by
  obtain ⟨buffer, pushed⟩ : ∃ buffer,
    scrollBufferPushAll none [[letterCell, letterCell], [letterCell]] = some buffer := ⟨_, rfl⟩
  have recalls := (scrollBuffer_recalls [[letterCell, letterCell], [letterCell]] buffer pushed).1
  have size : scrollBufferSize (some buffer) = 10000 := by
    rw [scrollBufferSize, Option.isSome_some, if_pos rfl, scrollBufferInitialSize]
  exact ⟨buffer, pushed, (recalls 0 (by omega)).2 (by decide), (recalls 1 (by omega)).2 (by decide),
    (recalls 2 (by omega)).1 (by decide)⟩

end Hackterm
