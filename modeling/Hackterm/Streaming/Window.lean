import Mathlib.Data.List.DropRight

/-! # Bounded windows over a stream

A window keeps the latest elements of a stream, at most a fixed number of them.
It is filled one element at a time, the oldest element leaving when the window
is full (`Streaming.Window.push`). Whatever the order of calls, a window holds
exactly the last elements of what was pushed (`Streaming.Window.pushAll_contents`).
-/

namespace Streaming

variable {α : Type*}

/-- The last elements of a list end with any list that fits. -/
theorem rtake_append_of_le (front back : List α) (count : Nat) (fits : back.length ≤ count) :
    (front ++ back).rtake count = front.rtake (count - back.length) ++ back := by
  simp only [List.rtake, List.length_append]
  rw [List.drop_append_of_le_length (by omega)]
  congr 2
  omega

/-- What does not fit leaves no trace of what came before it. -/
theorem rtake_append_of_ge (front back : List α) (count : Nat) (full : count ≤ back.length) :
    (front ++ back).rtake count = back.rtake count := by
  simp only [List.rtake, List.length_append]
  rw [List.drop_append, List.drop_eq_nil_of_le (by omega), List.nil_append]
  congr 1
  omega

theorem rtake_of_length_le (list : List α) (count : Nat) (fits : list.length ≤ count) :
    list.rtake count = list := by
  rw [List.rtake, Nat.sub_eq_zero_of_le fits, List.drop_zero]

@[simp] theorem length_rtake (list : List α) (count : Nat) :
    (list.rtake count).length = min count list.length := by
  rw [List.rtake, List.length_drop]
  omega

/-- Forgetting in two steps is forgetting at once. -/
theorem rtake_rtake_append (front back : List α) (count : Nat) :
    (front.rtake count ++ back).rtake count = (front ++ back).rtake count := by
  simp only [List.rtake, List.length_append, List.length_drop, List.drop_append, List.drop_drop]
  congr 2 <;> omega

theorem rtake_suffix (list : List α) (count : Nat) : list.rtake count <:+ list :=
  List.drop_suffix _ _

/-- At most `capacity` elements of a stream, oldest first. -/
structure Window (α : Type*) (capacity : Nat) where
  contents : List α
  bounded : contents.length ≤ capacity

namespace Window

variable {capacity : Nat}

/-- The window before the stream. -/
def empty : Window α capacity := ⟨[], Nat.zero_le _⟩

/-- Take an element in; from a full window the oldest leaves. -/
def push (window : Window α capacity) (element : α) : Window α capacity :=
  if room : window.contents.length < capacity then
    ⟨window.contents ++ [element], by rwa [List.length_append]⟩
  else
    ⟨(window.contents ++ [element]).drop 1, by
      have full := window.bounded
      rw [List.length_drop, List.length_append, List.length_singleton]
      omega⟩

/-- Take the elements of a list in, in order. -/
def pushAll (window : Window α capacity) (elements : List α) : Window α capacity :=
  elements.foldl push window

@[simp] theorem contents_empty : (empty : Window α capacity).contents = [] := rfl

theorem push_contents (window : Window α capacity) (element : α) :
    (window.push element).contents = (window.contents ++ [element]).rtake capacity := by
  have full := window.bounded
  unfold push
  split
  · rw [rtake_of_length_le _ _ (by simp; omega)]
  · rw [List.rtake, List.length_append, List.length_singleton,
      show window.contents.length + 1 - capacity = 1 by omega]

/-- **A window holds the last elements pushed.** -/
theorem pushAll_contents (window : Window α capacity) (elements : List α) :
    (window.pushAll elements).contents = (window.contents ++ elements).rtake capacity := by
  induction elements generalizing window with
  | nil =>
      rw [pushAll, List.foldl_nil, List.append_nil, rtake_of_length_le _ _ window.bounded]
  | cons element elements ih =>
      rw [pushAll, List.foldl_cons, ← pushAll, ih, push_contents, rtake_rtake_append,
        List.append_assoc, List.singleton_append]

end Window

end Streaming
