import Mathlib.Data.List.Basic
import Mathlib.Data.List.Forall2

/-! # Lines joined by a separator

Lines joined by a separator do not determine the lines, as a line may hold the
separator itself. They do where the lines of one text hold it no more often than the
lines of the other (`Streaming.lines_eq_of_count_le`).
-/

namespace Streaming

variable {α : Type*}

/-- All lines but the last are followed by the separator. -/
theorem intercalate_concat (separator : α) (front : List (List α)) (last : List α) :
    [separator].intercalate (front ++ [last]) = front.flatMap (· ++ [separator]) ++ last := by
  induction front with
  | nil => simp
  | cons line front ih =>
      cases front with
      | nil => simp [List.intercalate]
      | cons next front =>
          rw [List.cons_append, List.cons_append, List.intercalate_cons_cons, ← List.cons_append,
            ih, List.flatMap_cons]
          simp

/-- Lines are joined as their elements are mapped. -/
theorem map_intercalate {β : Type*} (f : α → β) (separator : α) (lines : List (List α)) :
    ([separator].intercalate lines).map f = [f separator].intercalate (lines.map (List.map f)) := by
  rcases List.eq_nil_or_concat lines with rfl | ⟨front, last, rfl⟩
  · simp
  · rw [List.concat_eq_append, List.map_append, List.map_singleton, intercalate_concat,
      intercalate_concat, List.map_append, List.map_flatMap, List.flatMap_map]
    simp

/-- Shorter lines are joined to a shorter text. -/
theorem intercalate_sublist (separator : α) {first second : List (List α)}
    (shorter : List.Forall₂ List.Sublist first second) :
    ([separator].intercalate first).Sublist ([separator].intercalate second) := by
  induction shorter with
  | nil => exact List.Sublist.refl _
  | cons here later ih =>
      cases later with
      | nil => simpa [List.intercalate] using here
      | cons next others =>
          rw [List.intercalate_cons_cons, List.intercalate_cons_cons]
          exact (here.append (List.Sublist.refl _)).append ih

/-- The joined text holds the separator and what the lines hold. -/
theorem mem_intercalate {separator x : α} {lines : List (List α)}
    (member : x ∈ [separator].intercalate lines) : x = separator ∨ ∃ line ∈ lines, x ∈ line := by
  rcases List.eq_nil_or_concat lines with rfl | ⟨front, last, rfl⟩
  · simp at member
  · rw [List.concat_eq_append, intercalate_concat, List.mem_append, List.mem_flatMap] at member
    rcases member with ⟨line, inFront, here⟩ | inLast
    · rcases List.mem_append.mp here with inLine | same
      · exact Or.inr ⟨line, by simp [inFront], inLine⟩
      · exact Or.inl (List.mem_singleton.mp same)
    · exact Or.inr ⟨last, by simp, inLast⟩

/-- Lines that hold the separator no more often do so joined as well. -/
theorem count_intercalate_le [BEq α] (separator : α) {first second : List (List α)}
    (fewer : List.Forall₂ (fun x y => x.count separator ≤ y.count separator) first second) :
    ([separator].intercalate first).count separator ≤
      ([separator].intercalate second).count separator := by
  induction fewer with
  | nil => exact Nat.le_refl _
  | cons here later ih =>
      cases later with
      | nil => simpa [List.intercalate] using here
      | cons next others =>
          rw [List.intercalate_cons_cons, List.intercalate_cons_cons]
          simp only [List.count_append] at ih ⊢
          omega

/-- **Lines from their text.** Lines that hold the separator no more often than the lines
of the same text are these lines. -/
theorem lines_eq_of_count_le [BEq α] [LawfulBEq α] (separator : α) {first second : List (List α)}
    (fewer : List.Forall₂ (fun x y => x.count separator ≤ y.count separator) first second)
    (same : [separator].intercalate first = [separator].intercalate second) : first = second := by
  induction fewer with
  | nil => rfl
  | @cons x y xs ys here later ih =>
      cases later with
      | nil => simpa [List.intercalate] using same
      | @cons x' y' xs ys next others =>
          have rest := count_intercalate_le separator (.cons next others)
          rw [List.intercalate_cons_cons, List.intercalate_cons_cons, List.append_assoc,
            List.append_assoc, List.singleton_append, List.singleton_append] at same
          rcases List.append_eq_append_iff.mp same with ⟨middle, longer, behind⟩ |
            ⟨middle, longer, behind⟩
          · cases middle with
            | nil =>
                obtain rfl : y = x := by simpa using longer
                have tails := ih (by simpa using behind)
                rw [tails]
            | cons head middle =>
                rw [List.cons_append] at behind
                obtain ⟨rfl, tails⟩ := List.cons_eq_cons.mp behind
                have counted := congrArg (List.count separator) tails
                rw [List.count_append, List.count_cons_self] at counted
                omega
          · cases middle with
            | nil =>
                obtain rfl : x = y := by simpa using longer
                have tails := ih (by simpa using behind.symm)
                rw [tails]
            | cons head middle =>
                obtain ⟨rfl, -⟩ := List.cons_eq_cons.mp behind
                rw [longer, List.count_append, List.count_cons_self] at here
                omega

end Streaming
