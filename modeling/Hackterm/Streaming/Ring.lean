import Hackterm.Streaming.Window
import Mathlib.Data.List.Rotate
import Mathlib.Algebra.GroupWithZero.Nat

/-! # Ring buffers

A ring has a fixed number of slots and a place to write next. Read from that place
on, once around, its slots are the last elements written, oldest first
(`Streaming.Ring.unrolled_pushAll`), so a ring is a full window over a stream that
began with the initial contents of its slots.
-/

namespace Streaming

/-- A number of slots, and the place after the slot written last. -/
structure Ring (α : Type*) (size : Nat) where
  slots : List α
  next : Nat
  sized : slots.length = size
  inside : next ≤ size

namespace Ring

variable {α : Type*} {size : Nat}

/-- The slots from the place to write next on, once around. -/
def unrolled (ring : Ring α size) : List α := ring.slots.rotate ring.next

/-- The slot to write next. -/
def slot (ring : Ring α size) : Nat := if size ≤ ring.next then 0 else ring.next

theorem slot_lt [NeZero size] (ring : Ring α size) : ring.slot < size := by
  unfold slot
  split
  · exact Nat.pos_of_ne_zero (NeZero.ne size)
  · omega

/-- Write an element. -/
def push [NeZero size] (ring : Ring α size) (element : α) : Ring α size where
  slots := ring.slots.set ring.slot element
  next := ring.slot + 1
  sized := by rw [List.length_set, ring.sized]
  inside := ring.slot_lt

/-- Write the elements of a list, in order. -/
def pushAll [NeZero size] (ring : Ring α size) (elements : List α) : Ring α size :=
  elements.foldl push ring

@[simp] theorem length_unrolled (ring : Ring α size) : ring.unrolled.length = size := by
  rw [unrolled, List.length_rotate, ring.sized]

theorem unrolled_slot (ring : Ring α size) : ring.unrolled = ring.slots.rotate ring.slot := by
  unfold unrolled slot
  split
  · rename_i wrapped
    have last : ring.next = ring.slots.length := by
      rw [ring.sized]
      exact Nat.le_antisymm ring.inside wrapped
    rw [last, List.rotate_length, List.rotate_zero]
  · rfl

/-- The oldest element is overwritten. -/
theorem unrolled_push [NeZero size] (ring : Ring α size) (element : α) :
    (ring.push element).unrolled = (ring.unrolled ++ [element]).rtake size := by
  have below : ring.slot < ring.slots.length := ring.slot_lt.trans_eq ring.sized.symm
  have written : (ring.slots.set ring.slot element).take (ring.slot + 1) =
      ring.slots.take ring.slot ++ [element] := by
    rw [List.take_succ_eq_append_getElem (by simpa using below), List.take_set_of_le le_rfl,
      List.getElem_set_self]
  have before : ring.unrolled =
      ring.slots.drop ring.slot ++ ring.slots.take ring.slot := by
    rw [unrolled_slot, List.rotate_eq_drop_append_take below.le]
  have length := ring.length_unrolled
  rw [List.rtake, List.length_append, length, List.length_singleton, Nat.add_sub_cancel_left,
    before, List.append_assoc, List.drop_append_of_le_length (by rw [List.length_drop]; omega),
    List.drop_drop]
  have after : (ring.push element).unrolled =
      (ring.slots.set ring.slot element).rotate (ring.slot + 1) := rfl
  rw [after, List.rotate_eq_drop_append_take (by rw [List.length_set]; omega), written,
    List.drop_set_of_lt (Nat.lt_succ_self _)]

/-- **A ring holds the last elements written.** -/
theorem unrolled_pushAll [NeZero size] (ring : Ring α size) (elements : List α) :
    (ring.pushAll elements).unrolled = (ring.unrolled ++ elements).rtake size := by
  induction elements generalizing ring with
  | nil =>
      rw [pushAll, List.foldl_nil, List.append_nil, rtake_of_length_le _ _ ring.length_unrolled.le]
  | cons element elements ih =>
      rw [pushAll, List.foldl_cons, ← pushAll, ih, unrolled_push, rtake_rtake_append,
        List.append_assoc, List.singleton_append]

/-- The element written so many writes before the last one, and where it stands. -/
theorem getElem?_unrolled (ring : Ring α size) (back : Nat) (inside : back < size) :
    ring.unrolled[size - 1 - back]? =
      ring.slots[if back < ring.next then ring.next - 1 - back
        else size + ring.next - 1 - back]? := by
  have room := ring.inside
  rw [unrolled, List.getElem?_rotate (by rw [ring.sized]; omega), ring.sized]
  congr 1
  split
  · rw [show size - 1 - back + ring.next = ring.next - 1 - back + size by omega,
      Nat.add_mod_right, Nat.mod_eq_of_lt (by omega)]
  · rw [Nat.mod_eq_of_lt (by omega)]
    omega

end Ring

end Streaming
