import Hackterm.CString.CharArray
import Hackterm.Bits.CInt
import Hackterm.Inline.Calls
import Mathlib.Data.List.Find

/-! # The window in its array

The latest bytes of the text stand at the front of a fixed array. While there is room a
byte is written behind them, and once the array is full all bytes are first moved to the
front by one. In this way the array keeps a window over the text
(`Hackterm.TextBuffer.bufferPushByte_window`), whatever stood in it before
(`Hackterm.bufferPush_latest`). The search compares bytes of the array with a word. It
stops one place too early, and does not find a word that ends the window
(`Hackterm.bufferSearch_exact_iff`).
-/

namespace Hackterm

open Streaming CString

/-- `buffer` and `buffer_size`. -/
structure TextBuffer where
  buffer : CharArray bufferSize
  size : Nat
  bounded : size ≤ bufferSize

namespace TextBuffer

/-- The bytes that count: those below `buffer_size`. -/
def window (st : TextBuffer) : Window UInt8 bufferSize where
  contents := st.buffer.bytes.take st.size
  bounded := by
    rw [List.length_take]
    exact Nat.le_trans (Nat.min_le_left _ _) st.bounded

/-- `buffer_shift`. -/
def bufferShift (st : TextBuffer) : Option TextBuffer := do
  let buffer ← st.buffer.moveDown (bufferSize - 1)
  return { st with buffer }

/-- The body of the loop of `buffer_push`. -/
def bufferPushByte (st : TextBuffer) (byte : UInt8) : Option TextBuffer :=
  if room : st.size < bufferSize then do
    let buffer ← st.buffer.store st.size byte
    return ⟨buffer, st.size + 1, room⟩
  else do
    let st ← st.bufferShift
    let buffer ← st.buffer.store (bufferSize - 1) byte
    return { st with buffer }

/-- `buffer_push`. -/
def bufferPush (st : TextBuffer) (data : List UInt8) : Option TextBuffer :=
  data.foldlM bufferPushByte st

/-- `buffer_clear`. -/
def bufferClear (st : TextBuffer) : TextBuffer := ⟨st.buffer, 0, Nat.zero_le _⟩

theorem length_window (st : TextBuffer) : st.window.contents.length = st.size := by
  rw [window, List.length_take, st.buffer.sized, Nat.min_eq_left st.bounded]

@[simp]
theorem window_bufferClear (st : TextBuffer) : st.bufferClear.window = Window.empty := rfl

/-- A shift loses the first byte. -/
theorem bufferShift_bytes (st : TextBuffer) :
    ∃ after, st.bufferShift = some after ∧ after.size = st.size ∧
      after.buffer.bytes.take (bufferSize - 1) = st.buffer.bytes.drop 1 := by
  obtain ⟨buffer, moved, bytes_eq⟩ :=
    st.buffer.moveDown_bytes (show bufferSize - 1 < bufferSize by decide)
  have whole : (st.buffer.bytes.drop 1).length = bufferSize - 1 := by
    rw [List.length_drop, st.buffer.sized]
  refine ⟨{ st with buffer }, ?_, rfl, ?_⟩
  · rw [bufferShift, moved]
    rfl
  · dsimp only
    rw [bytes_eq, List.take_of_length_le (Nat.le_of_eq whole),
      List.take_left' whole]

theorem bufferPushByte_window_room {st : TextBuffer} (byte : UInt8) (room : st.size < bufferSize) :
    ∃ after, st.bufferPushByte byte = some after ∧ after.window = st.window.push byte := by
  obtain ⟨buffer, stored⟩ := st.buffer.exists_store room byte
  refine ⟨⟨buffer, st.size + 1, room⟩, ?_, ?_⟩
  · rw [bufferPushByte, dif_pos room, stored]
    rfl
  · have fits : st.window.contents.length < bufferSize := st.length_window.symm ▸ room
    have inside : st.size < st.buffer.bytes.length := st.buffer.sized.symm ▸ room
    rw [Window.push, dif_pos fits]
    simp only [window, Window.mk.injEq]
    rw [(CharArray.store_eq_some_iff.mp stored).2, List.take_set,
      List.take_succ_eq_append_getElem inside, List.set_append_right _ _ (by simp)]
    simp [Nat.min_eq_left (Nat.le_of_lt inside)]

theorem bufferPushByte_window_full {st : TextBuffer} (byte : UInt8)
    (full : ¬ st.size < bufferSize) :
    ∃ after, st.bufferPushByte byte = some after ∧ after.window = st.window.push byte := by
  have size_eq : st.size = bufferSize := Nat.le_antisymm st.bounded (Nat.not_lt.mp full)
  obtain ⟨shifted, moved, kept, bytes_eq⟩ := st.bufferShift_bytes
  obtain ⟨buffer, stored⟩ :=
    shifted.buffer.exists_store (show bufferSize - 1 < bufferSize by decide) byte
  refine ⟨{ shifted with buffer }, ?_, ?_⟩
  · rw [bufferPushByte, dif_neg full, moved]
    simp [stored]
  · have crowded : ¬ st.window.contents.length < bufferSize := st.length_window.symm ▸ full
    have last : shifted.buffer.bytes.set (bufferSize - 1) byte =
        st.buffer.bytes.drop 1 ++ [byte] := by
      have inside : bufferSize - 1 < shifted.buffer.bytes.length := by
        rw [shifted.buffer.sized]
        decide
      have nothing : shifted.buffer.bytes.drop (bufferSize - 1 + 1) = [] := by
        rw [List.drop_eq_nil_iff, shifted.buffer.sized]
        decide
      rw [List.set_eq_take_append_cons_drop, if_pos inside, bytes_eq, nothing]
    rw [Window.push, dif_neg crowded]
    simp only [window, Window.mk.injEq]
    rw [(CharArray.store_eq_some_iff.mp stored).2, last, kept, size_eq,
      List.take_of_length_le (Nat.le_of_eq st.buffer.sized), List.take_of_length_le,
      List.drop_append_of_le_length]
    · rw [st.buffer.sized]
      decide
    · rw [List.length_append, List.length_drop, st.buffer.sized, List.length_singleton]
      decide

/-- **Refinement of a push.** A byte that is pushed enters the window. -/
theorem bufferPushByte_window (st : TextBuffer) (byte : UInt8) :
    ∃ after, st.bufferPushByte byte = some after ∧ after.window = st.window.push byte := by
  by_cases room : st.size < bufferSize
  · exact bufferPushByte_window_room byte room
  · exact bufferPushByte_window_full byte room

/-- Data that is pushed enters the window in order. -/
theorem bufferPush_window (st : TextBuffer) (data : List UInt8) :
    ∃ after, st.bufferPush data = some after ∧ after.window = st.window.pushAll data := by
  induction data generalizing st with
  | nil => exact ⟨st, rfl, rfl⟩
  | cons byte data ih =>
      obtain ⟨middle, pushed, entered⟩ := st.bufferPushByte_window byte
      obtain ⟨after, others, same⟩ := ih middle
      refine ⟨after, ?_, ?_⟩
      · rw [bufferPush, List.foldlM_cons, pushed]
        exact others
      · rw [same, entered]
        rfl

/-- Pushes one after another are one push of all their data. -/
theorem foldlM_bufferPush (st : TextBuffer) (pushes : List (List UInt8)) :
    pushes.foldlM bufferPush st = st.bufferPush pushes.flatten := by
  induction pushes generalizing st with
  | nil => rfl
  | cons data pushes ih =>
      rw [List.foldlM_cons, List.flatten_cons, bufferPush, bufferPush, List.foldlM_append]
      apply bind_congr
      exact ih

end TextBuffer

/-- **The sliding window.** Whatever is in the array, and in whatever calls the data is
pushed after a `buffer_clear`, the array holds the last bytes of the data, as many as there
are or as there is room for. -/
theorem bufferPush_latest (st : TextBuffer) (pushes : List (List UInt8)) :
    ∃ after, pushes.foldlM TextBuffer.bufferPush st.bufferClear = some after ∧
      after.size = min pushes.flatten.length bufferSize ∧
      after.buffer.bytes.take after.size = pushes.flatten.rtake after.size := by
  obtain ⟨after, pushed, entered⟩ := st.bufferClear.bufferPush_window pushes.flatten
  have contents : after.window.contents = pushes.flatten.rtake bufferSize := by
    rw [entered, Window.pushAll_contents, TextBuffer.window_bufferClear, Window.contents_empty,
      List.nil_append]
  have size_eq : after.size = min pushes.flatten.length bufferSize := by
    rw [← after.length_window, contents, length_rtake, Nat.min_comm]
  refine ⟨after, (TextBuffer.foldlM_bufferPush _ _).trans pushed, size_eq, contents.trans ?_⟩
  rw [size_eq]
  rcases Nat.le_total pushes.flatten.length bufferSize with fits | more
  · rw [Nat.min_eq_left fits, rtake_of_length_le _ _ fits, rtake_of_length_le _ _ (Nat.le_refl _)]
  · rw [Nat.min_eq_right more]

/-- The window of a transfer is the one kept in the array. -/
theorem InlineData.bufferPush_buffer {st : TextBuffer} {inline : InlineData}
    (same : inline.buffer = st.window) (data : List UInt8) :
    ∃ after, st.bufferPush data = some after ∧ (inline.bufferPush data).buffer = after.window := by
  obtain ⟨after, pushed, entered⟩ := st.bufferPush_window data
  refine ⟨after, pushed, ?_⟩
  rw [entered, ← same]
  rfl

/-- The comparisons of `buffer_search` from an offset on, with what is left of the array
there. The bound is a `size_t`. -/
def searchFrom (v : List UInt8) (bound n : Nat) (memory : List UInt8) : Option Int :=
  if n < bound then
    match strncmp memory v with
    | none => none
    | some true => some n
    | some false =>
        match memory with
        | [] => none
        | _ :: memory => searchFrom v bound (n + 1) memory
  else some (-1)

/-- `strlen` as an `int`. -/
def intLength (v : List UInt8) : Int := Int.bmod v.length (2 ^ 32)

/-- `buffer_search`. The first difference is one of `int`s, which may overflow, and the
second one of `size_t`s. -/
def TextBuffer.bufferSearch (st : TextBuffer) (v : List UInt8) : Option Int :=
  let difference := st.size - intLength v
  if 2 ^ 31 ≤ difference then none
  else if difference < 0 then some (-1)
  else searchFrom v (sizeT (st.size - v.length)) 0 st.buffer.bytes

/-- The pattern stands in the window at the offset. -/
def TextBuffer.FoundAt (st : TextBuffer) (v : List UInt8) (n : Nat) : Prop :=
  n + v.length ≤ st.size ∧ (st.buffer.bytes.drop n).take v.length = v

/-- The search returns the first offset of the pattern, and `-1` if there is none. -/
def TextBuffer.SearchExact (st : TextBuffer) (v : List UInt8) : Prop :=
  ∃ found, st.bufferSearch v = some found ∧
    (∀ n : Nat, found = n ↔ st.FoundAt v n ∧ ∀ m < n, ¬ st.FoundAt v m) ∧
    (found = -1 ↔ ∀ n, ¬ st.FoundAt v n)

section Search

variable {st : TextBuffer} {v bytes : List UInt8} {bound : Nat}

/-- Inside the array the search tries the offsets below the bound in order. -/
theorem searchFrom_range (fits : bound + v.length ≤ bytes.length) {n count : Nat}
    (rest : n + count = bound) :
    searchFrom v bound n (bytes.drop n) =
      some (((List.range' n count).find? fun m => v.isPrefixOf (bytes.drop m)).elim (-1) (↑)) := by
  induction count generalizing n with
  | zero =>
      rw [searchFrom.eq_def, if_neg (by omega)]
      rfl
  | succ count ih =>
      have inside : n < bytes.length := by omega
      have long : v.length ≤ (bytes.drop n).length := by
        rw [List.length_drop]
        omega
      have later := ih (show n + 1 + count = bound by omega)
      rw [searchFrom.eq_def, if_pos (by omega), strncmp_eq_isPrefixOf long, List.range'_succ,
        List.find?_cons]
      cases v.isPrefixOf (bytes.drop n) with
      | true => rfl
      | false =>
          rw [List.drop_eq_getElem_cons inside]
          exact later

/-- A pattern longer than the memory lets the search leave it. -/
theorem searchFrom_long {memory : List UInt8} {n : Nat} (long : memory.length < v.length)
    (far : n + memory.length < bound) : searchFrom v bound n memory = none := by
  induction memory generalizing n with
  | nil =>
      cases v with
      | nil => cases long
      | cons char v =>
          rw [searchFrom, if_pos (by omega)]
          rfl
  | cons byte memory ih =>
      rw [List.length_cons] at long far
      rw [searchFrom, if_pos (by omega)]
      cases compared : strncmp (byte :: memory) v with
      | none => rfl
      | some equal =>
          cases equal with
          | true =>
              have shorter := (prefix_of_strncmp compared).length_le
              rw [List.length_cons] at shorter
              omega
          | false => exact ih (by omega) (by omega)

/-- What stands in the window stands in the array. -/
theorem TextBuffer.foundAt_iff (n : Nat) :
    st.FoundAt v n ↔ n + v.length ≤ st.size ∧ OccursAt v st.window.contents n := by
  apply and_congr_right
  intro inside
  rw [OccursAt, List.prefix_iff_eq_take, TextBuffer.window, List.drop_take, List.take_take,
    Nat.min_eq_left (by omega), eq_comm]

theorem intLength_eq (short : v.length < 2 ^ 31) : intLength v = v.length := by
  apply Int.bmod_eq_of_le <;> omega

theorem intLength_bounds (v : List UInt8) : -2 ^ 31 ≤ intLength v ∧ intLength v < 2 ^ 31 := by
  unfold intLength
  have above := @Int.le_bmod v.length (2 ^ 32) (by omega)
  have below := @Int.bmod_lt v.length (2 ^ 32) (by omega)
  omega

/-- **Refinement of the search.** For a pattern whose length is an `int`, the search in the
array is the search in the window. -/
theorem TextBuffer.bufferSearch_window (short : v.length < 2 ^ 31) :
    st.bufferSearch v = some ((Hackterm.bufferSearch st.window.contents v).elim (-1) (↑)) := by
  have small := st.bounded
  rw [bufferSize] at small
  rw [TextBuffer.bufferSearch, intLength_eq short, Hackterm.bufferSearch, st.length_window]
  rw [if_neg (by omega)]
  by_cases less : st.size < v.length
  · rw [if_pos (by omega), if_pos less]
    rfl
  · have bound : sizeT (st.size - v.length) = st.size - v.length := by
      rw [sizeT_of_nonneg (by omega) (by omega)]
      omega
    have array : st.size - v.length + v.length ≤ st.buffer.bytes.length := by
      rw [st.buffer.sized, bufferSize]
      omega
    have searched := searchFrom_range array (Nat.zero_add (st.size - v.length))
    rw [List.drop_zero] at searched
    rw [if_neg (by omega), if_neg less, bound, searched, List.range_eq_range']
    congr 2
    apply List.find?_congr
    intro n member
    have inside : n + v.length ≤ st.size := by
      have below := (List.mem_range'_1.mp member).2
      omega
    have same := (st.foundAt_iff n).trans (and_iff_right inside)
    rw [Bool.eq_iff_iff, List.isPrefixOf_iff_prefix, List.isPrefixOf_iff_prefix, ← OccursAt,
      ← OccursAt, ← same, TextBuffer.FoundAt, and_iff_right inside, OccursAt,
      List.prefix_iff_eq_take, eq_comm]

/-- A pattern whose length is no `int` is rejected for its length as an `int`, or lets the
search leave the array. -/
theorem TextBuffer.bufferSearch_long (long : 2 ^ 31 ≤ v.length) (object : v.length < 2 ^ 63) :
    st.bufferSearch v = if st.size < intLength v then some (-1) else none := by
  have small := st.bounded
  rw [bufferSize] at small
  have above := (intLength_bounds v).1
  rw [TextBuffer.bufferSearch]
  by_cases less : st.size < intLength v
  · rw [if_pos less, if_neg (by omega), if_pos (by omega)]
  · rw [if_neg less]
    split
    · rfl
    · rw [if_neg (by omega)]
      apply searchFrom_long
      · rw [st.buffer.sized, bufferSize]
        omega
      · rw [st.buffer.sized, bufferSize, sizeT]
        omega

/-- Two offsets where a pattern is first found are the same. -/
theorem TextBuffer.first_unique {n m : Nat} (found : st.FoundAt v n)
    (first : ∀ k < n, ¬ st.FoundAt v k) (other : st.FoundAt v m)
    (otherFirst : ∀ k < m, ¬ st.FoundAt v k) : n = m := by
  rcases Nat.lt_trichotomy n m with before | same | behind
  · exact absurd found (otherFirst n before)
  · exact same
  · exact absurd other (first m behind)

/-- The search in the window sees all places but the last. -/
theorem TextBuffer.bufferSearch_found_iff (n : Nat) :
    Hackterm.bufferSearch st.window.contents v = some n ↔
      n + v.length < st.size ∧ st.FoundAt v n ∧ ∀ m < n, ¬ st.FoundAt v m := by
  rw [bufferSearch_eq_some_iff, st.length_window]
  apply and_congr_right
  intro inside
  apply and_congr
  · rw [TextBuffer.foundAt_iff, and_iff_right (Nat.le_of_lt inside)]
  · apply forall₂_congr
    intro m before
    rw [TextBuffer.foundAt_iff, and_iff_right (by omega)]

/-- A pattern is found at all places but the last one where it can stand. -/
theorem TextBuffer.bufferSearch_missing_iff :
    Hackterm.bufferSearch st.window.contents v = none ↔
      ∀ n, n + v.length < st.size → ¬ st.FoundAt v n := by
  constructor
  · intro missing n
    induction n using Nat.strong_induction_on with
    | _ n ih =>
        intro inside found
        have first : Hackterm.bufferSearch st.window.contents v = some n :=
          (TextBuffer.bufferSearch_found_iff n).mpr
            ⟨inside, found, fun m before => ih m before (by omega)⟩
        rw [missing] at first
        cases first
  · intro absent
    rw [Option.eq_none_iff_forall_not_mem]
    intro n hit
    obtain ⟨inside, found, -⟩ := (TextBuffer.bufferSearch_found_iff n).mp hit
    exact absent n inside found

/-- With a pattern whose length is an `int`, the search is exact if the pattern stands at
the end of the window only when it also stands before. -/
theorem TextBuffer.searchExact_short (short : v.length < 2 ^ 31) :
    st.SearchExact v ↔
      (st.FoundAt v (st.size - v.length) → ∃ n < st.size - v.length, st.FoundAt v n) := by
  rw [SearchExact, TextBuffer.bufferSearch_window short]
  constructor
  · rintro ⟨found, returned, -, missing⟩ last
    obtain rfl := Option.some.inj returned
    cases hit : Hackterm.bufferSearch st.window.contents v with
    | none =>
        rw [hit] at missing
        exact absurd last (missing.mp rfl _)
    | some n =>
        obtain ⟨inside, here, -⟩ := (TextBuffer.bufferSearch_found_iff n).mp hit
        exact ⟨n, by omega, here⟩
  · intro again
    refine ⟨_, rfl, ?_⟩
    cases hit : Hackterm.bufferSearch st.window.contents v with
    | none =>
        have absent := TextBuffer.bufferSearch_missing_iff.mp hit
        have nowhere : ∀ n, ¬ st.FoundAt v n := by
          intro n found
          rcases Nat.lt_or_eq_of_le found.1 with inside | last
          · exact absent n inside found
          · rw [Nat.eq_sub_of_add_eq last] at found
            obtain ⟨m, before, earlier⟩ := again found
            exact absent m (by omega) earlier
        refine ⟨fun n => iff_of_false ?_ fun first => nowhere n first.1, iff_of_true rfl nowhere⟩
        simp only [Option.elim_none]
        omega
    | some n =>
        obtain ⟨-, here, first⟩ := (TextBuffer.bufferSearch_found_iff n).mp hit
        refine ⟨fun m => ?_, iff_of_false ?_ fun nowhere => nowhere n here⟩
        · rw [Option.elim_some, Int.natCast_inj]
          constructor
          · rintro rfl
            exact ⟨here, first⟩
          · rintro ⟨other, otherFirst⟩
            exact TextBuffer.first_unique here first other otherFirst
        · simp only [Option.elim_some]
          omega

/-- **What the search finds.** The search returns the first place of a pattern in the
window, and `-1` exactly if there is none, unless the pattern stands in the window at its
end only, or its length is no `int` and, as an `int`, does not exceed the size. -/
theorem bufferSearch_exact_iff (st : TextBuffer) (v : List UInt8)
    (object : v.length < 2 ^ 63) :
    st.SearchExact v ↔
      (v.length < 2 ^ 31 ∨ st.size < intLength v) ∧
        (st.FoundAt v (st.size - v.length) → ∃ n < st.size - v.length, st.FoundAt v n) := by
  by_cases short : v.length < 2 ^ 31
  · rw [TextBuffer.searchExact_short short, and_iff_right (Or.inl short)]
  · have small := st.bounded
    rw [bufferSize] at small
    have nowhere : ∀ n, ¬ st.FoundAt v n := by
      rintro n ⟨inside, -⟩
      omega
    rw [TextBuffer.SearchExact, TextBuffer.bufferSearch_long (Nat.not_lt.mp short) object]
    by_cases less : st.size < intLength v
    · rw [if_pos less]
      refine iff_of_true ⟨-1, rfl, fun n => iff_of_false ?_ fun first => nowhere n first.1,
        iff_of_true rfl nowhere⟩ ⟨Or.inr less, fun last => absurd last (nowhere _)⟩
      omega
    · rw [if_neg less]
      refine iff_of_false ?_ fun exact_ => exact_.1.elim short less
      rintro ⟨found, returned, -⟩
      cases returned

end Search

/-- A buffer with a text, behind which the array is still empty. -/
def bufferHolding (text : List UInt8) (fits : text.length ≤ bufferSize) : TextBuffer where
  buffer := ⟨text ++ List.replicate (bufferSize - text.length) 0, by
    rw [List.length_append, List.length_replicate, Nat.add_sub_cancel' fits]⟩
  size := text.length
  bounded := fits

theorem window_bufferHolding (text : List UInt8) (fits : text.length ≤ bufferSize) :
    (bufferHolding text fits).window.contents = text := List.take_left

theorem bufferSearch_exact_command :
    let command := CString.ascii "HTERMFNORMAL"
    let st := bufferHolding (CString.ascii "ok HTERMFNORMAL ") (by decide)
    command.length < 2 ^ 63 ∧ st.SearchExact command := by
  intro command st
  have object : command.length < 2 ^ 63 := Nat.lt_of_le_of_lt (Nat.le_refl 12) (by omega)
  refine ⟨object, (bufferSearch_exact_iff st command object).mpr ⟨Or.inl ?_, ?_⟩⟩
  · exact Nat.lt_of_le_of_lt (Nat.le_refl 12) (by omega)
  · intro last
    rw [TextBuffer.foundAt_iff, window_bufferHolding] at last
    exact absurd last.2 (by decide)

/-- A command that is all of the window is not found. -/
theorem bufferSearch_atEnd_counterexample :
    let command := CString.ascii "HTERMFNORMAL"
    let st := bufferHolding command (by decide)
    st.FoundAt command 0 ∧ st.bufferSearch command = some (-1) ∧ ¬ st.SearchExact command := by
  intro command st
  have short : command.length < 2 ^ 31 := Nat.lt_of_le_of_lt (Nat.le_refl 12) (by omega)
  have here : st.FoundAt command 0 := by
    rw [TextBuffer.foundAt_iff, window_bufferHolding]
    decide
  refine ⟨here, ?_, fun exact_ => ?_⟩
  · rw [TextBuffer.bufferSearch_window short, window_bufferHolding]
    decide
  · obtain ⟨n, before, -⟩ := (TextBuffer.searchExact_short short).mp exact_ here
    exact Nat.not_lt_zero n before

end Hackterm
