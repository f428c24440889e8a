import Mathlib.Data.List.Basic
import Mathlib.Data.List.Infix

/-! # Words in a text

A word occurs in a text at the offsets where the rest of the text begins with it
(`Streaming.OccursAt`). A word none of whose proper suffixes begins it is
*unbordered*, and its occurrences do not overlap. So a text that is followed by
such a word has no occurrence but its own ones before the end of that word
(`Streaming.OccursAt.of_append_word`). The last place of a text where one of several
words stands is the last hit of a scan (`Streaming.lastHit`).
-/

namespace Streaming

variable {α : Type*}

/-- The word stands in the text at the offset. -/
def OccursAt (word text : List α) (offset : Nat) : Prop := word <+: text.drop offset

/-- The word stands somewhere in the text. -/
def Occurs (word text : List α) : Prop := ∃ offset, OccursAt word text offset

/-- No proper suffix of the word begins it. -/
def Unbordered (word : List α) : Prop :=
  ∀ shift < word.length, 0 < shift → ¬ word.drop shift <+: word

instance [DecidableEq α] (word text : List α) (offset : Nat) :
    Decidable (OccursAt word text offset) :=
  inferInstanceAs (Decidable (word <+: text.drop offset))

instance [DecidableEq α] (word : List α) : Decidable (Unbordered word) :=
  inferInstanceAs (Decidable (∀ shift < word.length, 0 < shift → ¬ word.drop shift <+: word))

theorem OccursAt.le_length {word text : List α} {offset : Nat} (present : word ≠ [])
    (occurs : OccursAt word text offset) : offset + word.length ≤ text.length := by
  have shorter := occurs.length_le
  have positive := List.length_pos_iff.mpr present
  rw [List.length_drop] at shorter
  omega

/-- A word occurs where it was written. -/
theorem occursAt_append (front word back : List α) :
    OccursAt word (front ++ word ++ back) front.length := by
  rw [OccursAt, List.append_assoc, List.drop_left]
  exact List.prefix_append _ _

/-- An occurrence that ends inside a prefix of the text is one of the prefix. -/
theorem OccursAt.of_append_left {word front back : List α} {offset : Nat}
    (occurs : OccursAt word (front ++ back) offset)
    (inside : offset + word.length ≤ front.length) : OccursAt word front offset := by
  rw [OccursAt, List.drop_append_of_le_length (by omega)] at occurs
  exact List.prefix_of_prefix_length_le occurs (List.prefix_append _ _)
    (by rw [List.length_drop]; omega)

theorem OccursAt.append_right {word front : List α} {offset : Nat} (back : List α)
    (present : word ≠ []) (occurs : OccursAt word front offset) :
    OccursAt word (front ++ back) offset := by
  have inside := occurs.le_length present
  rw [OccursAt, List.drop_append_of_le_length (by omega)]
  exact occurs.trans (List.prefix_append _ _)

/-- An occurrence in a suffix of a text is one of the text. -/
theorem OccursAt.of_suffix {word text suffix : List α} {offset : Nat} (ends : suffix <:+ text)
    (occurs : OccursAt word suffix offset) :
    OccursAt word text (text.length - suffix.length + offset) := by
  obtain ⟨front, rfl⟩ := ends
  rw [OccursAt, List.length_append, Nat.add_sub_cancel, List.drop_append,
    List.drop_eq_nil_of_le (by omega), List.nil_append, Nat.add_sub_cancel_left]
  exact occurs

theorem Occurs.of_suffix {word text suffix : List α} (ends : suffix <:+ text)
    (occurs : Occurs word suffix) : Occurs word text :=
  occurs.imp' _ fun _ => OccursAt.of_suffix ends

/-- A word does not occur in a shorter text. -/
theorem not_occurs_of_length_lt {word text : List α} (short : text.length < word.length) :
    ¬ Occurs word text := by
  rintro ⟨offset, occurs⟩
  have present : word ≠ [] := by
    rintro rfl
    simp at short
  have inside := occurs.le_length present
  omega

/-- **Occurrences of an unbordered word do not overlap.** Before the place where
the word was written, it occurs only in the text in front of that place. -/
theorem OccursAt.of_append_word {word front back : List α} {offset : Nat}
    (unbordered : Unbordered word) (occurs : OccursAt word (front ++ word ++ back) offset)
    (before : offset < front.length) : OccursAt word front offset := by
  by_cases inside : offset + word.length ≤ front.length
  · rw [List.append_assoc] at occurs
    exact occurs.of_append_left inside
  · -- the two occurrences share a part, which is a border
    have shared : word.drop (front.length - offset) <+: word ++ back := by
      have overlap := occurs.drop (front.length - offset)
      rwa [List.drop_drop, Nat.add_sub_cancel' (by omega), List.append_assoc, List.drop_left]
        at overlap
    have border : word.drop (front.length - offset) <+: word :=
      List.prefix_of_prefix_length_le shared (List.prefix_append _ _)
        (by rw [List.length_drop]; omega)
    exact absurd border (unbordered _ (by omega) (by omega))

/-- The value at the last place below a bound where there is one. -/
def lastHit {β : Type*} (hit : Nat → Option β) : Nat → Option β
  | 0 => none
  | bound + 1 => (hit bound).or (lastHit hit bound)

theorem lastHit_eq_some_iff {β : Type*} (hit : Nat → Option β) (bound : Nat) (value : β) :
    lastHit hit bound = some value ↔
      ∃ place < bound, hit place = some value ∧
        ∀ later < bound, place < later → hit later = none := by
  induction bound with
  | zero => simp [lastHit]
  | succ bound ih =>
      rw [lastHit]
      cases here : hit bound with
      | none =>
          rw [Option.none_or, ih]
          constructor
          · rintro ⟨place, below, found, none_later⟩
            refine ⟨place, Nat.lt_succ_of_lt below, found, ?_⟩
            intro later inside behind
            rcases Nat.lt_succ_iff_lt_or_eq.mp inside with earlier | rfl
            · exact none_later later earlier behind
            · exact here
          · rintro ⟨place, inside, found, none_later⟩
            rcases Nat.lt_succ_iff_lt_or_eq.mp inside with below | rfl
            · exact ⟨place, below, found, fun later earlier => none_later later (by omega)⟩
            · rw [here] at found
              cases found
      | some other =>
          rw [Option.some_or]
          constructor
          · intro same
            exact ⟨bound, Nat.lt_succ_self _, here.trans same, fun later inside behind => by omega⟩
          · rintro ⟨place, inside, found, none_later⟩
            rcases Nat.lt_succ_iff_lt_or_eq.mp inside with below | rfl
            · rw [none_later bound (Nat.lt_succ_self _) below] at here
              cases here
            · exact here.symm.trans found

/-- A hit has a last one. -/
theorem lastHit_isSome {β : Type*} (hit : Nat → Option β) (bound place : Nat) (value : β)
    (below : place < bound) (found : hit place = some value) :
    ∃ last, lastHit hit bound = some last := by
  induction bound with
  | zero => cases below
  | succ bound ih =>
      rw [lastHit]
      cases here : hit bound with
      | some other => exact ⟨other, Option.some_or⟩
      | none =>
          rcases Nat.lt_succ_iff_lt_or_eq.mp below with earlier | rfl
          · rw [Option.none_or]
            exact ih earlier
          · rw [here] at found
            cases found

end Streaming
