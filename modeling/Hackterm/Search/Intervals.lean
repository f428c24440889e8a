import Mathlib.Data.List.Basic
import Mathlib.Order.Lattice

/-! # Bisection in a table of intervals

A table of intervals, each behind the one before it, is searched by halving the range of its
indices (`Search.bisect`). What lies before the range is below the point searched for and
what lies behind it above (`Search.Excludes`), so the search finds exactly the points that
lie in an interval of the table (`Search.bisect_iff`).
-/

namespace Search

variable {α : Type*} [LinearOrder α]

/-- An interval with both its ends. -/
structure Interval (α : Type*) where
  first : α
  last : α
deriving DecidableEq

/-- The point lies in the interval. -/
def Interval.Contains (interval : Interval α) (point : α) : Prop :=
  interval.first ≤ point ∧ point ≤ interval.last

instance (interval : Interval α) (point : α) : Decidable (interval.Contains point) :=
  inferInstanceAs (Decidable (_ ∧ _))

/-- Every interval ends before the next ones begin. -/
structure Ordered (table : List (Interval α)) : Prop where
  apart : table.Pairwise fun one other => one.last < other.first
  proper : ∀ interval ∈ table, interval.first ≤ interval.last

/-- The search between two indices, the second one included. -/
def bisectFrom (table : List (Interval α)) (point : α) : Nat → Int → Int → Bool
  | 0, _, _ => false
  | turns + 1, low, high =>
      if high < low then false
      else
        match table[((low + high) / 2).toNat]? with
        | none => false
        | some interval =>
            if interval.last < point then bisectFrom table point turns ((low + high) / 2 + 1) high
            else if point < interval.first then
              bisectFrom table point turns low ((low + high) / 2 - 1)
            else true

/-- The search in a whole table, which begins with its ends. -/
def bisect (table : List (Interval α)) (point : α) : Bool :=
  match table.head?, table.getLast? with
  | some first, some last =>
      if point < first.first ∨ last.last < point then false
      else bisectFrom table point table.length 0 (table.length - 1)
  | _, _ => false

/-- The intervals outside two indices do not contain the point: those before them are below
it, those behind them above. -/
structure Excludes (table : List (Interval α)) (point : α) (low high : Int) : Prop where
  below : ∀ index (inside : index < table.length), (index : Int) < low → table[index].last < point
  above : ∀ index (inside : index < table.length), high < (index : Int) →
    point < table[index].first

variable {table : List (Interval α)} {point : α} {low high : Int}

theorem Ordered.lt (ordered : Ordered table) {one other : Nat} (before : one < other)
    (inside : other < table.length) :
    table[one].last < table[other].first :=
  List.pairwise_iff_getElem.mp ordered.apart one other (Nat.lt_trans before inside) inside before

/-- Going on behind an interval that is below the point. -/
theorem Excludes.raise (excludes : Excludes table point low high) (ordered : Ordered table)
    {middle : Nat} (inside : middle < table.length) (passed : table[middle].last < point) :
    Excludes table point (middle + 1) high := by
  refine ⟨fun index within before => ?_, excludes.above⟩
  rcases Nat.lt_or_eq_of_le (Nat.le_of_lt_succ (by omega : index < middle + 1)) with less | rfl
  · calc
      table[index].last < table[middle].first := ordered.lt less inside
      _ ≤ table[middle].last := ordered.proper _ (List.getElem_mem inside)
      _ < point := passed
  · exact passed

/-- Going on in front of an interval that is above the point. -/
theorem Excludes.lower (excludes : Excludes table point low high) (ordered : Ordered table)
    {middle : Nat} (inside : middle < table.length) (ahead : point < table[middle].first) :
    Excludes table point low (middle - 1) := by
  refine ⟨excludes.below, fun index within behind => ?_⟩
  rcases Nat.lt_or_eq_of_le (by omega : middle ≤ index) with more | rfl
  · calc
      point < table[middle].first := ahead
      _ ≤ table[middle].last := ordered.proper _ (List.getElem_mem inside)
      _ < table[index].first := ordered.lt more within
  · exact ahead

/-- An empty range leaves no interval. -/
theorem Excludes.none (excludes : Excludes table point low high) (empty : high < low) :
    ¬ ∃ interval ∈ table, interval.Contains point := by
  rintro ⟨interval, member, begins, ends⟩
  obtain ⟨index, inside, rfl⟩ := List.getElem_of_mem member
  by_cases before : (index : Int) < low
  · exact absurd ends (not_le.mpr (excludes.below index inside before))
  · exact absurd begins (not_le.mpr (excludes.above index inside (by omega)))

/-- The search, from a range that excludes nothing that contains the point. -/
theorem bisectFrom_iff (ordered : Ordered table) (turns : Nat) (low high : Int)
    (excludes : Excludes table point low high) (begins : 0 ≤ low) (ends : high < table.length)
    (enough : high - low < turns) :
    bisectFrom table point turns low high = true ↔
      ∃ interval ∈ table, interval.Contains point := by
  induction turns generalizing low high with
  | zero =>
      have missing := excludes.none (by omega)
      simp [bisectFrom, missing]
  | succ turns ih =>
      rw [bisectFrom]
      split_ifs with empty
      · simp [excludes.none empty]
      · obtain ⟨middle, same⟩ := Int.eq_ofNat_of_zero_le (by omega : 0 ≤ (low + high) / 2)
        have inside : middle < table.length := by omega
        rw [same, Int.toNat_natCast, List.getElem?_eq_getElem inside]
        dsimp only
        split_ifs with passed ahead
        · exact ih _ _ (excludes.raise ordered inside passed) (by omega) ends (by omega)
        · exact ih _ _ (excludes.lower ordered inside ahead) begins (by omega) (by omega)
        · exact ⟨fun _ => ⟨_, List.getElem_mem inside, not_lt.mp ahead, not_lt.mp passed⟩,
            fun _ => rfl⟩

/-- **Bisection finds what the table contains.** -/
theorem bisect_iff (ordered : Ordered table) (point : α) :
    bisect table point = true ↔ ∃ interval ∈ table, interval.Contains point := by
  cases table with
  | nil => simp [bisect]
  | cons first rest =>
      have last := List.getLast?_eq_getLast_of_ne_nil (List.cons_ne_nil first rest)
      unfold bisect
      rw [List.head?_cons, last]
      dsimp only
      have everything : Excludes (first :: rest) point 0 ((first :: rest).length - 1) :=
        ⟨fun index inside before => by omega, fun index inside behind => by omega⟩
      split_ifs with outside
      · have missing : ¬ ∃ interval ∈ first :: rest, interval.Contains point := by
          rcases outside with before | behind
          · have first_ : 0 < (first :: rest).length := List.length_pos_of_ne_nil (by simp)
            exact (everything.lower ordered first_ before).none (by omega)
          · rw [List.getLast_eq_getElem] at behind
            have passed := everything.raise ordered
              (show (first :: rest).length - 1 < (first :: rest).length by simp) behind
            exact passed.none (by simp only [List.length_cons]; omega)
        exact iff_of_false not_false missing
      · exact bisectFrom_iff ordered _ _ _ everything (Int.le_refl 0) (by omega) (by omega)

end Search
