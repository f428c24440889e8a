import Mathlib.Data.List.Dedup
import Mathlib.Data.List.Induction
import Mathlib.Data.List.Perm.Basic

/-! # Lists in order of recency

A recency list keeps one entry for every key of a history, the latest first. The
place of a key is the number of different keys that came after it
(`Streaming.Recency.recent_place`). Only the first entries need to be kept to keep
the first entries (`Streaming.Recency.take_touch_take`).
-/

namespace Streaming.Recency

variable {α β : Type} [DecidableEq α]

/-- An entry comes to the front, and the earlier entry of its key goes. -/
def touch (entries : List (α × β)) (entry : α × β) : List (α × β) :=
  entry :: entries.filter fun other => other.1 ≠ entry.1

/-- The entries of a history, latest first, one for each key. -/
def recent (history : List (α × β)) : List (α × β) := history.foldl touch []

theorem recent_append_singleton (history : List (α × β)) (entry : α × β) :
    recent (history ++ [entry]) = touch (recent history) entry := by
  rw [recent, List.foldl_append]
  rfl

theorem filter_eq_self_of_absent {entries : List (α × β)} {key : α}
    (absent : key ∉ entries.map Prod.fst) :
    entries.filter (fun other => other.1 ≠ key) = entries := by
  rw [List.filter_eq_self]
  intro other member
  apply decide_eq_true
  rintro rfl
  exact absent (List.mem_map_of_mem member)

theorem mem_keys_filter (entries : List (α × β)) (key other : α) :
    key ∈ (entries.filter fun entry => entry.1 ≠ other).map Prod.fst ↔
      key ∈ entries.map Prod.fst ∧ key ≠ other := by
  rw [show (fun entry : α × β => decide (entry.1 ≠ other)) =
    (fun key => decide (key ≠ other)) ∘ Prod.fst from rfl, ← List.filter_map, List.mem_filter,
    decide_eq_true_iff]

/-- No key stands twice in a recency list. -/
theorem recent_nodup (history : List (α × β)) : ((recent history).map Prod.fst).Nodup := by
  induction history using List.reverseRecOn with
  | nil => exact List.nodup_nil
  | append_singleton history entry ih =>
      rw [recent_append_singleton, touch, List.map_cons, List.nodup_cons]
      refine ⟨fun member => ?_, ih.sublist (List.filter_sublist.map Prod.fst)⟩
      exact ((mem_keys_filter _ _ _).mp member).2 rfl

/-- The entries in front of a key are those of the different keys after it. -/
theorem recent_split (front back : List (α × β)) (entry : α × β)
    (last : ∀ later ∈ back, later.1 ≠ entry.1) :
    ∃ newer older, recent (front ++ entry :: back) = newer ++ entry :: older ∧
      ∀ key, key ∈ newer.map Prod.fst ↔ key ∈ back.map Prod.fst := by
  induction back using List.reverseRecOn with
  | nil =>
      refine ⟨[], _, recent_append_singleton front entry, fun key => Iff.rfl⟩
  | append_singleton back later ih =>
      obtain ⟨newer, older, spelled, keys⟩ :=
        ih fun other member => last other (List.mem_append_left _ member)
      have different : entry.1 ≠ later.1 :=
        (last later (List.mem_append_right _ (List.mem_singleton_self later))).symm
      refine ⟨later :: newer.filter fun other => other.1 ≠ later.1,
        older.filter fun other => other.1 ≠ later.1, ?_, ?_⟩
      · rw [← List.cons_append, ← List.append_assoc, recent_append_singleton, spelled, touch,
          List.filter_append, List.filter_cons_of_pos (by simpa using different), List.cons_append]
      · intro key
        rw [List.map_append, List.mem_append, ← keys key, List.map_cons, List.mem_cons,
          mem_keys_filter, List.map_singleton, List.mem_singleton]
        by_cases isLater : key = later.1
        · exact iff_of_true (Or.inl isLater) (Or.inr isLater)
        · rw [or_iff_right isLater, or_iff_left isLater, and_iff_left isLater]

/-- **The place of a key** is the number of different keys that came after it. -/
theorem recent_place (front back : List (α × β)) (entry : α × β)
    (last : ∀ later ∈ back, later.1 ≠ entry.1) :
    (recent (front ++ entry :: back))[(back.map Prod.fst).dedup.length]? = some entry := by
  obtain ⟨newer, older, spelled, keys⟩ := recent_split front back entry last
  have distinct : (newer.map Prod.fst).Nodup := by
    have all := recent_nodup (front ++ entry :: back)
    rw [spelled, List.map_append] at all
    exact all.of_append_left
  have same : (newer.map Prod.fst).Perm (back.map Prod.fst).dedup := by
    rw [List.perm_ext_iff_of_nodup distinct (List.nodup_dedup _)]
    intro key
    rw [List.mem_dedup]
    exact keys key
  have length : (back.map Prod.fst).dedup.length = newer.length := by
    rw [← same.length_eq, List.length_map]
  rw [spelled, length, List.getElem?_append_right (Nat.le_refl _), Nat.sub_self,
    List.getElem?_cons_zero]

theorem recent_subset (history : List (α × β)) : recent history ⊆ history := by
  induction history using List.reverseRecOn with
  | nil => exact List.Subset.refl []
  | append_singleton history entry ih =>
      rw [recent_append_singleton, touch]
      intro other member
      rw [List.mem_cons] at member
      obtain rfl | kept := member
      · exact List.mem_append_right _ (List.mem_singleton_self other)
      · exact List.mem_append_left _ (ih (List.mem_filter.mp kept).1)

theorem exists_last_of_mem (history : List (α × β)) (key : α)
    (present : key ∈ history.map Prod.fst) :
    ∃ front entry back, history = front ++ entry :: back ∧ entry.1 = key ∧
      ∀ later ∈ back, later.1 ≠ key := by
  induction history using List.reverseRecOn with
  | nil => cases present
  | append_singleton history entry ih =>
      by_cases here : entry.1 = key
      · exact ⟨history, entry, [], rfl, here, by simp⟩
      · have earlier : key ∈ history.map Prod.fst := by
          rw [List.map_append, List.mem_append, List.map_singleton, List.mem_singleton] at present
          exact present.resolve_right (Ne.symm here)
        obtain ⟨front, found, back, rfl, same, last⟩ := ih earlier
        refine ⟨front, found, back ++ [entry], by simp, same, fun later member => ?_⟩
        rw [List.mem_append, List.mem_singleton] at member
        obtain member | rfl := member
        · exact last later member
        · exact here

/-- Every place of a recency list is the place of the last entry of its key. -/
theorem exists_of_recent_place {history : List (α × β)} {place : Nat} {entry : α × β}
    (found : (recent history)[place]? = some entry) :
    ∃ front back, history = front ++ entry :: back ∧ (∀ later ∈ back, later.1 ≠ entry.1) ∧
      (back.map Prod.fst).dedup.length = place := by
  have present : entry.1 ∈ history.map Prod.fst :=
    List.mem_map_of_mem (recent_subset history (List.mem_of_getElem? found))
  obtain ⟨front, latest, back, rfl, same, last⟩ := exists_last_of_mem history entry.1 present
  rw [← same] at last
  have here := recent_place front back latest last
  have keyed : ((recent (front ++ latest :: back)).map Prod.fst)[place]? =
      ((recent (front ++ latest :: back)).map Prod.fst)[(back.map Prod.fst).dedup.length]? := by
    rw [List.getElem?_map, List.getElem?_map, found, here, Option.map_some, Option.map_some, same]
  obtain ⟨inside, -⟩ := List.getElem?_eq_some_iff.mp found
  have within : place < ((recent (front ++ latest :: back)).map Prod.fst).length := by
    rw [List.length_map]
    exact inside
  obtain rfl := (List.getElem?_inj within (recent_nodup _)).mp keyed
  rw [here] at found
  obtain rfl := Option.some.inj found
  exact ⟨front, back, rfl, last, rfl⟩

/-- An entry that is found leaves its place for the front. -/
theorem touch_split (front back : List (α × β)) (old entry : α × β) (same : old.1 = entry.1)
    (distinct : ((front ++ old :: back).map Prod.fst).Nodup) :
    touch (front ++ old :: back) entry = entry :: (front ++ back) := by
  rw [List.map_append, List.map_cons] at distinct
  have absent_back : entry.1 ∉ back.map Prod.fst := by
    rw [← same]
    exact (List.nodup_cons.mp distinct.of_append_right).1
  have absent_front : entry.1 ∉ front.map Prod.fst := fun member =>
    List.disjoint_of_nodup_append distinct member (by rw [same]; exact List.mem_cons_self)
  rw [touch, List.filter_append, List.filter_cons_of_neg (by simp [same]),
    filter_eq_self_of_absent absent_front, filter_eq_self_of_absent absent_back]

/-- The first entries after a touch come from one entry more before it. -/
theorem take_filter_take (entries : List (α × β)) (key : α) (count : Nat)
    (distinct : (entries.map Prod.fst).Nodup) :
    ((entries.take (count + 1)).filter fun other => other.1 ≠ key).take count =
      (entries.filter fun other => other.1 ≠ key).take count := by
  induction entries generalizing count with
  | nil => rfl
  | cons entry entries ih =>
      rw [List.map_cons, List.nodup_cons] at distinct
      rw [List.take_succ_cons]
      by_cases kept : entry.1 = key
      · subst kept
        have absent : entry.1 ∉ (entries.take count).map Prod.fst := fun member =>
          distinct.1 ((List.take_sublist count entries).map Prod.fst |>.subset member)
        rw [List.filter_cons_of_neg (by simp), List.filter_cons_of_neg (by simp),
          filter_eq_self_of_absent distinct.1, filter_eq_self_of_absent absent,
          List.take_take, Nat.min_self]
      · rw [List.filter_cons_of_pos (by simpa using kept),
          List.filter_cons_of_pos (by simpa using kept)]
        cases count with
        | zero => rfl
        | succ count => rw [List.take_succ_cons, List.take_succ_cons, ih count distinct.2]

/-- **A bounded recency list.** The first entries after a touch are determined by the
first entries before it. -/
theorem take_touch_take (entries : List (α × β)) (entry : α × β) (count : Nat)
    (distinct : (entries.map Prod.fst).Nodup) :
    (touch (entries.take (count + 1)) entry).take (count + 1) =
      (touch entries entry).take (count + 1) := by
  rw [touch, touch, List.take_succ_cons, List.take_succ_cons, take_filter_take _ _ _ distinct]

end Streaming.Recency
