import Mathlib.Data.List.Basic
import Mathlib.Data.List.Nodup

/-! # Resources and their release

A holder acquires resources and releases them, and now and then begins anew, owning
nothing. Resources are named by identifiers that come back into use, as file
descriptors do: a release is right only while the identifier is owned
(`Resource.ReleasesOwned`), and then between two releases of one identifier it is
acquired again (`Resource.released_once`). A handle holds one object at a time, and
objects are never made twice; an object that is let go when it is released is
released once (`Resource.Handle.Sound`).
-/

namespace Resource

/-- What a holder does. -/
inductive Use (Id : Type*) where
  | start
  | acquire (id : Id)
  | release (id : Id)

section Ownership

variable {Id : Type*} [DecidableEq Id]

/-- What is owned afterwards, unless something is released that is not owned. -/
def own (owned : List Id) : Use Id → Option (List Id)
  | .start => some []
  | .acquire id => some (id :: owned)
  | .release id => if id ∈ owned then some (owned.filter (· ≠ id)) else none

/-- Only what is owned is released. -/
def ReleasesOwned (uses : List (Use Id)) : Prop := (uses.foldlM own []).isSome

instance (uses : List (Use Id)) : Decidable (ReleasesOwned uses) :=
  inferInstanceAs (Decidable ((uses.foldlM own []).isSome = true))

theorem own_release {owned after : List Id} {id : Id} (step : own owned (.release id) = some after) :
    id ∈ owned ∧ owned.filter (· ≠ id) = after := by
  obtain ⟨member, same⟩ := Option.ite_none_right_eq_some.mp step
  exact ⟨member, Option.some.inj same⟩

/-- Where the holder begins anew, both parts are judged on their own. -/
theorem releasesOwned_append_start (front back : List (Use Id)) :
    ReleasesOwned (front ++ .start :: back) ↔ ReleasesOwned front ∧ ReleasesOwned back := by
  unfold ReleasesOwned
  rw [List.foldlM_append]
  cases front.foldlM own [] with
  | none => exact iff_of_false Bool.false_ne_true fun both => Bool.false_ne_true both.1
  | some owned => exact (and_iff_right rfl).symm

theorem releasesOwned_replicate (id : Id) (n : Nat) :
    ReleasesOwned (List.replicate n (.release id)) ↔ n = 0 := by
  cases n with
  | zero => exact iff_of_true rfl rfl
  | succ n => exact iff_of_false Bool.false_ne_true (Nat.succ_ne_zero n)

theorem releasesOwned_acquire_replicate (id : Id) (n : Nat) :
    ReleasesOwned (.acquire id :: List.replicate n (.release id)) ↔ n ≤ 1 := by
  have acquired : ReleasesOwned (.acquire id :: List.replicate n (.release id)) ↔
      ((List.replicate n (Use.release id)).foldlM own [id]).isSome := Iff.rfl
  rw [acquired]
  cases n with
  | zero => exact iff_of_true rfl (Nat.zero_le 1)
  | succ n =>
      have released : own [id] (.release id) = some [] := by simp [own]
      rw [List.replicate_succ, List.foldlM_cons, released]
      exact (releasesOwned_replicate id n).trans
        (Nat.le_zero.symm.trans Nat.succ_le_succ_iff.symm)

/-- What is not owned is only owned again once it is acquired. -/
theorem not_mem_of_not_acquired {uses : List (Use Id)} {owned after : List Id} {id : Id}
    (run : uses.foldlM own owned = some after) (notOwned : id ∉ owned)
    (notAcquired : .acquire id ∉ uses) : id ∉ after := by
  induction uses generalizing owned with
  | nil =>
      cases run
      exact notOwned
  | cons use uses ih =>
      obtain ⟨middle, step, run⟩ := Option.bind_eq_some_iff.mp run
      rw [List.mem_cons, not_or] at notAcquired
      apply ih run _ notAcquired.2
      cases use with
      | start =>
          cases step
          exact List.not_mem_nil
      | acquire other =>
          cases step
          rw [List.mem_cons, not_or]
          exact ⟨fun same => notAcquired.1 (same ▸ rfl), notOwned⟩
      | release other =>
          obtain ⟨-, rfl⟩ := own_release step
          exact fun member => notOwned (List.mem_filter.mp member).1

/-- **One release for each acquisition.** -/
theorem released_once {front middle back : List (Use Id)} {id : Id}
    (owned : ReleasesOwned (front ++ .release id :: middle ++ .release id :: back)) :
    .acquire id ∈ middle := by
  by_contra notAcquired
  obtain ⟨after, run⟩ := Option.isSome_iff_exists.mp owned
  rw [List.append_assoc, List.foldlM_append] at run
  obtain ⟨first, -, run⟩ := Option.bind_eq_some_iff.mp run
  rw [List.cons_append, List.foldlM_cons] at run
  obtain ⟨second, step, run⟩ := Option.bind_eq_some_iff.mp run
  rw [List.foldlM_append] at run
  obtain ⟨third, between, rest⟩ := Option.bind_eq_some_iff.mp run
  obtain ⟨-, rfl⟩ := own_release step
  have gone : id ∉ third :=
    not_mem_of_not_acquired between (by simp) notAcquired
  obtain ⟨_, again, -⟩ := Option.bind_eq_some_iff.mp rest
  exact gone (own_release again).1

end Ownership

/-- A pointer to an object that is made and released. Objects are numbered as they are
made. -/
structure Handle where
  held : Option Nat
  made : Nat
  released : List Nat

namespace Handle

/-- The null pointer, before anything is made. -/
def null : Handle := { held := none, made := 0, released := [] }

/-- The pointer is set to a new object, or to null if it cannot be made. -/
def make (succeeds : Bool) (handle : Handle) : Handle :=
  if succeeds then { handle with held := some handle.made, made := handle.made + 1 }
  else { handle with held := none }

/-- The object is released and the pointer set to null, unless it is null. -/
def release (handle : Handle) : Handle :=
  match handle.held with
  | none => handle
  | some object => { handle with held := none, released := handle.released ++ [object] }

/-- No object is released twice, and the one that is held is not released. -/
structure Sound (handle : Handle) : Prop where
  once : handle.released.Nodup
  made : ∀ object ∈ handle.released, object < handle.made
  held : ∀ object, handle.held = some object → object < handle.made ∧ object ∉ handle.released

theorem null_sound : null.Sound where
  once := List.nodup_nil
  made _ member := absurd member List.not_mem_nil
  held _ held := by cases held

theorem Sound.make {handle : Handle} (sound : handle.Sound) (succeeds : Bool) :
    (handle.make succeeds).Sound := by
  cases succeeds with
  | false =>
      refine ⟨sound.once, sound.made, ?_⟩
      intro object held
      cases held
  | true =>
      refine ⟨sound.once, ?_, ?_⟩
      · intro object member
        exact Nat.lt_succ_of_lt (sound.made object member)
      · intro object held
        cases held
        exact ⟨Nat.lt_succ_self _, fun member => Nat.lt_irrefl _ (sound.made _ member)⟩

theorem Sound.release {handle : Handle} (sound : handle.Sound) : handle.release.Sound := by
  unfold Handle.release
  split
  · exact sound
  · next object held =>
      obtain ⟨small, new⟩ := sound.held object held
      refine ⟨?_, ?_, ?_⟩
      · exact List.nodup_append.mpr ⟨sound.once, List.nodup_singleton object, by
          rintro first member second last rfl
          exact new (List.mem_singleton.mp last ▸ member)⟩
      · intro other member
        rcases List.mem_append.mp member with old | last
        · exact sound.made other old
        · rw [List.mem_singleton.mp last]
          exact small
      · intro other absent
        cases absent

@[simp] theorem release_held (handle : Handle) : handle.release.held = none := by
  unfold release
  split
  · next null => exact null
  · rfl

theorem make_held (succeeds : Bool) (handle : Handle) :
    (handle.make succeeds).held.isSome = succeeds := by
  cases succeeds with
  | false => rfl
  | true => rfl

end Handle

end Resource
