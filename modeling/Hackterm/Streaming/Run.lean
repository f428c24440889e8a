import Mathlib.Data.List.Basic

/-! # Runs of a fallible step

A run hands a list of events to a step that may fail. A property that a single step
either keeps or breaks holds in all states a run reaches exactly when every step of
the run is one that keeps it (`Streaming.throughout_iff_everyStep`). With a property of
the calls themselves, the last call of a run counts even where it fails
(`Streaming.throughout_iff_everyCall`).
-/

namespace Streaming

variable {σ ε : Type} (step : σ → ε → Option σ)

/-- A property holds in every state that a run over the events reaches. -/
def Throughout (start : σ) (events : List ε) (holds : σ → Prop) : Prop :=
  ∀ front last, front <+: events → front.foldlM step start = some last → holds last

/-- Every step that a run over the events takes is allowed in the state before it. -/
def EveryStep (start : σ) (events : List ε) (allowed : σ → ε → Prop) : Prop :=
  ∀ front event before after, front ++ [event] <+: events →
    front.foldlM step start = some before → step before event = some after →
      allowed before event

/-- Every call that a run over the events makes, failing or not, is allowed in the state
before it. -/
def EveryCall (start : σ) (events : List ε) (allowed : σ → ε → Prop) : Prop :=
  ∀ front event before, front ++ [event] <+: events →
    front.foldlM step start = some before → allowed before event

variable {step} {start : σ} {holds : σ → Prop} {allowed careful : σ → ε → Prop}

theorem throughout_nil : Throughout step start [] holds ↔ holds start := by
  constructor
  · intro throughout
    exact throughout [] start List.nil_prefix rfl
  · rintro begins front last within reached
    obtain rfl := List.prefix_nil.mp within
    rw [← Option.some.inj reached]
    exact begins

/-- A property holds throughout a run when it holds at its start and throughout
what follows the first step. -/
theorem throughout_cons (event : ε) (events : List ε) :
    Throughout step start (event :: events) holds ↔
      holds start ∧ ∀ next, step start event = some next → Throughout step next events holds := by
  constructor
  · intro throughout
    refine ⟨throughout [] start List.nil_prefix rfl, fun next stepped front last within reached => ?_⟩
    apply throughout (event :: front) last (List.cons_prefix_cons.mpr ⟨rfl, within⟩)
    rw [List.foldlM_cons, stepped]
    exact reached
  · rintro ⟨begins, follows⟩ front last within reached
    cases front with
    | nil =>
        rw [← Option.some.inj reached]
        exact begins
    | cons first front =>
        obtain ⟨rfl, inside⟩ := List.cons_prefix_cons.mp within
        obtain ⟨next, stepped, reached⟩ := Option.bind_eq_some_iff.mp reached
        exact follows next stepped front last inside reached

theorem everyStep_nil : EveryStep step start [] allowed := by
  intro front event before after within
  simp at within

/-- Every step of a run is allowed when the first one and those that follow are. -/
theorem everyStep_cons (event : ε) (events : List ε) :
    EveryStep step start (event :: events) allowed ↔
      ∀ next, step start event = some next →
        allowed start event ∧ EveryStep step next events allowed := by
  constructor
  · intro every next stepped
    refine ⟨every [] event start next (by simp) rfl stepped, ?_⟩
    intro front later before after within reached
    apply every (event :: front) later before after (List.cons_prefix_cons.mpr ⟨rfl, within⟩)
    rw [List.foldlM_cons, stepped]
    exact reached
  · intro first front later before after within reached stepped
    cases front with
    | nil =>
        obtain ⟨rfl, -⟩ := List.cons_prefix_cons.mp within
        obtain rfl := Option.some.inj reached
        exact (first after stepped).1
    | cons other front =>
        obtain ⟨rfl, inside⟩ := List.cons_prefix_cons.mp within
        obtain ⟨next, taken, reached⟩ := Option.bind_eq_some_iff.mp reached
        exact (first next taken).2 front later before after inside reached stepped

/-- **Properties along a run.** Let the property hold in all ideal states. Let an
allowed step from an ideal state lead to an ideal state, and any other step break the
property. Then the property holds throughout a run exactly when every step of the run
is allowed. -/
theorem throughout_iff_everyStep (ideal : σ → Prop)
    (sound : ∀ state, ideal state → holds state)
    (advances : ∀ before event after, ideal before → step before event = some after →
      allowed before event → ideal after)
    (exposes : ∀ before event after, ideal before → step before event = some after →
      holds after → allowed before event)
    (begins : ideal start) (events : List ε) :
    Throughout step start events holds ↔ EveryStep step start events allowed := by
  induction events generalizing start with
  | nil => exact ⟨fun _ => everyStep_nil, fun _ => throughout_nil.mpr (sound start begins)⟩
  | cons event events ih =>
      rw [throughout_cons, everyStep_cons]
      constructor
      · rintro ⟨-, follows⟩ next stepped
        have next_holds : holds next := follows next stepped [] next List.nil_prefix rfl
        have permitted := exposes start event next begins stepped next_holds
        have next_ideal := advances start event next begins stepped permitted
        exact ⟨permitted, (ih next_ideal).mp (follows next stepped)⟩
      · intro every
        refine ⟨sound start begins, fun next stepped => ?_⟩
        obtain ⟨permitted, later⟩ := every next stepped
        exact (ih (advances start event next begins stepped permitted)).mpr later

/-- What a run reaches keeps an invariant of the step. -/
theorem foldlM_invariant (invariant : σ → Prop)
    (keeps : ∀ before event after, invariant before → step before event = some after →
      invariant after) (begins : invariant start) (events : List ε) {last : σ}
    (reached : events.foldlM step start = some last) : invariant last := by
  induction events generalizing start with
  | nil =>
      rw [← Option.some.inj reached]
      exact begins
  | cons event events ih =>
      obtain ⟨next, stepped, reached⟩ := Option.bind_eq_some_iff.mp reached
      exact ih (keeps start event next begins stepped) reached

/-- Two conditions on a step that are the same in all states with an invariant are the
same along a run. -/
theorem everyStep_congr (invariant : σ → Prop)
    (keeps : ∀ before event after, invariant before → step before event = some after →
      invariant after) (begins : invariant start) (events : List ε)
    {allowed other : σ → ε → Prop}
    (same : ∀ before event, invariant before → event ∈ events →
      (allowed before event ↔ other before event)) :
    EveryStep step start events allowed ↔ EveryStep step start events other := by
  unfold EveryStep
  apply forall_congr'
  intro front
  apply forall_congr'
  intro event
  apply forall₃_congr
  intro before after within
  apply imp_congr_right
  intro reached
  have member : event ∈ events := within.subset (List.mem_append_right _ (List.mem_singleton_self _))
  rw [same before event (foldlM_invariant invariant keeps begins front reached) member]

theorem everyCall_nil : EveryCall step start [] allowed := by
  intro front event before within
  simp at within

/-- Every call of a run is allowed when the first one and those that follow are. -/
theorem everyCall_cons (event : ε) (events : List ε) :
    EveryCall step start (event :: events) allowed ↔
      allowed start event ∧
        ∀ next, step start event = some next → EveryCall step next events allowed := by
  constructor
  · intro every
    refine ⟨every [] event start (by simp) rfl, ?_⟩
    intro next stepped front later before within reached
    apply every (event :: front) later before (List.cons_prefix_cons.mpr ⟨rfl, within⟩)
    rw [List.foldlM_cons, stepped]
    exact reached
  · rintro ⟨first, follows⟩ front later before within reached
    cases front with
    | nil =>
        obtain ⟨rfl, -⟩ := List.cons_prefix_cons.mp within
        obtain rfl := Option.some.inj reached
        exact first
    | cons other front =>
        obtain ⟨rfl, inside⟩ := List.cons_prefix_cons.mp within
        obtain ⟨next, taken, reached⟩ := Option.bind_eq_some_iff.mp reached
        exact follows next taken front later before inside reached

/-- **Properties of states and calls along a run.** Let the property hold in all ideal
states. Let an allowed call in an ideal state be careful and lead to an ideal state, and
let any other call be careless or break the property. Then the property holds throughout
a run of careful calls exactly when every call of the run is allowed. -/
theorem throughout_iff_everyCall (ideal : σ → Prop)
    (sound : ∀ state, ideal state → holds state)
    (cautious : ∀ before event, ideal before → allowed before event → careful before event)
    (advances : ∀ before event after, ideal before → allowed before event →
      step before event = some after → ideal after)
    (exposes : ∀ before event, ideal before → careful before event →
      (∀ after, step before event = some after → holds after) → allowed before event)
    (begins : ideal start) (events : List ε) :
    Throughout step start events holds ∧ EveryCall step start events careful ↔
      EveryCall step start events allowed := by
  induction events generalizing start with
  | nil =>
      exact ⟨fun _ => everyCall_nil,
        fun _ => ⟨throughout_nil.mpr (sound start begins), everyCall_nil⟩⟩
  | cons event events ih =>
      rw [throughout_cons, everyCall_cons, everyCall_cons]
      constructor
      · rintro ⟨⟨-, follows⟩, first, later⟩
        have permitted : allowed start event := by
          apply exposes start event begins first
          intro after stepped
          exact follows after stepped [] after List.nil_prefix rfl
        refine ⟨permitted, fun next stepped => ?_⟩
        have next_ideal := advances start event next begins permitted stepped
        exact (ih next_ideal).mp ⟨follows next stepped, later next stepped⟩
      · rintro ⟨permitted, later⟩
        have settled : ∀ next, step start event = some next →
            Throughout step next events holds ∧ EveryCall step next events careful := by
          intro next stepped
          exact (ih (advances start event next begins permitted stepped)).mpr (later next stepped)
        exact ⟨⟨sound start begins, fun next stepped => (settled next stepped).1⟩,
          cautious start event begins permitted, fun next stepped => (settled next stepped).2⟩

end Streaming
