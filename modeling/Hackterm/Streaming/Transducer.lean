import Mathlib.Data.List.Basic

/-! # Transducers over a cut stream

A transducer reads a stream one symbol at a time, keeps a state, and emits a
list of outputs for each symbol. A device that receives the same stream in
pieces is a *chunk consumer*. Running a transducer over a concatenation is
running it over the pieces in order (`Streaming.Transducer.run_append`), so a
chunk consumer that computes the transducer on every single piece emits the
same outputs however the stream is cut (`Streaming.feed_eq_run_of_refines`), and
one that does so on some pieces only emits them where it is cut into such pieces
(`Streaming.feed_eq_run_of_everyPiece`).
-/

namespace Streaming

/-- A deterministic machine that reads symbols and emits lists of outputs. -/
structure Transducer (σ α β : Type*) where
  step : σ → α → σ × List β

namespace Transducer

variable {σ τ α β γ : Type*} (machine : Transducer σ α β)

/-- The state reached and the outputs emitted over a list of symbols. -/
def run : σ → List α → σ × List β
  | state, [] => (state, [])
  | state, symbol :: symbols =>
      let next := machine.step state symbol
      let rest := run next.1 symbols
      (rest.1, next.2 ++ rest.2)

@[simp] theorem run_nil (state : σ) : machine.run state [] = (state, []) := rfl

theorem run_cons (state : σ) (symbol : α) (symbols : List α) :
    machine.run state (symbol :: symbols) =
      ((machine.run (machine.step state symbol).1 symbols).1,
        (machine.step state symbol).2 ++ (machine.run (machine.step state symbol).1 symbols).2) :=
  rfl

/-- A run over a concatenation is the run over its halves. -/
theorem run_append (state : σ) (front back : List α) :
    machine.run state (front ++ back) =
      ((machine.run (machine.run state front).1 back).1,
        (machine.run state front).2 ++ (machine.run (machine.run state front).1 back).2) := by
  induction front generalizing state with
  | nil => simp
  | cons symbol front ih =>
      rw [List.cons_append, run_cons, ih, run_cons, List.append_assoc]

/-- Symbols that neither change the state nor emit anything may be dropped. -/
theorem run_filter (keep : α → Bool)
    (idle : ∀ state symbol, keep symbol = false → machine.step state symbol = (state, []))
    (state : σ) (symbols : List α) :
    machine.run state (symbols.filter keep) = machine.run state symbols := by
  induction symbols generalizing state with
  | nil => rfl
  | cons symbol symbols ih =>
      cases kept : keep symbol with
      | true => rw [List.filter_cons_of_pos kept, run_cons, run_cons, ih]
      | false =>
          rw [List.filter_cons_of_neg (by simp [kept]), run_cons, idle state symbol kept, ih]
          simp

/-- A property of the state kept by every step of a symbol class is kept by a
run over symbols of that class. -/
theorem run_invariant (invariant : σ → Prop) (allowed : α → Prop)
    (kept : ∀ state symbol, allowed symbol → invariant state →
      invariant (machine.step state symbol).1)
    (state : σ) (symbols : List α) (members : ∀ symbol ∈ symbols, allowed symbol)
    (holds : invariant state) : invariant (machine.run state symbols).1 := by
  induction symbols generalizing state with
  | nil => exact holds
  | cons symbol symbols ih =>
      exact ih _ (fun other member => members other (List.mem_cons_of_mem _ member))
        (kept state symbol (members symbol List.mem_cons_self) holds)

/-- A step-by-step simulation simulates runs. -/
theorem run_eq_of_simulates (model : Transducer τ α γ) (abstraction : σ → τ) (reading : γ → β)
    (simulates : ∀ state symbol,
      abstraction (machine.step state symbol).1 = (model.step (abstraction state) symbol).1 ∧
        (machine.step state symbol).2 = (model.step (abstraction state) symbol).2.map reading)
    (state : σ) (symbols : List α) :
    abstraction (machine.run state symbols).1 = (model.run (abstraction state) symbols).1 ∧
      (machine.run state symbols).2 = (model.run (abstraction state) symbols).2.map reading := by
  induction symbols generalizing state with
  | nil => exact ⟨rfl, rfl⟩
  | cons symbol symbols ih =>
      obtain ⟨reached, emitted⟩ := simulates state symbol
      obtain ⟨last, rest⟩ := ih (machine.step state symbol).1
      rw [run_cons, run_cons, ← reached, last, rest, emitted, List.map_append]
      exact ⟨rfl, rfl⟩

end Transducer

variable {σ τ α β γ : Type*}

/-- Hand the pieces of a cut stream to a fallible consumer one by one, and
collect what each call returns. -/
def feed (consume : τ → List α → Option (τ × γ)) : τ → List (List α) → Option (τ × List γ)
  | state, [] => some (state, [])
  | state, chunk :: chunks => do
      let (next, result) ← consume state chunk
      let (last, results) ← feed consume next chunks
      pure (last, result :: results)

@[simp] theorem feed_nil (consume : τ → List α → Option (τ × γ)) (state : τ) :
    feed consume state [] = some (state, []) := rfl

theorem feed_cons (consume : τ → List α → Option (τ × γ)) (state : τ) (chunk : List α)
    (chunks : List (List α)) :
    feed consume state (chunk :: chunks) =
      (consume state chunk).bind fun first =>
        (feed consume first.1 chunks).map fun rest => (rest.1, first.2 :: rest.2) := by
  rw [feed]
  cases consume state chunk with
  | none => rfl
  | some first =>
      obtain ⟨next, result⟩ := first
      cases fed : feed consume next chunks with
      | none => simp [fed]
      | some rest => simp [fed]

/-- Of results that are lists, those of the first piece stand in front of the others. -/
theorem map_flatten_feed_cons (consume : τ → List α → Option (τ × List γ)) (state : τ)
    (chunk : List α) (chunks : List (List α)) :
    (feed consume state (chunk :: chunks)).map (fun (last, results) => (last, results.flatten)) =
      (consume state chunk).bind fun first =>
        ((feed consume first.1 chunks).map fun (last, results) => (last, results.flatten)).map
          fun (last, later) => (last, first.2 ++ later) := by
  rw [feed_cons]
  cases consume state chunk with
  | none => rfl
  | some first =>
      rw [Option.bind_some, Option.bind_some, Option.map_map, Option.map_map]
      rfl

theorem feed_append (consume : τ → List α → Option (τ × γ)) (state : τ)
    (front back : List (List α)) :
    feed consume state (front ++ back) =
      (feed consume state front).bind fun first =>
        (feed consume first.1 back).map fun rest => (rest.1, first.2 ++ rest.2) := by
  induction front generalizing state with
  | nil => simp
  | cons chunk front ih =>
      rw [List.cons_append, feed_cons, feed_cons]
      cases consume state chunk with
      | none => rfl
      | some first =>
          simp only [Option.bind_some, ih]
          cases feed consume first.1 front with
          | none => rfl
          | some middle =>
              simp only [Option.bind_some, Option.map_some]
              cases feed consume middle.1 back with
              | none => rfl
              | some rest => rfl

/-- Every piece is admitted where it stands, in the state of the consumer and that of
the transducer before it. -/
def EveryPiece (machine : Transducer σ α β) (consume : τ → List α → Option (τ × γ))
    (admits : τ → σ → List α → Prop) : τ → σ → List (List α) → Prop
  | _, _, [] => True
  | concrete, abstract, chunk :: chunks =>
      admits concrete abstract chunk ∧ ∀ next ∈ consume concrete chunk,
        EveryPiece machine consume admits next.1 (machine.run abstract chunk).1 chunks

instance decidableEveryPiece (machine : Transducer σ α β) (consume : τ → List α → Option (τ × γ))
    (admits : τ → σ → List α → Prop)
    [∀ concrete abstract chunk, Decidable (admits concrete abstract chunk)] :
    (concrete : τ) → (abstract : σ) → (chunks : List (List α)) →
      Decidable (EveryPiece machine consume admits concrete abstract chunks)
  | _, _, [] => .isTrue trivial
  | _, abstract, chunk :: chunks =>
      have : ∀ next : τ × γ, Decidable (EveryPiece machine consume admits next.1
          (machine.run abstract chunk).1 chunks) := fun next =>
        decidableEveryPiece machine consume admits next.1 (machine.run abstract chunk).1 chunks
      inferInstanceAs (Decidable (_ ∧ _))

theorem everyPiece_of_forall {machine : Transducer σ α β}
    {consume : τ → List α → Option (τ × γ)} {admits : τ → σ → List α → Prop}
    (always : ∀ concrete abstract chunk, admits concrete abstract chunk)
    (concrete : τ) (abstract : σ) (chunks : List (List α)) :
    EveryPiece machine consume admits concrete abstract chunks := by
  induction chunks generalizing concrete abstract with
  | nil => trivial
  | cons chunk chunks ih =>
      exact ⟨always concrete abstract chunk, fun next _ => ih next.1 _⟩

/-- **A stream cut at good places.** Let a consumer compute a transducer on every
admitted piece that can stand at the current place of a stream, up to a relation on the
states and a reading of its results. Then its results over the pieces read as the
outputs of the transducer over the whole stream. -/
theorem feed_eq_run_of_everyPiece (machine : Transducer σ α β)
    (consume : τ → List α → Option (τ × γ)) (related : τ → σ → Prop)
    (reading : γ → List β) (accepted : γ → Prop) (allowed : σ → List α → Prop)
    (admits : τ → σ → List α → Prop)
    (suffixes : ∀ abstract front back, allowed abstract (front ++ back) →
      allowed abstract front ∧ allowed (machine.run abstract front).1 back)
    (refines : ∀ concrete abstract chunk, related concrete abstract → allowed abstract chunk →
      admits concrete abstract chunk →
      ∃ next result, consume concrete chunk = some (next, result) ∧ accepted result ∧
        related next (machine.run abstract chunk).1 ∧
        reading result = (machine.run abstract chunk).2)
    (concrete : τ) (abstract : σ) (chunks : List (List α)) (start : related concrete abstract)
    (stream : allowed abstract chunks.flatten)
    (every : EveryPiece machine consume admits concrete abstract chunks) :
    ∃ last results, feed consume concrete chunks = some (last, results) ∧
      (∀ result ∈ results, accepted result) ∧
      related last (machine.run abstract chunks.flatten).1 ∧
      (results.map reading).flatten = (machine.run abstract chunks.flatten).2 := by
  induction chunks generalizing concrete abstract with
  | nil => exact ⟨concrete, [], rfl, by simp, start, rfl⟩
  | cons chunk chunks ih =>
      rw [List.flatten_cons] at stream ⊢
      obtain ⟨here, later⟩ := suffixes abstract chunk chunks.flatten stream
      obtain ⟨admitted, follows⟩ := every
      obtain ⟨next, result, computes, good, held, reads⟩ :=
        refines concrete abstract chunk start here admitted
      obtain ⟨last, results, fed, allGood, reached, rest⟩ :=
        ih next _ held later (follows _ computes)
      refine ⟨last, result :: results, ?_, ?_, ?_, ?_⟩
      · rw [feed_cons, computes, Option.bind_some, fed, Option.map_some]
      · exact List.forall_mem_cons.mpr ⟨good, allGood⟩
      · rw [machine.run_append]
        exact reached
      · rw [machine.run_append, List.map_cons, List.flatten_cons, reads, rest]

/-- **A cut stream.** Let a consumer compute a transducer on every piece that
can stand at the current place of a stream, up to a relation on the states and
a reading of its results. Then its results over the pieces read as the outputs
of the transducer over the whole stream. -/
theorem feed_eq_run_of_refines (machine : Transducer σ α β)
    (consume : τ → List α → Option (τ × γ)) (related : τ → σ → Prop)
    (reading : γ → List β) (accepted : γ → Prop) (allowed : List α → Prop)
    (suffixes : ∀ front back, allowed (front ++ back) → allowed front ∧ allowed back)
    (refines : ∀ concrete abstract chunk, related concrete abstract → allowed chunk →
      ∃ next result, consume concrete chunk = some (next, result) ∧ accepted result ∧
        related next (machine.run abstract chunk).1 ∧
        reading result = (machine.run abstract chunk).2)
    (concrete : τ) (abstract : σ) (chunks : List (List α)) (start : related concrete abstract)
    (stream : allowed chunks.flatten) :
    ∃ last results, feed consume concrete chunks = some (last, results) ∧
      (∀ result ∈ results, accepted result) ∧
      related last (machine.run abstract chunks.flatten).1 ∧
      (results.map reading).flatten = (machine.run abstract chunks.flatten).2 :=
  feed_eq_run_of_everyPiece machine consume related reading accepted (fun _ => allowed)
    (fun _ _ _ => True) (fun _ => suffixes)
    (fun concrete abstract chunk held permitted _ => refines concrete abstract chunk held permitted)
    concrete abstract chunks start stream (everyPiece_of_forall (fun _ _ _ => trivial) _ _ _)

end Streaming
