import Hackterm.Streaming.Transducer
import Mathlib.Data.List.Basic

/-! # Characters of several symbols

A character of a multi-symbol code is a single symbol, or a lead followed by as many
continuations as the lead announces (`Codec.Code.Spells`). The decoder puts out a
replacement for symbols that are no character. It gives up an open sequence at the next
symbol that begins a character, so a text is decoded as it is behind any symbols at all
(`Codec.Code.run_text`), and every character it puts out that is not the replacement is
spelled in the input, in order (`Codec.Code.run_sound`). How many characters come out of so
many symbols depends only on the continuations that were taken into a sequence
(`Codec.Code.run_length`).
-/

namespace Codec

/-- The part a symbol plays in a code. -/
inductive Role (β : Type*) where
  | single (character : β)
  | lead (following value : Nat)
  | continuation (value : Nat)
  | stray
deriving DecidableEq

/-- A code: the part of each symbol, the factor a continuation is worth, the character of a
complete sequence, by the number of its continuations and its value, and what is put out
for symbols that are no character. -/
structure Code (α β : Type*) where
  role : α → Role β
  radix : Nat
  character : Nat → Nat → β
  replacement : β

/-- A sequence that was begun: how many continuations are missing, how many its lead has
announced, and its value so far. -/
structure Sequence where
  missing : Nat
  announced : Nat
  value : Nat
deriving DecidableEq

namespace Code

variable {α β : Type*} (code : Code α β)

/-- What is put out for an open sequence that is given up. -/
def interrupted : Option Sequence → List β
  | none => []
  | some _ => [code.replacement]

/-- A continuation is taken into an open sequence. -/
def extend (value : Nat) (sequence : Sequence) : Option Sequence × List β :=
  let value := sequence.value * code.radix + value
  if sequence.missing ≤ 1 then (none, [code.character sequence.announced value])
  else (some ⟨sequence.missing - 1, sequence.announced, value⟩, [])

/-- The decoder. A stray symbol leaves an open sequence as it is. -/
def decoder : Streaming.Transducer (Option Sequence) α β where
  step state symbol :=
    match code.role symbol with
    | .single character => (none, code.interrupted state ++ [character])
    | .lead following value => (some ⟨following, following, value⟩, code.interrupted state)
    | .continuation value =>
        match state with
        | none => (none, [code.replacement])
        | some sequence => code.extend value sequence
    | .stray => (state, [code.replacement])

/-- The value of continuations behind a value. -/
def valueOf (value : Nat) (values : List Nat) : Nat :=
  values.foldl (fun value digit => value * code.radix + digit) value

/-- The symbols are one character of the code. -/
inductive Spells : List α → β → Prop where
  | single {symbol : α} {character : β} (plain : code.role symbol = .single character) :
      Spells [symbol] character
  | sequence {lead : α} {following value : Nat} {rest : List α} {values : List Nat}
      (opens : code.role lead = .lead following value) (positive : 0 < following)
      (continues : rest.map code.role = values.map .continuation)
      (length : values.length = following) :
      Spells (lead :: rest) (code.character following (code.valueOf value values))

variable {code} {symbol : α}

section Step

variable {character : β} {following value : Nat}

theorem step_single (role : code.role symbol = .single character) (state : Option Sequence) :
    code.decoder.step state symbol = (none, code.interrupted state ++ [character]) := by
  simp [decoder, role]

theorem step_lead (role : code.role symbol = .lead following value) (state : Option Sequence) :
    code.decoder.step state symbol =
      (some ⟨following, following, value⟩, code.interrupted state) := by
  simp [decoder, role]

theorem step_stray (role : code.role symbol = .stray) (state : Option Sequence) :
    code.decoder.step state symbol = (state, [code.replacement]) := by
  simp [decoder, role]

theorem step_idle (role : code.role symbol = .continuation value) :
    code.decoder.step none symbol = (none, [code.replacement]) := by
  simp [decoder, role]

theorem step_continuation (role : code.role symbol = .continuation value) (sequence : Sequence) :
    code.decoder.step (some sequence) symbol = code.extend value sequence := by
  simp [decoder, role]

end Step

/-- Continuations that do not complete the sequence. -/
theorem run_continuations (values : List Nat) (rest : List α) (sequence : Sequence)
    (continues : rest.map code.role = values.map .continuation)
    (missing : values.length < sequence.missing) :
    code.decoder.run (some sequence) rest =
      (some ⟨sequence.missing - values.length, sequence.announced,
        code.valueOf sequence.value values⟩, []) := by
  induction rest generalizing values sequence with
  | nil =>
      obtain rfl : values = [] := by simpa using continues.symm
      rfl
  | cons symbol rest ih =>
      cases values with
      | nil => simp at continues
      | cons digit values =>
          rw [List.map_cons, List.map_cons, List.cons.injEq] at continues
          rw [List.length_cons] at missing ⊢
          rw [Streaming.Transducer.run_cons, step_continuation continues.1, extend,
            if_neg (by omega), ih values _ continues.2 (by dsimp only; omega)]
          simp only [List.nil_append, Prod.mk.injEq, Option.some.injEq, Sequence.mk.injEq,
            and_true, valueOf, List.foldl_cons]
          omega

/-- A character is put out whole, behind the replacement of a sequence it interrupts. -/
theorem run_spells {symbols : List α} {character : β} (spells : code.Spells symbols character)
    (state : Option Sequence) :
    code.decoder.run state symbols = (none, code.interrupted state ++ [character]) := by
  cases spells with
  | single plain =>
      rw [Streaming.Transducer.run_cons, Streaming.Transducer.run_nil, step_single plain,
        List.append_nil]
  | @sequence lead following value rest values opens positive continues length =>
      obtain ⟨front, last, rfl⟩ := (List.eq_nil_or_concat values).resolve_left (by
        rintro rfl
        exact absurd length (Nat.ne_of_lt positive))
      rw [List.concat_eq_append] at continues length ⊢
      rw [List.map_append, List.map_singleton] at continues
      obtain ⟨head, tail, rfl, front_eq, tail_eq⟩ := List.map_eq_append_iff.mp continues
      obtain ⟨final, rfl, last_eq⟩ := List.map_eq_singleton_iff.mp tail_eq
      rw [List.length_append, List.length_singleton] at length
      rw [Streaming.Transducer.run_cons, step_lead opens, Streaming.Transducer.run_append,
        run_continuations front head _ front_eq (by dsimp only; omega),
        Streaming.Transducer.run_cons, Streaming.Transducer.run_nil, step_continuation last_eq,
        extend, if_pos (by dsimp only; omega)]
      simp only [valueOf, List.foldl_append, List.foldl_cons, List.foldl_nil, List.nil_append,
        List.append_nil]

/-- **Synchronisation.** A text is decoded as it is from any state, behind the replacement of
a sequence that it interrupts. -/
theorem run_text (text : List (List α × β)) (spelled : ∀ part ∈ text, code.Spells part.1 part.2)
    (present : text ≠ []) (state : Option Sequence) :
    code.decoder.run state (text.map Prod.fst).flatten =
      (none, code.interrupted state ++ text.map Prod.snd) := by
  induction text generalizing state with
  | nil => exact absurd rfl present
  | cons part text ih =>
      obtain ⟨first, others⟩ := List.forall_mem_cons.mp spelled
      rw [List.map_cons, List.flatten_cons, Streaming.Transducer.run_append, run_spells first]
      cases text with
      | nil => simp
      | cons next text =>
          rw [ih others (List.cons_ne_nil _ _)]
          simp [interrupted]

/-- What has been read of an open sequence. -/
inductive Opened (code : Code α β) : Option Sequence → List α → Prop where
  | idle : Opened code none []
  | begun {lead : α} {following value : Nat} {rest : List α} {values : List Nat}
      (opens : code.role lead = .lead following value) (positive : 0 < following)
      (continues : rest.map code.role = values.map .continuation)
      (short : values.length < following) :
      Opened code
        (some ⟨following - values.length, following, code.valueOf value values⟩) (lead :: rest)

/-- Characters spelled in the input, one behind the other, with other symbols between. -/
def Reads (code : Code α β) (symbols : List α) (characters : List β) : Prop :=
  ∃ parts : List (List α × β), (∀ part ∈ parts, code.Spells part.1 part.2) ∧
    parts.map Prod.snd = characters ∧ (parts.map Prod.fst).flatten.Sublist symbols

theorem Reads.mono {symbols more : List α} {characters : List β}
    (reads : code.Reads symbols characters) (within : symbols.Sublist more) :
    code.Reads more characters := by
  obtain ⟨parts, spelled, same, inside⟩ := reads
  exact ⟨parts, spelled, same, inside.trans within⟩

theorem Reads.cons {part symbols : List α} {character : β} {characters : List β}
    (spells : code.Spells part character) (reads : code.Reads symbols characters) :
    code.Reads (part ++ symbols) (character :: characters) := by
  obtain ⟨parts, spelled, rfl, inside⟩ := reads
  refine ⟨(part, character) :: parts, List.forall_mem_cons.mpr ⟨spells, spelled⟩, rfl, ?_⟩
  rw [List.map_cons, List.flatten_cons]
  exact inside.append_left part

variable [DecidableEq β]

/-- A character that is put out, without the replacement. -/
theorem Reads.cons_filter {part symbols : List α} {character : β} {characters : List β}
    (spells : code.Spells part character)
    (reads : code.Reads symbols (characters.filter (· ≠ code.replacement))) :
    code.Reads (part ++ symbols) ((character :: characters).filter (· ≠ code.replacement)) := by
  by_cases replaced : character = code.replacement
  · rw [List.filter_cons_of_neg (by simpa using replaced)]
    exact reads.mono (List.sublist_append_right _ _)
  · rw [List.filter_cons_of_pos (by simpa using replaced)]
    exact reads.cons spells

theorem filter_interrupted (state : Option Sequence) (characters : List β) :
    (code.interrupted state ++ characters).filter (· ≠ code.replacement) =
      characters.filter (· ≠ code.replacement) := by
  cases state <;> simp [interrupted]

/-- **Soundness.** Whatever symbols are read, the characters that are put out, without the
replacements, are spelled in what was open before and in the input, in order. -/
theorem run_sound (symbols : List α)
    (announces : ∀ symbol following value, code.role symbol = .lead following value →
      0 < following)
    (state : Option Sequence) (held : List α) (opened : Opened code state held) :
    code.Reads (held ++ symbols)
      ((code.decoder.run state symbols).2.filter (· ≠ code.replacement)) := by
  induction symbols generalizing state held with
  | nil => exact ⟨[], by simp, rfl, List.nil_sublist _⟩
  | cons symbol symbols ih =>
      have behind : (symbol :: symbols).Sublist (held ++ symbol :: symbols) :=
        List.sublist_append_right _ _
      rw [Streaming.Transducer.run_cons]
      cases role : code.role symbol with
      | single character =>
          rw [step_single role, List.append_assoc, filter_interrupted]
          exact ((ih none [] .idle).cons_filter (.single role)).mono behind
      | lead following value =>
          rw [step_lead role, filter_interrupted]
          have begun : Opened code (some ⟨following, following, value⟩) [symbol] :=
            @Opened.begun _ _ code symbol following value [] [] role (announces _ _ _ role) rfl
              (announces _ _ _ role)
          exact (ih _ [symbol] begun).mono behind
      | stray =>
          rw [step_stray role, List.singleton_append, List.filter_cons_of_neg (by simp)]
          apply (ih state held opened).mono
          exact (List.sublist_cons_self symbol symbols).append_left held
      | continuation value =>
          cases opened with
          | idle =>
              rw [step_idle role, List.singleton_append, List.filter_cons_of_neg (by simp)]
              exact (ih none [] .idle).mono (List.sublist_cons_self symbol symbols)
          | @begun lead following base rest values opens positive continues short =>
              have longer : (rest ++ [symbol]).map code.role =
                  (values ++ [value]).map .continuation := by
                rw [List.map_append, List.map_append, continues, List.map_singleton, role]
                rfl
              have total : code.valueOf base (values ++ [value]) =
                  code.valueOf base values * code.radix + value := by
                rw [valueOf, List.foldl_append]
                rfl
              rw [step_continuation role, extend]
              split_ifs with last
              · -- the continuation completes the sequence
                dsimp only at last
                have whole : (values ++ [value]).length = following := by
                  rw [List.length_append, List.length_singleton]
                  omega
                have spells := Spells.sequence opens positive longer whole
                rw [total] at spells
                have done := (ih none [] .idle).cons_filter spells
                rw [List.nil_append] at done
                simpa using done
              · dsimp only at last
                have held' := Opened.begun opens positive longer (by
                  rw [List.length_append, List.length_singleton]
                  omega)
                rw [total, List.length_append, List.length_singleton, ← Nat.sub_sub] at held'
                have later := ih _ _ held'
                simpa using later

omit [DecidableEq β]

/-- The symbol is a continuation that is taken into an open sequence. -/
def takes (code : Code α β) (state : Option Sequence) (symbol : α) : Bool :=
  match code.role symbol with
  | .continuation _ => state.isSome
  | _ => false

/-- How many continuations are taken into a sequence. -/
def taken (code : Code α β) : Option Sequence → List α → Nat
  | _, [] => 0
  | state, symbol :: symbols =>
      (code.takes state symbol).toNat + code.taken (code.decoder.step state symbol).1 symbols

/-- An open sequence counts as one. -/
def openCount (state : Option Sequence) : Nat := if state.isSome then 1 else 0

/-- **Counting.** Every symbol makes a character, apart from the continuations that are taken;
a sequence makes its character when it ends, not when it begins. -/
theorem run_length (symbols : List α) (state : Option Sequence) :
    (code.decoder.run state symbols).2.length + code.taken state symbols +
        openCount (code.decoder.run state symbols).1 =
      symbols.length + openCount state := by
  induction symbols generalizing state with
  | nil => simp [taken]
  | cons symbol symbols ih =>
      have later := ih (code.decoder.step state symbol).1
      have here : (code.decoder.step state symbol).2.length +
          (code.takes state symbol).toNat + openCount (code.decoder.step state symbol).1 =
            1 + openCount state := by
        cases role : code.role symbol with
        | single =>
            rw [step_single role, takes, role]
            cases state <;> simp [interrupted, openCount]
        | lead =>
            rw [step_lead role, takes, role]
            cases state <;> simp [interrupted, openCount]
        | stray =>
            rw [step_stray role, takes, role]
            rfl
        | continuation value =>
            cases state with
            | none =>
                rw [step_idle role, takes, role]
                rfl
            | some sequence =>
                rw [step_continuation role, extend, takes, role]
                split_ifs <;> rfl
      rw [Streaming.Transducer.run_cons, taken, List.length_append, List.length_cons]
      dsimp only
      omega

end Code

end Codec
