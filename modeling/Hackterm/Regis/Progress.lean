import Hackterm.Regis.Containment

/-! # Progress of the ReGIS loop

A handler that returns has passed a byte of the payload, so the loop ends. For a payload
that a NUL follows, the loop makes progress exactly if every command that it comes to is
closed behind the places from which its handler looks for delimiters, and its text and
numbers fit (`Hackterm.regisProcessor_progresses_iff`).
-/

namespace Hackterm

/-- Where the loop can stand: not behind the payload, and with a NUL behind it. -/
structure BeforeNul (cmd cmdlen : Nat) (place : RegisPlace) : Prop where
  inside : place.2.2 + 2 ≤ cmd + cmdlen
  closed : 0 ∈ place.2.1.drop (cmd + cmdlen - 2)

/-- Every call that the loop makes returns a pointer behind its argument, and the loop ends
within `cmdlen` turns. -/
structure LoopProgresses (st : Regis) (memory : List UInt8) (cmd cmdlen : Nat) : Prop where
  advances : ∀ place, Relation.ReflTransGen (RegisTurn cmd cmdlen) (st, memory, cmd) place →
    ∃ next, regisProcessCommand place.1 place.2.1 place.2.2 = some next ∧ place.2.2 < next.2.2
  ends : ∃ after, regisLoop cmd cmdlen cmdlen st memory cmd = some after

section Loop

variable {st after : Regis} {memory wiped : List UInt8} {cmd cmdlen turns command next : Nat}

/-- Wiping keeps the NUL behind the payload. -/
theorem OnlyWiped.nul_mem_drop (wipes : OnlyWiped memory wiped) {pointer : Nat}
    (closed : 0 ∈ memory.drop pointer) : 0 ∈ wiped.drop pointer := by
  obtain ⟨nul, behind, zero⟩ := CString.mem_drop_iff.mp closed
  refine CString.mem_drop_iff.mpr ⟨nul, behind, ?_⟩
  rcases wipes.bytes nul with same | zeroed
  · exact same.trans zero
  · exact zeroed

/-- A command keeps the NUL behind the payload. -/
theorem BeforeNul.closed_after (before : BeforeNul cmd cmdlen (st, memory, command))
    (processed : regisProcessCommand st memory command = some (after, wiped, next)) :
    0 ∈ wiped.drop (cmd + cmdlen - 2) := by
  have wipes : OnlyWiped memory wiped :=
    (regisProcessCommand_rejects processed).wipes ▸ onlyWiped_wipe _ _
  exact wipes.nul_mem_drop before.closed

/-- The loop goes on before the NUL. -/
theorem BeforeNul.turn {place other : RegisPlace} (before : BeforeNul cmd cmdlen place)
    (turn : RegisTurn cmd cmdlen place other) : BeforeNul cmd cmdlen other := by
  obtain ⟨processed, -, more⟩ := turn
  have inside := (not_or.mp more).1
  exact ⟨by omega, before.closed_after processed⟩

theorem BeforeNul.reached {place other : RegisPlace} (before : BeforeNul cmd cmdlen place)
    (reached : Relation.ReflTransGen (RegisTurn cmd cmdlen) place other) :
    BeforeNul cmd cmdlen other := by
  induction reached with
  | refl => exact before
  | tail _ turn ih => exact ih.turn turn

/-- The command at a place before the NUL can be read, and a NUL follows. -/
theorem BeforeNul.closed_here (before : BeforeNul cmd cmdlen (st, memory, command)) :
    0 ∈ memory.drop command := by
  obtain ⟨nul, behind, zero⟩ := CString.mem_drop_iff.mp before.closed
  have inside := before.inside
  dsimp only at inside
  exact CString.mem_drop_iff.mpr ⟨nul, by omega, zero⟩

/-- The loop ends, if every command that it comes to is handled. -/
theorem regisRun_isSome (started : turns ≠ 0) (enough : cmdlen + cmd < command + turns + 2)
    (before : BeforeNul cmd cmdlen (st, memory, command))
    (handled : ∀ place,
      Relation.ReflTransGen (RegisTurn cmd cmdlen) (st, memory, command) place →
        (regisProcessCommand place.1 place.2.1 place.2.2).isSome) :
    (regisRun cmd cmdlen turns st memory command).isSome := by
  induction turns generalizing st memory command with
  | zero => exact absurd rfl started
  | succ turns ih =>
      obtain ⟨⟨after, wiped, next⟩, processed⟩ := Option.isSome_iff_exists.mp (handled _ .refl)
      have ahead : command < next := regisProcessCommand_advances processed
      by_cases ended : regisEnds cmd cmdlen wiped next
      · rw [regisRun_ends processed ended]
        rfl
      · -- the NUL behind the payload lets the next byte be read
        obtain ⟨nul, behind, zero⟩ := CString.mem_drop_iff.mp (before.closed_after processed)
        have inside := (not_or.mp ended).1
        have readable : next < wiped.length := by
          have last := (List.getElem?_eq_some_iff.mp zero).1
          omega
        have turn : RegisTurn cmd cmdlen (st, memory, command) (after, wiped, next) :=
          ⟨processed, by rw [List.getElem?_eq_getElem readable]; rfl, ended⟩
        rw [regisRun_turn turn]
        exact ih (by omega) (by omega) (before.turn turn)
          fun place reached => handled place (reached.head turn)

/-- **Progress of the loop.** For a payload that is followed by a NUL, every call that
`regis_processor` makes returns a pointer behind its argument, and the loop ends within
`cmdlen` turns, exactly if every command that it comes to fits. -/
theorem regisProcessor_progresses_iff (st : Regis) (memory : List UInt8) (cmd cmdlen : Nat)
    (long : 3 ≤ cmdlen) (followed : 0 ∈ memory.drop (cmd + cmdlen - 2)) :
    LoopProgresses st memory cmd cmdlen ↔
      ∀ place, Relation.ReflTransGen (RegisTurn cmd cmdlen) (st, memory, cmd) place →
        CommandFits place.2.1 place.2.2 := by
  have before : BeforeNul cmd cmdlen (st, memory, cmd) := by
    refine ⟨?_, followed⟩
    dsimp only
    omega
  have returns : ∀ place, Relation.ReflTransGen (RegisTurn cmd cmdlen) (st, memory, cmd) place →
      ((regisProcessCommand place.1 place.2.1 place.2.2).isSome ↔
        CommandFits place.2.1 place.2.2) :=
    fun place reached => regisProcessCommand_isSome_iff (before.reached reached).closed_here
  constructor
  · intro progresses place reached
    obtain ⟨next, processed, -⟩ := progresses.advances place reached
    rw [← returns place reached, processed]
    rfl
  · intro fits
    have handled := fun place reached => (returns place reached).mpr (fits place reached)
    constructor
    · intro place reached
      obtain ⟨next, processed⟩ := Option.isSome_iff_exists.mp (handled place reached)
      exact ⟨next, processed, regisProcessCommand_advances processed⟩
    · rw [regisLoop_eq_regisRun, ← Option.isSome_iff_exists, Option.isSome_map]
      exact regisRun_isSome (by omega) (by omega) before handled

end Loop

theorem regisProcessor_progresses_position :
    let memory := CString.ascii "0pP[1,2]" ++ [0]
    (3 ≤ 8 ∧ 0 ∈ memory.drop (2 + 8 - 2)) ∧ LoopProgresses ⟨0, 0, true, [], []⟩ memory 2 8 := by
  intro memory
  have followed : 0 ∈ memory.drop (2 + 8 - 2) := by decide
  have fits : CommandFits memory 2 :=
    (regisProcessCommand_isSome_iff (by decide)).mp
      (show (regisProcessCommand ⟨0, 0, true, [], []⟩ memory 2).isSome by decide)
  refine ⟨⟨by decide, followed⟩,
    (regisProcessor_progresses_iff _ memory 2 8 (by decide) followed).mpr ?_⟩
  rw [reached_iff]
  refine ⟨fits, ?_⟩
  rintro next ⟨processed, -, more⟩
  have returned : regisProcessCommand ⟨0, 0, true, [], []⟩ memory 2 =
      some (⟨1, 2, false, [], [0x50]⟩, CString.ascii "0pP[1\x002\x00" ++ [0], 8) := by decide
  obtain rfl := Option.some.inj (returned.symm.trans processed)
  exact absurd (Or.inr (by decide)) more

/-- A position whose comma is the last byte before the closing NUL: the bracket is looked for
behind the memory. -/
theorem regisProcessor_passes_nul :
    let memory := CString.ascii "0pP\x1b\\," ++ [0]
    (3 ≤ 3 ∧ 0 ∈ memory.drop (2 + 3)) ∧ ¬ LoopProgresses ⟨0, 0, true, [], []⟩ memory 2 3 := by
  intro memory
  refine ⟨by decide, fun progresses => ?_⟩
  obtain ⟨next, processed, -⟩ := progresses.advances _ .refl
  have undefined : regisProcessCommand ⟨0, 0, true, [], []⟩ memory 2 = none := by decide
  rw [undefined] at processed
  cases processed

end Hackterm
