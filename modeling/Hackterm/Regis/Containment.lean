import Hackterm.Regis.Fits
import Mathlib.Logic.Relation

/-! # Writes behind a ReGIS payload

A payload lies in the middle of what was read from the host, and the handlers wipe
delimiters in it. They look for them as far as the memory goes, so a command that lacks its
delimiter may wipe one that the host sent behind the payload. All other bytes are as they
were exactly if no command that the loop comes to does that
(`Hackterm.dcsHandler_contained_iff`).
-/

namespace Hackterm

open CString (wipe)

/-- The loop of `regis_processor` as in `regisLoop`, with the memory it leaves. -/
def regisRun (cmd cmdlen : Nat) : Nat → Regis → List UInt8 → Nat → Option (Regis × List UInt8)
  | 0, _, _, _ => none
  | turns + 1, st, memory, command => do
      let (st, memory, command) ← regisProcessCommand st memory command
      let clen : Int := cmdlen - ((command : Int) - cmd)
      if clen < 2 then some (st, memory)
      else
        let byte ← memory[command]?
        if byte = 0 then some (st, memory) else regisRun cmd cmdlen turns st memory command

/-- `dcs_handler` on a payload that starts at an offset, with the memory it leaves. -/
def dcsHandlerRun (st : Regis) (memory : List UInt8) (start cmdlen : Nat) :
    Option (Regis × List UInt8) :=
  if cmdlen < 3 then some (st, memory)
  else regisRun (start + 2) cmdlen cmdlen st memory (start + 2)

/-- The run and the loop leave the same state. -/
theorem regisLoop_eq_regisRun (cmd cmdlen turns : Nat) (st : Regis) (memory : List UInt8)
    (command : Nat) :
    regisLoop cmd cmdlen turns st memory command =
      (regisRun cmd cmdlen turns st memory command).map Prod.fst := by
  induction turns generalizing st memory command with
  | zero => rfl
  | succ turns ih =>
      rw [regisLoop, regisRun]
      cases regisProcessCommand st memory command with
      | none => rfl
      | some returned =>
          obtain ⟨after, wiped, next⟩ := returned
          simp only [Option.bind_eq_bind, Option.bind_some]
          split
          · rfl
          · cases wiped[next]? with
            | none => rfl
            | some byte =>
                rw [Option.bind_some, Option.bind_some]
                split
                · rfl
                · exact ih after wiped next

theorem dcsHandler_eq_dcsHandlerRun (st : Regis) (memory : List UInt8) (cmdlen : Nat) :
    dcsHandler st memory cmdlen = (dcsHandlerRun st memory 0 cmdlen).map Prod.fst := by
  rw [dcsHandler, dcsHandlerRun]
  split
  · rfl
  · exact regisLoop_eq_regisRun 2 cmdlen cmdlen st memory 2

/-- Where the loop stands: the state, the memory and the command it comes to. -/
abbrev RegisPlace := Regis × List UInt8 × Nat

/-- The loop ends behind a command: behind the payload or at a NUL. -/
def regisEnds (cmd cmdlen : Nat) (memory : List UInt8) (next : Nat) : Prop :=
  (cmdlen : Int) - ((next : Int) - cmd) < 2 ∨ memory[next]? = some 0

/-- One turn of the loop leads from one command to the next. -/
def RegisTurn (cmd cmdlen : Nat) (place next : RegisPlace) : Prop :=
  regisProcessCommand place.1 place.2.1 place.2.2 = some next ∧
    next.2.1[next.2.2]?.isSome ∧ ¬ regisEnds cmd cmdlen next.2.1 next.2.2

/-- The command at a place can be read and fits its handler, the byte behind it can be read if
it does not end the payload, and the delimiters that it wipes lie inside the payload. -/
structure TurnContained (start cmdlen : Nat) (place : RegisPlace) : Prop where
  reads : CommandReads place.2.1 place.2.2
  behind : ∀ next, regisProcessCommand place.1 place.2.1 place.2.2 = some next →
    (cmdlen : Int) - ((next.2.2 : Int) - (start + 2 : Nat)) < 2 ∨ next.2.1[next.2.2]?.isSome
  inside : ∀ wiped ∈ commandWipes place.2.1 place.2.2, start ≤ wiped ∧ wiped < start + cmdlen

/-- The payload is handled, and every byte that is not one of it is as it was. -/
def WritesInside (st : Regis) (front payload behind : List UInt8) : Prop :=
  ∃ after wiped, dcsHandlerRun st (front ++ payload ++ behind) front.length payload.length =
    some (after, front ++ wiped ++ behind) ∧ wiped.length = payload.length

/-- All commands that the loop comes to are contained, if it starts at all. -/
def CommandsContained (st : Regis) (front payload behind : List UInt8) : Prop :=
  payload.length < 3 ∨ ∀ place,
    Relation.ReflTransGen (RegisTurn (front.length + 2) payload.length)
        (st, front ++ payload ++ behind, front.length + 2) place →
      TurnContained front.length payload.length place

/-- Bytes are only ever overwritten with NUL. -/
structure OnlyWiped (memory final : List UInt8) : Prop where
  length : final.length = memory.length
  bytes : ∀ i : Nat, final[i]? = memory[i]? ∨ final[i]? = some 0

/-- Every byte outside a range is as it was. -/
def KeepsOutside (start cmdlen : Nat) (memory final : List UInt8) : Prop :=
  ∀ i : Nat, i < start ∨ start + cmdlen ≤ i → final[i]? = memory[i]?

section Wiped

variable {memory wiped final : List UInt8} {start cmdlen cmd : Nat}

theorem onlyWiped_wipe (memory : List UInt8) (places : List Nat) :
    OnlyWiped memory (wipe memory places) := by
  refine ⟨CString.length_wipe memory places, fun i => ?_⟩
  rw [CString.getElem?_wipe]
  split
  · cases memory[i]? with
    | none => exact Or.inl rfl
    | some byte => exact Or.inr rfl
  · exact Or.inl rfl

theorem OnlyWiped.trans (first : OnlyWiped memory wiped) (second : OnlyWiped wiped final) :
    OnlyWiped memory final := by
  refine ⟨second.length.trans first.length, fun i => ?_⟩
  rcases second.bytes i with same | nul
  · rw [same]
    exact first.bytes i
  · exact Or.inr nul

/-- A byte that is as it was at the end was so all the time. -/
theorem OnlyWiped.keepsOutside_iff (first : OnlyWiped memory wiped)
    (second : OnlyWiped wiped final) :
    KeepsOutside start cmdlen memory final ↔
      KeepsOutside start cmdlen memory wiped ∧ KeepsOutside start cmdlen wiped final := by
  constructor
  · intro keeps
    have between (i : Nat) (outside : i < start ∨ start + cmdlen ≤ i) : wiped[i]? = memory[i]? := by
      rcases first.bytes i with same | nul
      · exact same
      · have last := keeps i outside
        rcases second.bytes i with kept | wipedLater
        · exact kept.symm.trans last
        · rw [nul, ← wipedLater, last]
    exact ⟨between, fun i outside => (keeps i outside).trans (between i outside).symm⟩
  · rintro ⟨before, after⟩ i outside
    exact (after i outside).trans (before i outside)

/-- What a command wipes was not NUL. -/
theorem commandWipes_spec {place : Nat} (wipes : place ∈ commandWipes memory cmd) :
    ∃ byte, memory[place]? = some byte ∧ byte ≠ 0 := by
  have found {pointer : Nat} {delim : UInt8} (member : place ∈ (CString.delimPlace memory pointer
      delim).toList) : ∃ byte, memory[place]? = some byte ∧ byte ≠ 0 := by
    obtain ⟨-, here, notNul, -⟩ := CString.delimPlace_spec (Option.mem_toList.mp member)
    exact ⟨delim, here, notNul⟩
  have point {gap : Nat} (member : place ∈ pointWipes gap memory cmd) :
      ∃ byte, memory[place]? = some byte ∧ byte ≠ 0 := by
    rw [pointWipes] at member
    split at member
    · simp at member
    · rename_i comma located
      rcases List.mem_cons.mp member with rfl | bracket
      · exact found (Option.mem_toList.mpr located)
      · exact found bracket
  rw [commandWipes] at wipes
  split_ifs at wipes
  · exact found wipes
  · exact found wipes
  · exact found wipes
  · simp at wipes
  · exact point wipes
  · simp at wipes
  · exact point wipes
  · simp at wipes

/-- A command keeps the bytes outside exactly if it wipes none of them. -/
theorem keepsOutside_wipes_iff :
    KeepsOutside start cmdlen memory (wipe memory (commandWipes memory cmd)) ↔
      ∀ place ∈ commandWipes memory cmd, start ≤ place ∧ place < start + cmdlen := by
  constructor
  · intro keeps place member
    obtain ⟨byte, here, notNul⟩ := commandWipes_spec member
    by_contra outside
    have same := keeps place (by omega)
    rw [CString.getElem?_wipe, if_pos member, here, Option.map_some] at same
    exact notNul (Option.some.inj same).symm
  · intro inside i outside
    rw [CString.getElem?_wipe, if_neg fun member => ?_]
    have within := inside i member
    omega

end Wiped

section Run

variable {start cmdlen turns command : Nat} {st after : Regis} {memory final : List UInt8}

theorem regisRun_onlyWiped {cmd : Nat}
    (finished : regisRun cmd cmdlen turns st memory command = some (after, final)) :
    OnlyWiped memory final := by
  induction turns generalizing st memory command with
  | zero => cases finished
  | succ turns ih =>
      obtain ⟨⟨handled, wiped, next⟩, processed, finished⟩ := Option.bind_eq_some_iff.mp finished
      have here : OnlyWiped memory wiped := by
        rw [(regisProcessCommand_rejects processed).wipes]
        exact onlyWiped_wipe _ _
      dsimp only at finished
      split at finished
      · obtain ⟨-, rfl⟩ := Prod.mk.inj (Option.some.inj finished)
        exact here
      · obtain ⟨byte, -, finished⟩ := Option.bind_eq_some_iff.mp finished
        split at finished
        · obtain ⟨-, rfl⟩ := Prod.mk.inj (Option.some.inj finished)
          exact here
        · exact here.trans (ih finished)

/-- What holds at every place that is reached holds at the first one and at those reached
from the next one. -/
theorem reached_iff {cmd : Nat} (holds : RegisPlace → Prop) (place : RegisPlace) :
    (∀ other, Relation.ReflTransGen (RegisTurn cmd cmdlen) place other → holds other) ↔
      holds place ∧ ∀ next, RegisTurn cmd cmdlen place next →
        ∀ other, Relation.ReflTransGen (RegisTurn cmd cmdlen) next other → holds other := by
  constructor
  · exact fun all => ⟨all place .refl, fun next turn other reached => all other (reached.head turn)⟩
  · rintro ⟨here, later⟩ other reached
    rcases reached.cases_head with rfl | ⟨next, turn, reached⟩
    · exact here
    · exact later next turn other reached

/-- A command that ends the loop. -/
theorem regisRun_ends {cmd next : Nat} {wiped : List UInt8}
    (processed : regisProcessCommand st memory command = some (after, wiped, next))
    (ended : regisEnds cmd cmdlen wiped next) :
    regisRun cmd cmdlen (turns + 1) st memory command = some (after, wiped) := by
  rw [regisRun, processed, Option.bind_eq_bind, Option.bind_some]
  dsimp only
  split
  · rfl
  · rename_i inside
    rw [ended.resolve_left inside]
    rfl

/-- A command behind which the loop goes on. -/
theorem regisRun_turn {cmd next : Nat} {wiped : List UInt8}
    (turn : RegisTurn cmd cmdlen (st, memory, command) (after, wiped, next)) :
    regisRun cmd cmdlen (turns + 1) st memory command =
      regisRun cmd cmdlen turns after wiped next := by
  obtain ⟨processed, readable, more⟩ := turn
  obtain ⟨inside, notNul⟩ := not_or.mp more
  obtain ⟨byte, read⟩ := Option.isSome_iff_exists.mp readable
  dsimp only at processed inside notNul read
  have other : byte ≠ 0 := fun nul => notNul (nul ▸ read)
  rw [regisRun, processed, Option.bind_eq_bind, Option.bind_some]
  dsimp only
  rw [if_neg inside, read, Option.bind_eq_bind, Option.bind_some, if_neg other]

/-- A command inside the payload behind which no byte can be read. -/
theorem regisRun_unreadable {cmd next : Nat} {wiped : List UInt8}
    (processed : regisProcessCommand st memory command = some (after, wiped, next))
    (inside : ¬ (cmdlen : Int) - ((next : Int) - cmd) < 2) (unread : wiped[next]? = none) :
    regisRun cmd cmdlen (turns + 1) st memory command = none := by
  rw [regisRun, processed, Option.bind_eq_bind, Option.bind_some]
  dsimp only
  rw [if_neg inside, unread]
  rfl

/-- The bytes that a command keeps. -/
theorem regisProcessCommand_keeps_iff {next : Nat} {wiped : List UInt8}
    (processed : regisProcessCommand st memory command = some (after, wiped, next)) :
    KeepsOutside start cmdlen memory wiped ↔
      ∀ place ∈ commandWipes memory command, start ≤ place ∧ place < start + cmdlen := by
  rw [(regisProcessCommand_rejects processed).wipes]
  exact keepsOutside_wipes_iff

/-- A run from a command on ends and keeps the bytes outside the payload. -/
def RunKeeps (start cmdlen turns : Nat) (place : RegisPlace) : Prop :=
  ∃ after final,
    regisRun (start + 2) cmdlen turns place.1 place.2.1 place.2.2 = some (after, final) ∧
      KeepsOutside start cmdlen place.2.1 final

/-- A command that is handled is contained exactly if the byte behind it can be read and it
wipes inside the payload. -/
theorem turnContained_iff {next : Nat} {wiped : List UInt8}
    (processed : regisProcessCommand st memory command = some (after, wiped, next)) :
    TurnContained start cmdlen (st, memory, command) ↔
      ((cmdlen : Int) - ((next : Int) - (start + 2 : Nat)) < 2 ∨ (wiped[next]?).isSome) ∧
        ∀ place ∈ commandWipes memory command, start ≤ place ∧ place < start + cmdlen := by
  have reads : CommandReads memory command := by
    rw [← @regisProcessCommand_isSome_iff_reads st, processed]
    rfl
  constructor
  · rintro ⟨-, behind, inside⟩
    exact ⟨behind _ processed, inside⟩
  · rintro ⟨behind, inside⟩
    refine ⟨reads, fun place reached => ?_, inside⟩
    obtain rfl := Option.some.inj (processed.symm.trans reached)
    exact behind

/-- A command that ends the loop alone decides what the run keeps. -/
theorem runKeeps_iff_of_ends {next : Nat} {wiped : List UInt8} (later : RegisPlace → Prop)
    (processed : regisProcessCommand st memory command = some (after, wiped, next))
    (ended : regisEnds (start + 2) cmdlen wiped next) :
    RunKeeps start cmdlen (turns + 1) (st, memory, command) ↔
      TurnContained start cmdlen (st, memory, command) ∧
        ∀ place, RegisTurn (start + 2) cmdlen (st, memory, command) place → later place := by
  have here : KeepsOutside start cmdlen memory wiped ↔ _ :=
    regisProcessCommand_keeps_iff processed
  have readable : (cmdlen : Int) - ((next : Int) - (start + 2 : Nat)) < 2 ∨
      (wiped[next]?).isSome := ended.imp_right fun nul => by rw [nul]; rfl
  rw [RunKeeps, regisRun_ends processed ended]
  constructor
  · rintro ⟨last, final, finished, keeps⟩
    obtain ⟨-, rfl⟩ := Prod.mk.inj (Option.some.inj finished)
    refine ⟨(turnContained_iff processed).mpr ⟨readable, here.mp keeps⟩, ?_⟩
    rintro place ⟨reached, -, more⟩
    obtain rfl := Option.some.inj (processed.symm.trans reached)
    exact absurd ended more
  · rintro ⟨contained, -⟩
    exact ⟨after, wiped, rfl, here.mpr contained.inside⟩

/-- A run that goes on behind a command keeps what the command and the rest of the run keep. -/
theorem runKeeps_iff_of_turn {next : RegisPlace} {later : RegisPlace → Prop}
    (turn : RegisTurn (start + 2) cmdlen (st, memory, command) next)
    (rest : RunKeeps start cmdlen turns next ↔ later next) :
    RunKeeps start cmdlen (turns + 1) (st, memory, command) ↔
      TurnContained start cmdlen (st, memory, command) ∧
        ∀ place, RegisTurn (start + 2) cmdlen (st, memory, command) place → later place := by
  obtain ⟨handled, wiped, behind⟩ := next
  have processed := turn.1
  have here : KeepsOutside start cmdlen memory wiped ↔ _ :=
    regisProcessCommand_keeps_iff processed
  have first : OnlyWiped memory wiped :=
    (regisProcessCommand_rejects processed).wipes ▸ onlyWiped_wipe _ _
  rw [RunKeeps, regisRun_turn turn]
  constructor
  · rintro ⟨after, final, finished, keeps⟩
    obtain ⟨before, behind⟩ := (first.keepsOutside_iff (regisRun_onlyWiped finished)).mp keeps
    refine ⟨(turnContained_iff processed).mpr ⟨Or.inr turn.2.1, here.mp before⟩, ?_⟩
    rintro place ⟨reached, -⟩
    obtain rfl := Option.some.inj (processed.symm.trans reached)
    exact rest.mp ⟨after, final, finished, behind⟩
  · rintro ⟨contained, all⟩
    obtain ⟨after, final, finished, behind⟩ := rest.mpr (all _ turn)
    exact ⟨after, final, finished, (first.keepsOutside_iff (regisRun_onlyWiped finished)).mpr
      ⟨here.mpr contained.inside, behind⟩⟩

/-- **The loop.** It ends and keeps the bytes outside the payload exactly if all commands that it
comes to are contained. -/
theorem regisRun_keeps_iff (started : turns ≠ 0)
    (enough : cmdlen + (start + 2) < command + turns + 2) :
    RunKeeps start cmdlen turns (st, memory, command) ↔
      ∀ place, Relation.ReflTransGen (RegisTurn (start + 2) cmdlen) (st, memory, command) place →
        TurnContained start cmdlen place := by
  induction turns generalizing st memory command with
  | zero => exact absurd rfl started
  | succ turns ih =>
      rw [reached_iff]
      cases processed : regisProcessCommand st memory command with
      | none =>
          refine iff_of_false (by simp [RunKeeps, regisRun, processed]) fun contained => ?_
          have handled := (@regisProcessCommand_isSome_iff_reads st _ _).mpr contained.1.reads
          rw [processed] at handled
          cases handled
      | some returned =>
          obtain ⟨handled, wiped, next⟩ := returned
          have ahead := regisProcessCommand_advances processed
          by_cases ended : regisEnds (start + 2) cmdlen wiped next
          · exact runKeeps_iff_of_ends _ processed ended
          · obtain ⟨inside, notNul⟩ := not_or.mp ended
            cases read : wiped[next]? with
            | none =>
                have undefined := @regisRun_unreadable cmdlen turns command st handled memory _ next
                  wiped processed inside read
                refine iff_of_false (by simp [RunKeeps, undefined]) fun contained => ?_
                have readable := ((turnContained_iff processed).mp contained.1).1
                rw [read] at readable
                exact readable.elim inside Bool.false_ne_true
            | some byte =>
                exact runKeeps_iff_of_turn ⟨processed, by rw [read]; rfl, ended⟩
                  (ih (by omega) (by omega))

end Run

/-- A memory that is kept outside the payload has the same bytes around another payload. -/
theorem keepsOutside_append_iff (front payload behind final : List UInt8)
    (length : final.length = (front ++ payload ++ behind).length) :
    KeepsOutside front.length payload.length (front ++ payload ++ behind) final ↔
      ∃ wiped, final = front ++ wiped ++ behind ∧ wiped.length = payload.length := by
  constructor
  · intro keeps
    have total : final.length = front.length + payload.length + behind.length := by
      rw [length, List.length_append, List.length_append]
    refine ⟨(final.drop front.length).take payload.length, ?_, ?_⟩
    · apply List.ext_getElem?
      intro i
      by_cases before : i < front.length
      · rw [keeps i (Or.inl before), List.append_assoc, List.append_assoc,
          List.getElem?_append_left before, List.getElem?_append_left before]
      · by_cases inside : i < front.length + payload.length
        · rw [List.append_assoc, List.getElem?_append_right (by omega),
            List.getElem?_append_left (by rw [List.length_take, List.length_drop]; omega),
            List.getElem?_take_of_lt (by omega), List.getElem?_drop,
            Nat.add_sub_cancel' (by omega)]
        · rw [keeps i (Or.inr (by omega)), List.getElem?_append_right (by
            rw [List.length_append]; omega), List.getElem?_append_right (by
            rw [List.length_append, List.length_take, List.length_drop]; omega)]
          congr 1
          rw [List.length_append, List.length_append, List.length_take, List.length_drop]
          omega
    · rw [List.length_take, List.length_drop]
      omega
  · rintro ⟨wiped, rfl, same⟩ i outside
    rcases outside with before | after
    · rw [List.append_assoc, List.append_assoc, List.getElem?_append_left before,
        List.getElem?_append_left before]
    · rw [List.getElem?_append_right (by rw [List.length_append]; omega),
        List.getElem?_append_right (by rw [List.length_append]; omega), List.length_append,
        List.length_append, same]

/-- **Writes behind a payload.** The handler writes nothing outside the payload exactly if all
commands that it comes to are contained in it. -/
theorem dcsHandler_contained_iff (st : Regis) (front payload behind : List UInt8) :
    WritesInside st front payload behind ↔ CommandsContained st front payload behind := by
  rw [WritesInside, CommandsContained, dcsHandlerRun]
  by_cases short : payload.length < 3
  · rw [if_pos short]
    exact iff_of_true ⟨st, payload, rfl, rfl⟩ (Or.inl short)
  · have run : RunKeeps front.length payload.length payload.length
        (st, front ++ payload ++ behind, front.length + 2) ↔ _ :=
      regisRun_keeps_iff (by omega) (by omega)
    rw [if_neg short, ← run]
    constructor
    · rintro ⟨after, wiped, finished, same⟩
      refine Or.inr ⟨after, _, finished, ?_⟩
      exact (keepsOutside_append_iff front payload behind _
        (regisRun_onlyWiped finished).length).mpr ⟨wiped, rfl, same⟩
    · intro keeps
      obtain ⟨after, final, finished, kept⟩ := keeps.resolve_left short
      obtain ⟨wiped, rfl, same⟩ := (keepsOutside_append_iff front payload behind final
        (regisRun_onlyWiped finished).length).mp kept
      exact ⟨after, wiped, finished, same⟩

/-- A text command without its quote wipes a quote that the host sent behind the payload. -/
theorem dcsHandler_wipes_behind :
    let st : Regis := ⟨0, 0, true, [], []⟩
    let payload := CString.ascii "0pT'a"
    let behind := CString.ascii "\x1b\\it's"
    (dcsHandlerRun st ([] ++ payload ++ behind) 0 payload.length).map Prod.snd =
        some (payload ++ CString.ascii "\x1b\\it\x00s") ∧
      ¬ WritesInside st [] payload behind := by
  intro st payload behind
  have left : (dcsHandlerRun st ([] ++ payload ++ behind) 0 payload.length).map Prod.snd =
      some (payload ++ CString.ascii "\x1b\\it\x00s") := by decide +kernel
  refine ⟨left, ?_⟩
  rintro ⟨after, wiped, finished, same⟩
  have whole : dcsHandlerRun st ([] ++ payload ++ behind) 0 payload.length =
      some (after, [] ++ wiped ++ behind) := finished
  rw [whole, Option.map_some, Option.some.injEq, List.nil_append] at left
  have tails := (List.append_inj left same).2
  exact absurd tails (by decide)

end Hackterm
