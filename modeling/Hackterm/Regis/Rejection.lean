import Hackterm.Regis.Containment
import Hackterm.Regis.Locality
import Hackterm.Regis.Program

/-! # Rejected ReGIS commands

A command without its delimiter is rejected: the loop goes on one byte further, or two behind a
vector, and should find the commands that stand later. It does not if the rejected command is a
point that has a comma, which is wiped, or a vector with a command right behind its letter, which
is passed by. Rejected commands do no harm exactly if the loop comes to none of these
(`Hackterm.regisRejections_harmless_iff`).
-/

namespace Hackterm

open CString (delimPlace Missing)

/-- A handler rejects the command at a place: it goes on at most two bytes further. -/
structure Rejection (place next : RegisPlace) : Prop where
  handed : ∃ letter ∈ place.2.1[place.2.2]?, (regisHandler letter).isSome
  processed : regisProcessCommand place.1 place.2.1 place.2.2 = some next
  missing : next.2.2 ≤ place.2.2 + 2

/-- The bytes stand at an offset of the payload. -/
def StandsAt (cmdlen : Nat) (memory : List UInt8) (place : Nat) (bytes : List UInt8) : Prop :=
  bytes <+: (memory.take cmdlen).drop place

/-- The text of a payload: items, and the letters of commands that are rejected. -/
inductive TextStep (cmdlen : Nat) (memory : List UInt8) (place : Nat) : Nat → Prop
  | item (item : RegisItem) (stands : StandsAt cmdlen memory place item.bytes) :
      TextStep cmdlen memory place (place + item.bytes.length)
  | rejected (st : Regis) (next : RegisPlace) (rejection : Rejection (st, memory, place) next) :
      TextStep cmdlen memory place (place + 1)

/-- The loop comes from a place to a command and carries it out. -/
def Executed (cmdlen : Nat) (origin : RegisPlace) (place : Nat) (command : RegisCommand) : Prop :=
  ∃ st memory wiped, Relation.ReflTransGen (RegisTurn 2 cmdlen) origin (st, memory, place) ∧
    regisProcessCommand st memory place =
      some (command.interpret (st.setIsClear false), wiped, place + command.bytes.length)

/-- A rejected command does no harm: it keeps the payload and the pen, and every well-formed
command later in the text is executed. -/
structure Harmless (cmdlen : Nat) (place next : RegisPlace) : Prop where
  intact : next.2.1.take cmdlen = place.2.1.take cmdlen
  pen : (next.1.penX, next.1.penY) = (place.1.penX, place.1.penY)
  later : ∀ other command,
    Relation.ReflTransGen (TextStep cmdlen place.2.1) (place.2.2 + 1) other →
      StandsAt cmdlen place.2.1 other command.bytes → Executed cmdlen place other command

/-- All commands that are rejected do no harm, wherever the loop of `regis_processor` comes to
them from its start on. -/
def RejectionsHarmless (st : Regis) (payload behind : List UInt8) (start : Nat) : Prop :=
  ∀ place, Relation.ReflTransGen (RegisTurn 2 payload.length)
      (st, payload ++ 0 :: behind, start) place →
    ∀ next, Rejection place next → Harmless payload.length place next

/-- The string from the command on has a comma of the payload for a point, and no bracket
behind it. -/
def LacksBracket (gap cmdlen : Nat) (memory : List UInt8) (cmd : Nat) : Prop :=
  ∃ comma < cmdlen, delimPlace memory (cmd + 2) 0x2C = some comma ∧
    Missing memory (comma + 1 + gap) 0x5D

/-- A point that has a comma has a bracket too, and behind the letter of a vector without comma
stands no command. -/
structure KeepsLater (cmdlen : Nat) (memory : List UInt8) (cmd : Nat) : Prop where
  position : memory[cmd]? = some 0x50 → ¬ LacksBracket 1 cmdlen memory cmd
  vector : memory[cmd]? = some 0x76 → ¬ CString.ascii "v[]" <+: memory.drop cmd →
    ¬ LacksBracket 0 cmdlen memory cmd
  skipped : memory[cmd]? = some 0x76 → delimPlace memory (cmd + 2) 0x2C = none →
    ∀ command : RegisCommand, ¬ StandsAt cmdlen memory (cmd + 1) command.bytes

section Points

variable {gap cmd comma : Nat} {memory wiped : List UInt8}

theorem regisPoint_noComma (missing : Missing memory (cmd + 2) 0x2C) :
    regisPoint gap memory cmd = some (memory, none) := by
  rw [regisPoint, CString.strsep_missing_iff.mpr ⟨rfl, missing⟩]
  rfl

/-- A point without its bracket is not read, but its comma is wiped. -/
theorem regisPoint_noBracket_iff (found : delimPlace memory (cmd + 2) 0x2C = some comma) :
    regisPoint gap memory cmd = some (wiped, none) ↔
      wiped = memory.set comma 0 ∧ Missing memory (comma + 1 + gap) 0x5D := by
  have behind : Missing (memory.set comma 0) (comma + 1 + gap) 0x5D ↔
      Missing memory (comma + 1 + gap) 0x5D := by
    rw [Missing, Missing, CString.delimPlace_set (by omega), List.drop_set_of_lt (by omega)]
  rw [← behind, ← CString.strsep_missing_iff, regisPoint, CString.strsep_found found,
    Option.bind_eq_bind, Option.bind_some]
  dsimp only
  constructor
  · intro parsed
    obtain ⟨⟨searched, ystr⟩, bracket, parsed⟩ := Option.bind_eq_some_iff.mp parsed
    cases ystr with
    | none =>
        obtain ⟨rfl, -⟩ := Prod.mk.inj (Option.some.inj parsed)
        exact bracket
    | some ystr =>
        obtain ⟨newX, -, parsed⟩ := Option.bind_eq_some_iff.mp parsed
        obtain ⟨newY, -, parsed⟩ := Option.bind_eq_some_iff.mp parsed
        cases parsed
  · intro bracket
    rw [bracket]
    rfl

end Points

section Rejected

variable {st : Regis} {memory : List UInt8} {cmd : Nat} {next : RegisPlace}

theorem regisProcessCommand_position (read : memory[cmd]? = some 0x50) :
    regisProcessCommand st memory cmd =
      regisProcessCmdPosition ((st.setIsClear false).dispatch 0x50) memory cmd := by
  rw [regisProcessCommand, read]
  rfl

theorem regisProcessCommand_vector (read : memory[cmd]? = some 0x76) :
    regisProcessCommand st memory cmd =
      regisProcessCmdVector ((st.setIsClear false).dispatch 0x76) memory cmd := by
  rw [regisProcessCommand, read]
  rfl

/-- A position is rejected if its point is not read. -/
theorem rejection_position {wiped : List UInt8} (read : memory[cmd]? = some 0x50)
    (parsed : regisPoint 1 memory cmd = some (wiped, none)) :
    Rejection (st, memory, cmd) ((st.setIsClear false).dispatch 0x50, wiped, cmd + 1) := by
  refine ⟨⟨0x50, read, rfl⟩, ?_, Nat.le_succ _⟩
  dsimp only
  rw [regisProcessCommand_position read, regisProcessCmdPosition, parsed]
  rfl

/-- A vector that is not empty is rejected if its point is not read. -/
theorem rejection_vector {wiped : List UInt8} (read : memory[cmd]? = some 0x76)
    (long : cmd + 2 < memory.length) (notEmpty : ¬ CString.ascii "v[]" <+: memory.drop cmd)
    (parsed : regisPoint 0 memory cmd = some (wiped, none)) :
    Rejection (st, memory, cmd) ((st.setIsClear false).dispatch 0x76, wiped, cmd + 2) := by
  refine ⟨⟨0x76, read, rfl⟩, ?_, Nat.le_refl _⟩
  have fits : (CString.ascii "v[]").length ≤ (memory.drop cmd).length := by
    rw [vectorLiteral, List.length_drop]
    exact Nat.le_sub_of_add_le' long
  dsimp only
  rw [regisProcessCommand_vector read, regisProcessCmdVector,
    CString.strncmp_of_not_prefix fits notEmpty, parsed]
  rfl

/-- What a rejected command leaves. -/
theorem Rejection.leaves (rejection : Rejection (st, memory, cmd) next) :
    next.2.1 = CString.wipe memory (rejectedWipes memory cmd) ∧
      next.2.2 = rejectedNext memory cmd ∧ (next.1.penX, next.1.penY) = (st.penX, st.penY) := by
  obtain ⟨wipes, outcome⟩ := regisProcessCommand_rejects rejection.processed
  obtain ⟨missed, all, penX, penY⟩ := outcome.resolve_left (Nat.not_lt.mpr rejection.missing)
  exact ⟨all ▸ wipes, missed, Prod.ext penX penY⟩

/-- The point of a rejected position is not read. -/
theorem Rejection.position (rejection : Rejection (st, memory, cmd) next)
    (read : memory[cmd]? = some 0x50) : ∃ wiped, regisPoint 1 memory cmd = some (wiped, none) := by
  have processed := rejection.processed
  rw [regisProcessCommand_position read] at processed
  obtain ⟨⟨wiped, found⟩, parsed, returned⟩ := Option.map_eq_some_iff.mp processed
  cases found with
  | none => exact ⟨wiped, parsed⟩
  | some found =>
      have ahead := (regisPoint_wipes parsed).2.2 found.1 found.2 rfl
      have missing := rejection.missing
      rw [← returned] at missing
      exact absurd ahead (Nat.not_lt.mpr missing)

/-- The point of a rejected vector is not read, and it is no empty vector. -/
theorem Rejection.vector (rejection : Rejection (st, memory, cmd) next)
    (read : memory[cmd]? = some 0x76) :
    ¬ CString.ascii "v[]" <+: memory.drop cmd ∧
      ∃ wiped, regisPoint 0 memory cmd = some (wiped, none) := by
  have processed := rejection.processed
  have missing := rejection.missing
  rw [regisProcessCommand_vector read, regisProcessCmdVector] at processed
  obtain ⟨empty, spelled, handled⟩ := Option.bind_eq_some_iff.mp processed
  cases empty with
  | true =>
      rw [← Option.some.inj handled] at missing
      exact absurd missing (Nat.not_succ_le_self _)
  | false =>
      constructor
      · rintro ⟨rest, same⟩
        rw [← same, CString.strncmp_append] at spelled
        cases spelled
      · obtain ⟨⟨wiped, found⟩, parsed, returned⟩ := Option.map_eq_some_iff.mp handled
        cases found with
        | none => exact ⟨wiped, parsed⟩
        | some found =>
            have ahead := (regisPoint_wipes parsed).2.2 found.1 found.2 rfl
            rw [← returned] at missing
            exact absurd ahead (Nat.not_lt.mpr missing)

/-- Where later commands are kept, a rejected command wipes nothing in the payload. -/
theorem KeepsLater.not_mem_rejectedWipes {cmdlen place : Nat}
    (keeps : KeepsLater cmdlen memory cmd) (rejection : Rejection (st, memory, cmd) next)
    (inside : place < cmdlen) : place ∉ rejectedWipes memory cmd := by
  intro wiped
  have lacks {gap : Nat} (found : delimPlace memory (cmd + 2) 0x2C = some place)
      (parsed : ∃ wiped, regisPoint gap memory cmd = some (wiped, none)) :
      LacksBracket gap cmdlen memory cmd := by
    obtain ⟨searched, parsed⟩ := parsed
    exact ⟨place, inside, found, ((regisPoint_noBracket_iff found).mp parsed).2⟩
  rw [rejectedWipes] at wiped
  split at wiped
  · rename_i point
    have found := Option.mem_toList.mp wiped
    rcases point with position | vector
    · exact keeps.position position (lacks found (rejection.position position))
    · obtain ⟨notEmpty, parsed⟩ := rejection.vector vector
      exact keeps.vector vector notEmpty (lacks found parsed)
  · cases wiped

/-- Where later commands are kept, a rejected command with a byte behind its letter wipes nothing
at all. -/
theorem KeepsLater.rejectedWipes_eq_nil {cmdlen : Nat} (keeps : KeepsLater cmdlen memory cmd)
    (rejection : Rejection (st, memory, cmd) next) (nul : memory[cmdlen]? = some 0)
    (inside : cmd + 1 < cmdlen) : rejectedWipes memory cmd = [] := by
  rw [List.eq_nil_iff_forall_not_mem]
  intro place wiped
  by_cases before : place < cmdlen
  · exact keeps.not_mem_rejectedWipes rejection before wiped
  · rw [rejectedWipes] at wiped
    split at wiped
    · obtain ⟨-, here, notNul, clean⟩ := CString.delimPlace_spec (Option.mem_toList.mp wiped)
      rcases Nat.eq_or_lt_of_le (Nat.not_lt.mp before) with same | behind
      · rw [← same, nul] at here
        exact notNul (Option.some.inj here).symm
      · exact clean cmdlen inside behind nul
    · cases wiped

/-- A command is rejected in every memory with the same bytes from it on. -/
theorem Rejection.elsewhere {other : Regis} {elsewhere : List UInt8}
    (rejection : Rejection (st, memory, cmd) next) (same : elsewhere.drop cmd = memory.drop cmd) :
    ∃ next, Rejection (other, elsewhere, cmd) next := by
  obtain ⟨letter, read, handles⟩ := rejection.handed
  have there : elsewhere[cmd]? = some letter :=
    (getElem?_of_drop_eq same (Nat.le_refl cmd)).trans read
  have inside {text : List UInt8} (read : text[cmd]? = some letter) :
      (text.take cmd).length = cmd :=
    List.length_take_of_le (Nat.le_of_lt (List.getElem?_eq_some_iff.mp read).1)
  have here := regisProcessCommand_local st other (memory.take cmd) (memory.drop cmd)
  have away := regisProcessCommand_local other other (elsewhere.take cmd) (elsewhere.drop cmd)
  rw [List.take_append_drop, inside read, rejection.processed] at here
  rw [List.take_append_drop, inside there, same] at away
  obtain ⟨found, searched, returned⟩ := Option.map_eq_some_iff.mp here.symm
  rw [searched] at away
  obtain ⟨after, processed, reached⟩ := Option.map_eq_some_iff.mp away
  refine ⟨after, ⟨letter, there, handles⟩, processed, ?_⟩
  have missing := rejection.missing
  rw [← congrArg Prod.snd returned] at missing
  rw [congrArg Prod.snd reached]
  exact missing

end Rejected

section Standing

variable {cmdlen place target : Nat} {memory : List UInt8}

/-- Bytes that stand at an offset stand there in the whole memory. -/
theorem StandsAt.spelled {bytes : List UInt8} (stands : StandsAt cmdlen memory place bytes) :
    ∃ back, memory.drop place = bytes ++ back := by
  obtain ⟨rest, same⟩ := stands
  rw [List.drop_take] at same
  refine ⟨rest ++ (memory.drop place).drop (cmdlen - place), ?_⟩
  rw [← List.append_assoc, same, List.take_append_drop]

/-- An item stands inside the payload and does not start with a NUL. -/
theorem StandsAt.readable {item : RegisItem} (stands : StandsAt cmdlen memory place item.bytes) :
    place < cmdlen ∧ ∃ byte, memory[place]? = some byte ∧ byte ≠ 0 := by
  obtain ⟨byte, others, notNul, head⟩ := item.bytes_eq_cons
  obtain ⟨back, same⟩ := stands.spelled
  constructor
  · by_contra outside
    obtain ⟨rest, whole⟩ := stands
    have short : (memory.take cmdlen).length ≤ place :=
      Nat.le_trans (List.length_take_le _ _) (Nat.not_lt.mp outside)
    rw [List.drop_of_length_le short, head] at whole
    cases whole
  · refine ⟨byte, ?_, notNul⟩
    have first := congrArg (fun bytes => bytes[0]?) same
    rw [head, List.getElem?_drop] at first
    exact first

/-- An item that stands in the text is carried out in every memory with the same text, and the text
behind it is kept. -/
theorem StandsAt.carried {item : RegisItem} {other : List UInt8}
    (stands : StandsAt cmdlen memory place item.bytes)
    (same : other.drop place = memory.drop place) (st : Regis) :
    ∃ wiped, regisProcessCommand st other place =
        some (item.interpret (st.setIsClear false), wiped, place + item.bytes.length) ∧
      wiped.drop (place + item.bytes.length) = memory.drop (place + item.bytes.length) := by
  obtain ⟨-, byte, read, -⟩ := stands.readable
  obtain ⟨back, spelled⟩ := stands.spelled
  have there : other[place]? = some byte :=
    (getElem?_of_drop_eq same (Nat.le_refl place)).trans read
  have length : (other.take place).length = place :=
    List.length_take_of_le (Nat.le_of_lt (List.getElem?_eq_some_iff.mp there).1)
  have whole : other.take place ++ item.bytes ++ back = other := by
    rw [List.append_assoc, ← spelled, ← same, List.take_append_drop]
  obtain ⟨wiped, long, carried⟩ := regisProcessCommand_item item st (other.take place) back
  rw [whole, length] at carried
  refine ⟨_, carried, ?_⟩
  calc (other.take place ++ wiped ++ back).drop (place + item.bytes.length)
      = back := List.drop_left' (by rw [List.length_append, length, long])
    _ = (memory.drop place).drop item.bytes.length := by rw [spelled, List.drop_left]
    _ = memory.drop (place + item.bytes.length) := List.drop_drop

/-- No empty vector starts right before a command. -/
theorem StandsAt.not_emptyVector {command : RegisCommand}
    (stands : StandsAt cmdlen memory (place + 1) command.bytes) :
    ¬ CString.ascii "v[]" <+: memory.drop place := by
  rintro ⟨rest, same⟩
  obtain ⟨back, spelled⟩ := stands.spelled
  rw [← List.drop_drop, ← same, vectorLiteral] at spelled
  have letter : (0x5B : UInt8) = command.letter := (List.cons.inj spelled).1
  cases command <;> cases letter

theorem TextStep.le {next : Nat} (step : TextStep cmdlen memory place next) : place ≤ next := by
  cases step with
  | item item stands => exact Nat.le_add_right _ _
  | rejected st next rejection => exact Nat.le_succ _

/-- The text up to a command stands inside the payload, and there is no NUL where a step of it
starts. -/
theorem readable_of_walk {command : RegisCommand}
    (stands : StandsAt cmdlen memory target command.bytes)
    (walk : Relation.ReflTransGen (TextStep cmdlen memory) place target) :
    place < cmdlen ∧ ∃ byte, memory[place]? = some byte ∧ byte ≠ 0 := by
  have inside : place ≤ target := by
    induction walk using Relation.ReflTransGen.head_induction_on with
    | refl => exact Nat.le_refl _
    | head step walk ih => exact Nat.le_trans step.le ih
  have last := @StandsAt.readable _ _ _ (.command command) stands
  rcases walk.cases_head with rfl | ⟨next, step, -⟩
  · exact last
  · cases step with
    | item item stands => exact stands.readable
    | rejected st next rejection =>
        obtain ⟨letter, read, handles⟩ := rejection.handed
        refine ⟨Nat.lt_of_le_of_lt inside last.1, letter, read, ?_⟩
        rintro rfl
        cases handles

/-- From a place on, all commands that the loop comes to keep the later ones. -/
def KeptFrom (cmdlen : Nat) (place : RegisPlace) : Prop :=
  ∀ other, Relation.ReflTransGen (RegisTurn 2 cmdlen) place other →
    KeepsLater cmdlen other.2.1 other.2.2

/-- The loop comes to a target, and the text from there on is as it was. -/
def ComesTo (cmdlen : Nat) (origin : RegisPlace) (target : Nat) (memory : List UInt8) : Prop :=
  ∃ st final, Relation.ReflTransGen (RegisTurn 2 cmdlen) origin (st, final, target) ∧
    final.drop target = memory.drop target

/-- From a place of the text, the loop comes to the target in every memory with the same text,
as long as later commands are kept. -/
structure Approaches (cmdlen : Nat) (memory : List UInt8) (target place : Nat) : Prop where
  inside : place < cmdlen
  byte : ∃ byte, memory[place]? = some byte ∧ byte ≠ 0
  comes : ∀ st other, other.drop place = memory.drop place →
    KeptFrom cmdlen (st, other, place) → ComesTo cmdlen (st, other, place) target memory

/-- One turn leads to a place from which the target is approached. -/
theorem Approaches.turn {next : Nat} {st after : Regis} {other wiped : List UInt8}
    (approaches : Approaches cmdlen memory target next)
    (processed : regisProcessCommand st other place = some (after, wiped, next))
    (same : wiped.drop next = memory.drop next) (kept : KeptFrom cmdlen (st, other, place)) :
    ComesTo cmdlen (st, other, place) target memory := by
  obtain ⟨byte, read, notNul⟩ := approaches.byte
  have here : wiped[next]? = some byte := (getElem?_of_drop_eq same (Nat.le_refl next)).trans read
  have turn : RegisTurn 2 cmdlen (st, other, place) (after, wiped, next) := by
    refine ⟨processed, by rw [here]; rfl, ?_⟩
    rintro (ended | nul)
    · have inside := approaches.inside
      dsimp only at ended
      omega
    · rw [here] at nul
      exact notNul (Option.some.inj nul)
  obtain ⟨st, final, reached, left⟩ :=
    approaches.comes after wiped same fun other reached => kept other (reached.head turn)
  exact ⟨st, final, reached.head turn, left⟩

/-- **The loop follows the text.** It comes to a command that stands later in the text, from every
place before it; a place where no command stands may be passed by. -/
theorem approaches_of_walk {command : RegisCommand} (nul : memory[cmdlen]? = some 0)
    (stands : StandsAt cmdlen memory target command.bytes)
    (walk : Relation.ReflTransGen (TextStep cmdlen memory) place target) :
    Approaches cmdlen memory target place ∧
      ((∀ command : RegisCommand, ¬ StandsAt cmdlen memory place command.bytes) →
        Approaches cmdlen memory target (place + 1)) := by
  induction walk using Relation.ReflTransGen.head_induction_on with
  | refl =>
      obtain ⟨inside, byte⟩ := readable_of_walk stands .refl
      refine ⟨⟨inside, byte, fun st other same _ => ⟨st, other, .refl, same⟩⟩, ?_⟩
      exact fun none_ => absurd stands (none_ command)
  | @head place next step walk ih =>
      obtain ⟨inside, byte⟩ := readable_of_walk stands (walk.head step)
      cases step with
      | item item standsItem =>
          constructor
          · refine ⟨inside, byte, fun st other same kept => ?_⟩
            obtain ⟨wiped, carried, left⟩ := standsItem.carried same st
            exact ih.1.turn carried left kept
          · intro none_
            cases item with
            | command given => exact absurd standsItem (none_ given)
            | separator separator => exact ih.1
      | rejected st₀ next₀ rejection₀ =>
          refine ⟨⟨inside, byte, fun st other same kept => ?_⟩, fun _ => ih.1⟩
          obtain ⟨⟨after, wiped, next⟩, rejection⟩ :=
            @Rejection.elsewhere _ _ _ _ st _ rejection₀ same
          obtain ⟨wipes, reached, -⟩ := rejection.leaves
          have keeps := kept _ .refl
          have nulThere : other[cmdlen]? = some 0 :=
            (getElem?_of_drop_eq same (Nat.le_of_lt inside)).trans nul
          have nothing := keeps.rejectedWipes_eq_nil rejection nulThere ih.1.inside
          obtain rfl : wiped = other := by
            rw [nothing] at wipes
            exact wipes
          have behind (count : Nat) : wiped.drop (place + count) = memory.drop (place + count) := by
            rw [← List.drop_drop, same, List.drop_drop]
          have processed := rejection.processed
          obtain rfl : next = _ := reached
          rw [rejectedNext] at processed
          split at processed
          · -- a vector passes the byte behind its letter by
            rename_i vector
            have none_ : delimPlace wiped (place + 2) 0x2C = none := by
              rw [rejectedWipes, if_pos (Or.inr vector)] at nothing
              exact Option.toList_eq_nil_iff.mp nothing
            refine (ih.2 fun command there => ?_).turn processed (behind 2) kept
            refine keeps.skipped vector none_ command ?_
            rw [StandsAt, List.drop_take] at there ⊢
            dsimp only
            rw [behind 1]
            exact there
          · exact ih.1.turn processed (behind 1) kept

/-- A command to which the loop comes is carried out. -/
theorem ComesTo.executed {command : RegisCommand} {origin : RegisPlace}
    (comes : ComesTo cmdlen origin target memory)
    (stands : StandsAt cmdlen memory target command.bytes) :
    Executed cmdlen origin target command := by
  obtain ⟨st, final, reached, same⟩ := comes
  have standsItem : StandsAt cmdlen memory target (RegisItem.command command).bytes := stands
  obtain ⟨wiped, carried, -⟩ := standsItem.carried same st
  exact ⟨st, final, wiped, reached, carried⟩

end Standing

/-- The byte behind the payload stays a NUL, and the loop only goes forward. -/
theorem RegisTurn.forward {cmdlen : Nat} {place next : RegisPlace}
    (reached : Relation.ReflTransGen (RegisTurn 2 cmdlen) place next)
    (nul : place.2.1[cmdlen]? = some 0) :
    next.2.1[cmdlen]? = some 0 ∧ place.2.2 ≤ next.2.2 := by
  induction reached with
  | refl => exact ⟨nul, Nat.le_refl _⟩
  | @tail middle last walk turn ih =>
      have wipes := (regisProcessCommand_rejects turn.1).wipes
      constructor
      · rcases (onlyWiped_wipe middle.2.1 (commandWipes middle.2.1 middle.2.2)).bytes cmdlen with
          same | wiped
        · rw [wipes, same]
          exact ih.1
        · rw [wipes]
          exact wiped
      · exact Nat.le_trans ih.2 (Nat.le_of_lt (regisProcessCommand_advances turn.1))

/-- A rejected command does no harm where later commands are kept. -/
theorem KeptFrom.harmless {cmdlen : Nat} {place next : RegisPlace} (kept : KeptFrom cmdlen place)
    (nul : place.2.1[cmdlen]? = some 0) (rejection : Rejection place next) :
    Harmless cmdlen place next := by
  obtain ⟨st, memory, cmd⟩ := place
  obtain ⟨wipes, -, pen⟩ := rejection.leaves
  refine ⟨?_, pen, fun other command walk stands => ?_⟩
  · rw [wipes]
    apply List.ext_getElem?
    intro i
    by_cases inside : i < cmdlen
    · rw [List.getElem?_take_of_lt inside, List.getElem?_take_of_lt inside, CString.getElem?_wipe,
        if_neg ((kept _ .refl).not_mem_rejectedWipes rejection inside)]
    · rw [List.getElem?_take_eq_none (Nat.not_lt.mp inside),
        List.getElem?_take_eq_none (Nat.not_lt.mp inside)]
  · have approaches := (approaches_of_walk nul stands
      (walk.head (TextStep.rejected st next rejection))).1
    exact (approaches.comes st memory rfl kept).executed stands

/-- Where a rejected command does no harm, later commands are kept. -/
theorem keepsLater_of_harmless {cmdlen : Nat} {st : Regis} {memory : List UInt8} {cmd : Nat}
    (nul : memory[cmdlen]? = some 0)
    (harmless : ∀ next, Rejection (st, memory, cmd) next → Harmless cmdlen (st, memory, cmd) next) :
    KeepsLater cmdlen memory cmd := by
  have wipesNothing {next : RegisPlace} {comma : Nat} (inside : comma < cmdlen)
      (found : delimPlace memory (cmd + 2) 0x2C = some comma)
      (rejection : Rejection (st, memory, cmd) next) (wiped : next.2.1 = memory.set comma 0) :
      False := by
    have intact := congrArg (fun bytes => bytes[comma]?) (harmless next rejection).intact
    obtain ⟨-, here, -⟩ := CString.delimPlace_spec found
    have long := (List.getElem?_eq_some_iff.mp here).1
    dsimp only at intact
    rw [List.getElem?_take_of_lt inside, List.getElem?_take_of_lt inside, wiped, here,
      List.getElem?_set_self long] at intact
    cases intact
  refine ⟨?_, ?_, ?_⟩
  · rintro read ⟨comma, inside, found, missing⟩
    exact wipesNothing inside found
      (rejection_position read ((regisPoint_noBracket_iff found).mpr ⟨rfl, missing⟩)) rfl
  · rintro read notEmpty ⟨comma, inside, found, missing⟩
    obtain ⟨behind, here, -⟩ := CString.delimPlace_spec found
    have long := Nat.lt_of_le_of_lt behind (List.getElem?_eq_some_iff.mp here).1
    exact wipesNothing inside found (rejection_vector read long notEmpty
      ((regisPoint_noBracket_iff found).mpr ⟨rfl, missing⟩)) rfl
  · intro read none_ command stands
    have inside : cmd + 1 < cmdlen := (@StandsAt.readable _ _ _ (.command command) stands).1
    have missing : Missing memory (cmd + 2) 0x2C := by
      refine ⟨none_, List.mem_of_getElem? (i := cmdlen - (cmd + 2)) ?_⟩
      rw [List.getElem?_drop, Nat.add_sub_cancel' inside, nul]
    have long : cmd + 2 < memory.length :=
      Nat.lt_of_le_of_lt inside (List.getElem?_eq_some_iff.mp nul).1
    have rejection : Rejection (st, memory, cmd) _ :=
      rejection_vector read long stands.not_emptyVector (regisPoint_noComma missing)
    obtain ⟨after, final, wiped, reached, -⟩ := (harmless _ rejection).later _ command .refl stands
    rcases reached.cases_head with same | ⟨next, turn, walk⟩
    · have here : cmd = cmd + 1 := congrArg (fun place : RegisPlace => place.2.2) same
      exact absurd here (Nat.ne_of_lt (Nat.lt_succ_self cmd))
    · obtain rfl := Option.some.inj (rejection.processed.symm.trans turn.1)
      have nulBehind := (RegisTurn.forward (.single turn) nul).1
      exact absurd (RegisTurn.forward walk nulBehind).2 (Nat.not_succ_le_self _)

/-- **Rejected commands.** They do no harm exactly if, wherever the loop comes to a point or
vector, a comma in the payload is followed by a bracket, and no command stands right behind the
letter of a vector without comma. -/
theorem regisRejections_harmless_iff (st : Regis) (payload behind : List UInt8) (start : Nat) :
    RejectionsHarmless st payload behind start ↔
      KeptFrom payload.length (st, payload ++ 0 :: behind, start) := by
  have nul : (payload ++ 0 :: behind)[payload.length]? = some 0 := by
    rw [List.getElem?_append_right (Nat.le_refl _), Nat.sub_self]
    rfl
  constructor
  · intro harmless place reached
    exact keepsLater_of_harmless (RegisTurn.forward reached nul).1 (harmless place reached)
  · intro kept place reached next rejection
    have later : KeptFrom payload.length place := fun other walk => kept other (reached.trans walk)
    exact later.harmless (RegisTurn.forward reached nul).1 rejection

/-- A position without its bracket wipes its comma, and the text behind it is not drawn. -/
theorem regisRejections_wiped_comma :
    let st : Regis := ⟨0, 0, true, [], []⟩
    let payload := CString.ascii "0pP[1,2 T'hi'"
    dcsHandlerRun st (payload ++ [0]) 0 payload.length =
        some (⟨0, 0, false, [], [0x50]⟩, CString.ascii "0pP[1\x002 T'hi'" ++ [0]) ∧
      ¬ RejectionsHarmless st payload [] 2 := by
  intro st payload
  refine ⟨by decide +kernel, fun harmless => ?_⟩
  have rejection : Rejection (st, payload ++ [0], 2)
      (⟨0, 0, false, [], [0x50]⟩, CString.ascii "0pP[1\x002 T'hi'" ++ [0], 3) :=
    ⟨⟨0x50, by decide, rfl⟩, by decide +kernel, by decide⟩
  have intact := (harmless _ .refl _ rejection).intact
  revert intact
  decide

end Hackterm
