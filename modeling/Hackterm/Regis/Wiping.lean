import Hackterm.Regis.Processor

/-! # What a ReGIS command wipes

A command changes the payload only by wiping its delimiters: the one that closes it, or the
comma and the bracket of a point (`Hackterm.commandWipes`). A point without its bracket
is rejected when its comma is wiped already (`Hackterm.regisProcessCommand_rejects`).
-/

namespace Hackterm

open CString (strsep wipe delimPlace)

/-- The delimiters of the point two bytes into a command, the second one only behind the
first one. -/
def pointWipes (gap : Nat) (memory : List UInt8) (cmd : Nat) : List Nat :=
  match delimPlace memory (cmd + 2) 0x2C with
  | none => []
  | some comma => comma :: (delimPlace memory (comma + 1 + gap) 0x5D).toList

/-- The places that a command wipes. -/
def commandWipes (memory : List UInt8) (cmd : Nat) : List Nat :=
  if memory[cmd]? = some 0x53 ∨ memory[cmd]? = some 0x57 then
    (delimPlace memory (cmd + 2) 0x29).toList
  else if memory[cmd]? = some 0x54 then
    if memory[cmd + 1]? = some 0x27 then (delimPlace memory (cmd + 2) 0x27).toList
    else if memory[cmd + 1]? = some 0x28 then (delimPlace memory (cmd + 2) 0x29).toList
    else []
  else if memory[cmd]? = some 0x50 then pointWipes 1 memory cmd
  else if memory[cmd]? = some 0x76 then
    if CString.strncmp (memory.drop cmd) (CString.ascii "v[]") = some true then []
    else pointWipes 0 memory cmd
  else []

/-- The places that a command wipes although it is rejected: the comma of a point. -/
def rejectedWipes (memory : List UInt8) (cmd : Nat) : List Nat :=
  if memory[cmd]? = some 0x50 ∨ memory[cmd]? = some 0x76 then
    (delimPlace memory (cmd + 2) 0x2C).toList
  else []

/-- Where the loop goes on behind a rejected command. -/
def rejectedNext (memory : List UInt8) (cmd : Nat) : Nat :=
  if memory[cmd]? = some 0x76 then cmd + 2 else cmd + 1

/-- What a handler does: it wipes the places `all`. It goes on behind two bytes of the command,
or it rejects the command: it keeps the pen, `all` are only the places `some_`, and it goes on
at `missed`. -/
structure HandlerWipes (st after : Regis) (memory wiped : List UInt8) (cmd next : Nat)
    (all some_ : List Nat) (missed : Nat) : Prop where
  wipes : wiped = wipe memory all
  outcome : cmd + 2 < next ∨
    next = missed ∧ all = some_ ∧ after.penX = st.penX ∧ after.penY = st.penY

section Handlers

variable {st after : Regis} {memory wiped : List UInt8} {cmd next : Nat}

theorem regisSkip_wipes {delim : UInt8}
    (handled : regisSkip delim st memory cmd = some (after, wiped, next)) :
    HandlerWipes st after memory wiped cmd next (delimPlace memory (cmd + 2) delim).toList []
      (cmd + 1) := by
  obtain ⟨⟨searched, found⟩, reached, returned⟩ := Option.map_eq_some_iff.mp handled
  obtain ⟨rfl, rfl, rfl⟩ := returned
  obtain ⟨rfl, rfl⟩ := CString.strsep_wipes reached
  refine ⟨rfl, ?_⟩
  cases found : delimPlace memory (cmd + 2) delim with
  | none => exact Or.inr ⟨rfl, rfl, rfl, rfl⟩
  | some place =>
      have ahead := (CString.delimPlace_spec found).1
      exact Or.inl (Nat.lt_succ_of_le ahead)

theorem regisProcessCmdText_wipes
    (handled : regisProcessCmdText st memory cmd = some (after, wiped, next)) :
    HandlerWipes st after memory wiped cmd next
      (if memory[cmd + 1]? = some 0x27 then (delimPlace memory (cmd + 2) 0x27).toList
        else if memory[cmd + 1]? = some 0x28 then (delimPlace memory (cmd + 2) 0x29).toList
        else []) [] (cmd + 1) := by
  simp only [regisProcessCmdText, Option.bind_eq_bind, Option.bind_eq_some_iff] at handled
  obtain ⟨opener, read, handled⟩ := handled
  simp only [read, Option.some.injEq]
  split at handled
  · rename_i quote
    rw [if_pos quote]
    obtain ⟨⟨searched, data⟩, reached, handled⟩ := Option.bind_eq_some_iff.mp handled
    obtain ⟨rfl, rfl⟩ := CString.strsep_wipes reached
    cases found : delimPlace memory (cmd + 2) 0x27 with
    | none =>
        rw [found] at handled
        obtain ⟨rfl, rfl, rfl⟩ := Option.some.inj handled
        exact ⟨rfl, Or.inr ⟨rfl, rfl, rfl, rfl⟩⟩
    | some place =>
        rw [found] at handled
        obtain ⟨wdata, -, returned⟩ := Option.bind_eq_some_iff.mp handled
        obtain ⟨-, rfl, rfl⟩ := Option.some.inj returned
        have ahead := (CString.delimPlace_spec found).1
        exact ⟨rfl, Or.inl (Nat.lt_succ_of_le ahead)⟩
  · rename_i notQuote
    rw [if_neg notQuote]
    split at handled
    · rename_i paren
      rw [if_pos paren]
      exact regisSkip_wipes handled
    · rename_i notParen
      rw [if_neg notParen]
      obtain ⟨rfl, rfl, rfl⟩ := Option.some.inj handled
      exact ⟨rfl, Or.inr ⟨rfl, rfl, rfl, rfl⟩⟩

/-- A point wipes its comma, and its bracket if it has one. -/
theorem regisPoint_wipes {gap : Nat} {found : Option ((Int × Int) × Nat)}
    (parsed : regisPoint gap memory cmd = some (wiped, found)) :
    wiped = wipe memory (pointWipes gap memory cmd) ∧
      (found = none → pointWipes gap memory cmd = (delimPlace memory (cmd + 2) 0x2C).toList) ∧
      ∀ point next, found = some (point, next) → cmd + 2 < next := by
  simp only [regisPoint, Option.bind_eq_bind, Option.bind_eq_some_iff] at parsed
  obtain ⟨⟨first, xstr⟩, comma, parsed⟩ := parsed
  obtain ⟨rfl, rfl⟩ := CString.strsep_wipes comma
  rw [pointWipes]
  cases located : delimPlace memory (cmd + 2) 0x2C with
  | none =>
      rw [located] at parsed
      obtain ⟨rfl, rfl⟩ := Prod.mk.inj (Option.some.inj parsed)
      exact ⟨rfl, fun _ => rfl, fun point next same => by cases same⟩
  | some place =>
      rw [located] at parsed
      obtain ⟨⟨second, ystr⟩, bracket, parsed⟩ := Option.bind_eq_some_iff.mp parsed
      have behind : delimPlace (wipe memory [place]) (place + 1 + gap) 0x5D =
          delimPlace memory (place + 1 + gap) 0x5D := CString.delimPlace_set (by omega) 0
      have ahead := (CString.delimPlace_spec located).1
      obtain ⟨rfl, same⟩ := CString.strsep_wipes bracket
      rw [Option.toList_some, behind] at same parsed
      dsimp only
      cases last : delimPlace memory (place + 1 + gap) 0x5D with
      | none =>
          rw [last] at same parsed
          obtain rfl := same
          obtain ⟨rfl, rfl⟩ := Prod.mk.inj (Option.some.inj parsed)
          exact ⟨rfl, fun _ => rfl, fun point next same => by cases same⟩
      | some closing =>
          rw [last] at same parsed
          obtain rfl := same
          have further := (CString.delimPlace_spec last).1
          simp only [Option.map_some, Option.bind_eq_some_iff, Option.some.injEq,
            Prod.mk.injEq] at parsed
          obtain ⟨newX, -, newY, -, rfl, rfl⟩ := parsed
          refine ⟨rfl, (fun none_ => by cases none_), fun point next reached => ?_⟩
          obtain ⟨-, rfl⟩ := Prod.mk.inj (Option.some.inj reached)
          omega

theorem regisProcessCmdPosition_wipes
    (handled : regisProcessCmdPosition st memory cmd = some (after, wiped, next)) :
    HandlerWipes st after memory wiped cmd next (pointWipes 1 memory cmd)
      (delimPlace memory (cmd + 2) 0x2C).toList (cmd + 1) := by
  obtain ⟨⟨searched, found⟩, parsed, returned⟩ := Option.map_eq_some_iff.mp handled
  obtain ⟨rfl, missing, advances⟩ := regisPoint_wipes parsed
  cases found with
  | none =>
      obtain ⟨rfl, rfl, rfl⟩ := returned
      exact ⟨rfl, Or.inr ⟨rfl, missing rfl, rfl, rfl⟩⟩
  | some point =>
      obtain ⟨-, rfl, rfl⟩ := returned
      exact ⟨rfl, Or.inl (advances _ _ rfl)⟩

theorem regisProcessCmdVector_wipes
    (handled : regisProcessCmdVector st memory cmd = some (after, wiped, next)) :
    HandlerWipes st after memory wiped cmd next
      (if CString.strncmp (memory.drop cmd) (CString.ascii "v[]") = some true then []
        else pointWipes 0 memory cmd)
      (delimPlace memory (cmd + 2) 0x2C).toList (cmd + 2) := by
  simp only [regisProcessCmdVector, Option.bind_eq_bind, Option.bind_eq_some_iff] at handled
  obtain ⟨empty, spelled, handled⟩ := handled
  rw [spelled]
  cases empty with
  | true =>
      obtain ⟨-, rfl, rfl⟩ := Option.some.inj handled
      exact ⟨rfl, Or.inl (Nat.lt_succ_self _)⟩
  | false =>
      obtain ⟨⟨searched, found⟩, parsed, returned⟩ := Option.map_eq_some_iff.mp handled
      obtain ⟨rfl, missing, advances⟩ := regisPoint_wipes parsed
      rw [if_neg (by decide)]
      cases found with
      | none =>
          obtain ⟨rfl, rfl, rfl⟩ := returned
          exact ⟨rfl, Or.inr ⟨rfl, missing rfl, rfl, rfl⟩⟩
      | some point =>
          obtain ⟨-, rfl, rfl⟩ := returned
          exact ⟨rfl, Or.inl (advances _ _ rfl)⟩

/-- Handing a command to its handler does not move the pen. -/
theorem HandlerWipes.of_dispatch {letter : UInt8} {all some_ : List Nat} {missed : Nat}
    (handled : HandlerWipes ((st.setIsClear false).dispatch letter) after memory wiped cmd next all
      some_ missed) : HandlerWipes st after memory wiped cmd next all some_ missed :=
  ⟨handled.wipes, handled.outcome⟩

/-- **One command** wipes its delimiters and keeps all other bytes. When it is rejected, it keeps
the pen and everything but the comma of a point. -/
theorem regisProcessCommand_rejects
    (processed : regisProcessCommand st memory cmd = some (after, wiped, next)) :
    HandlerWipes st after memory wiped cmd next (commandWipes memory cmd)
      (rejectedWipes memory cmd) (rejectedNext memory cmd) := by
  simp only [regisProcessCommand, Option.bind_eq_bind, Option.bind_eq_some_iff] at processed
  obtain ⟨letter, read, processed⟩ := processed
  rw [regisHandler] at processed
  rw [commandWipes, rejectedWipes, rejectedNext, read]
  simp only [Option.some.injEq]
  split_ifs at processed with screen text width position vector
  · subst screen
    exact (regisSkip_wipes processed).of_dispatch
  · subst text
    exact (regisProcessCmdText_wipes processed).of_dispatch
  · subst width
    exact (regisSkip_wipes processed).of_dispatch
  · subst position
    exact (regisProcessCmdPosition_wipes processed).of_dispatch
  · subst vector
    exact (regisProcessCmdVector_wipes processed).of_dispatch
  · obtain ⟨rfl, rfl, rfl⟩ := Option.some.inj processed
    simp only [screen, text, width, position, vector, or_self, if_false]
    exact ⟨rfl, Or.inr ⟨rfl, rfl, rfl, rfl⟩⟩

end Handlers

end Hackterm
