import Hackterm.CString.Decimal
import Mathlib.Tactic.SplitIfs

/-! # The ReGIS processor

A DCS payload is a two-byte introducer and a program of drawing commands. Each
handler searches the memory behind its command for the end of the command, wipes
the delimiters it finds with NUL, and returns where the next command starts
(`Hackterm.regisProcessCommand`). The loop goes on until it has passed the payload,
counted from behind the introducer but with the length of the whole payload, or
stands at a NUL (`Hackterm.regisProcessor`).

Every command is shorter by at least one byte than what was left before it
(`Hackterm.regisProcessCommand_advances`), so the loop comes to its end within as
many turns as the payload has bytes (`Hackterm.regisLoop_turns`).
-/

namespace Hackterm

open CString (strsep atoi)

/-- The calls that paint on `regis_layer`. -/
inductive RegisDraw where
  | lineS (fromX fromY toX toY : Int)
  | unitext (x y : Int) (chars : List UInt16)
deriving DecidableEq

/-- The state of the processor. `drawn` is the calls that painted so far, and
`dispatched` the letters of the commands handed to a handler so far; the code does
not look at either. -/
structure Regis where
  penX : Int
  penY : Int
  isClear : Bool
  drawn : List RegisDraw
  dispatched : List UInt8
deriving DecidableEq

namespace Regis

/-- `pen_x = x` and `pen_y = y`. -/
def movePen (x y : Int) (st : Regis) : Regis := { st with penX := x, penY := y }

/-- `regis_is_clear = clear`. -/
def setIsClear (clear : Bool) (st : Regis) : Regis := { st with isClear := clear }

/-- A call that paints. -/
def draw (call : RegisDraw) (st : Regis) : Regis := { st with drawn := st.drawn ++ [call] }

/-- A command is handed to its handler. -/
def dispatch (letter : UInt8) (st : Regis) : Regis :=
  { st with dispatched := st.dispatched ++ [letter] }

end Regis

/-- What a handler leaves: the state, the memory, and the pointer it returns. -/
abbrev RegisReturn := Regis × List UInt8 × Nat

/-- Skip a command up to the delimiter searched for two bytes into it. A command
without its delimiter is skipped by one byte. -/
def regisSkip (delim : UInt8) (st : Regis) (memory : List UInt8) (cmd : Nat) :
    Option RegisReturn :=
  (strsep memory (cmd + 2) delim).map fun found => (st, found.1, found.2.getD (cmd + 1))

/-- `regis_process_cmd_screen`. -/
def regisProcessCmdScreen : Regis → List UInt8 → Nat → Option RegisReturn := regisSkip 0x29

/-- `regis_process_cmd_w`. -/
def regisProcessCmdW : Regis → List UInt8 → Nat → Option RegisReturn := regisSkip 0x29

/-- A `char` stored in a `uint16_t`. Plain `char` is signed. -/
def widen (char : UInt8) : UInt16 := char.toInt8.toInt16.toUInt16

/-- The array `wdata` of `regis_process_cmd_text`, up to its terminator. No
terminator is stored for the empty text, and the one for a thousand characters lands
behind the array; both are undefined. -/
def regisWdata (odata : List UInt8) : Option (List UInt16) := do
  let chars ← CString.read odata
  if chars = [] ∨ 1000 ≤ chars.length then none else some (chars.map widen)

/-- `regis_process_cmd_text`. -/
def regisProcessCmdText (st : Regis) (memory : List UInt8) (cmd : Nat) : Option RegisReturn := do
  let opener ← memory[cmd + 1]?
  if opener = 0x27 then
    let (memory, data) ← strsep memory (cmd + 2) 0x27
    match data with
    | none => some (st, memory, cmd + 1)
    | some data =>
        let wdata ← regisWdata (memory.drop (cmd + 2))
        some (st.draw (.unitext st.penX st.penY wdata), memory, data)
  else if opener = 0x28 then regisSkip 0x29 st memory cmd
  else some (st, memory, cmd + 1)

/-- The point `x,y]` two bytes into a command: its coordinates, and where the next
command starts. The bracket is searched for `gap` bytes behind the comma. -/
def regisPoint (gap : Nat) (memory : List UInt8) (cmd : Nat) :
    Option (List UInt8 × Option ((Int × Int) × Nat)) := do
  let (memory, xstr) ← strsep memory (cmd + 2) 0x2C
  match xstr with
  | none => some (memory, none)
  | some xstr =>
      let (memory, ystr) ← strsep memory (xstr + gap) 0x5D
      match ystr with
      | none => some (memory, none)
      | some ystr =>
          let newX ← atoi (memory.drop (cmd + 2))
          let newY ← atoi (memory.drop xstr)
          some (memory, some ((newX, newY), ystr))

/-- `regis_process_cmd_position`. The bracket is not looked for in the first byte
behind the comma. -/
def regisProcessCmdPosition (st : Regis) (memory : List UInt8) (cmd : Nat) :
    Option RegisReturn :=
  (regisPoint 1 memory cmd).map fun
    | (memory, none) => (st, memory, cmd + 1)
    | (memory, some ((newX, newY), ystr)) => (st.movePen newX newY, memory, ystr)

/-- `regis_process_cmd_vector`. -/
def regisProcessCmdVector (st : Regis) (memory : List UInt8) (cmd : Nat) :
    Option RegisReturn := do
  let empty ← CString.strncmp (memory.drop cmd) (CString.ascii "v[]")
  if empty then some (st, memory, cmd + 3)
  else
    (regisPoint 0 memory cmd).map fun
      | (memory, none) => (st, memory, cmd + 2)
      | (memory, some ((newX, newY), ystr)) =>
          ((st.draw (.lineS st.penX st.penY newX newY)).movePen newX newY, memory, ystr)

theorem vectorLiteral : CString.ascii "v[]" = [0x76, 0x5B, 0x5D] := by decide

/-- The handler of a command letter. -/
def regisHandler (letter : UInt8) : Option (Regis → List UInt8 → Nat → Option RegisReturn) :=
  if letter = 0x53 then some regisProcessCmdScreen
  else if letter = 0x54 then some regisProcessCmdText
  else if letter = 0x57 then some regisProcessCmdW
  else if letter = 0x50 then some regisProcessCmdPosition
  else if letter = 0x76 then some regisProcessCmdVector
  else none

/-- `regis_process_command`. -/
def regisProcessCommand (st : Regis) (memory : List UInt8) (cmd : Nat) : Option RegisReturn := do
  let letter ← memory[cmd]?
  match regisHandler letter with
  | some handler => handler ((st.setIsClear false).dispatch letter) memory cmd
  | none => some (st.setIsClear false, memory, cmd + 1)

/-- The loop of `regis_processor`, for at most so many turns. -/
def regisLoop (cmd cmdlen : Nat) : Nat → Regis → List UInt8 → Nat → Option Regis
  | 0, _, _, _ => none
  | turns + 1, st, memory, command => do
      let (st, memory, command) ← regisProcessCommand st memory command
      let clen : Int := cmdlen - ((command : Int) - cmd)
      if clen < 2 then some st
      else
        let byte ← memory[command]?
        if byte = 0 then some st else regisLoop cmd cmdlen turns st memory command

/-- `regis_processor`: the state it leaves. -/
def regisProcessor (st : Regis) (memory : List UInt8) (cmd cmdlen : Nat) : Option Regis :=
  regisLoop cmd cmdlen cmdlen st memory cmd

/-- `dcs_handler` on a memory that starts with the payload. The payload is part of a
read of 10240 bytes or of the string buffer of 1024000, so its length fits the `int`
it is handed on as. -/
def dcsHandler (st : Regis) (memory : List UInt8) (cmdlen : Nat) : Option Regis :=
  if cmdlen < 3 then some st else regisProcessor st memory 2 cmdlen

/-- Where a command may lead, and the memory it leaves: past a byte that is not `S`,
past `v[]`, past a delimiter searched for two bytes into the command, or past a
point. -/
inductive RegisMove (memory : List UInt8) (cmd : Nat) : List UInt8 → Nat → Prop
  | byte (letter : UInt8) (read : memory[cmd]? = some letter) (notScreen : letter ≠ 0x53) :
      RegisMove memory cmd memory (cmd + 1)
  | emptyVector
      (spelled : CString.strncmp (memory.drop cmd) (CString.ascii "v[]") = some true) :
      RegisMove memory cmd memory (cmd + 3)
  | skip (delim : UInt8) (delims : delim = 0x27 ∨ delim = 0x29) (wiped : List UInt8)
      (found : Option Nat) (searched : strsep memory (cmd + 2) delim = some (wiped, found)) :
      RegisMove memory cmd wiped (found.getD (cmd + 1))
  | point (gap missed : Nat) (ahead : cmd < missed) (wiped : List UInt8)
      (found : Option ((Int × Int) × Nat)) (parsed : regisPoint gap memory cmd = some (wiped, found)) :
      RegisMove memory cmd wiped ((found.map Prod.snd).getD missed)

section Moves

variable {st after : Regis} {memory wiped : List UInt8} {cmd next : Nat}

theorem regisSkip_moves
    (handled : regisSkip 0x29 st memory cmd = some (after, wiped, next)) :
    RegisMove memory cmd wiped next := by
  obtain ⟨⟨searched, found⟩, reached, returned⟩ := Option.map_eq_some_iff.mp handled
  obtain ⟨-, rfl, rfl⟩ := returned
  exact .skip 0x29 (Or.inr rfl) searched found reached

theorem regisProcessCmdText_moves (read : memory[cmd]? = some 0x54)
    (handled : regisProcessCmdText st memory cmd = some (after, wiped, next)) :
    RegisMove memory cmd wiped next := by
  simp only [regisProcessCmdText, Option.bind_eq_bind, Option.bind_eq_some_iff] at handled
  obtain ⟨opener, -, handled⟩ := handled
  split at handled
  · obtain ⟨⟨searched, data⟩, reached, handled⟩ := Option.bind_eq_some_iff.mp handled
    have moved := RegisMove.skip 0x27 (Or.inl rfl) searched data reached
    cases data with
    | none =>
        obtain ⟨-, rfl, rfl⟩ := Option.some.inj handled
        exact moved
    | some data =>
        obtain ⟨wdata, -, returned⟩ := Option.bind_eq_some_iff.mp handled
        obtain ⟨-, rfl, rfl⟩ := Option.some.inj returned
        exact moved
  · split at handled
    · exact regisSkip_moves handled
    · obtain ⟨-, rfl, rfl⟩ := Option.some.inj handled
      exact .byte 0x54 read (by decide)

theorem regisProcessCmdPosition_moves
    (handled : regisProcessCmdPosition st memory cmd = some (after, wiped, next)) :
    RegisMove memory cmd wiped next := by
  obtain ⟨⟨searched, found⟩, parsed, returned⟩ := Option.map_eq_some_iff.mp handled
  have moved := RegisMove.point 1 (cmd + 1) (Nat.lt_succ_self cmd) searched found parsed
  cases found with
  | none =>
      obtain ⟨-, rfl, rfl⟩ := returned
      exact moved
  | some point =>
      obtain ⟨-, rfl, rfl⟩ := returned
      exact moved

theorem regisProcessCmdVector_moves
    (handled : regisProcessCmdVector st memory cmd = some (after, wiped, next)) :
    RegisMove memory cmd wiped next := by
  simp only [regisProcessCmdVector, Option.bind_eq_bind, Option.bind_eq_some_iff] at handled
  obtain ⟨empty, spelled, handled⟩ := handled
  cases empty with
  | true =>
      obtain ⟨-, rfl, rfl⟩ := Option.some.inj handled
      exact .emptyVector spelled
  | false =>
      obtain ⟨⟨searched, found⟩, parsed, returned⟩ := Option.map_eq_some_iff.mp handled
      have moved := RegisMove.point 0 (cmd + 2) (by omega) searched found parsed
      cases found with
      | none =>
          obtain ⟨-, rfl, rfl⟩ := returned
          exact moved
      | some point =>
          obtain ⟨-, rfl, rfl⟩ := returned
          exact moved

/-- A command leads to one of these places. -/
theorem regisProcessCommand_moves
    (processed : regisProcessCommand st memory cmd = some (after, wiped, next)) :
    RegisMove memory cmd wiped next := by
  simp only [regisProcessCommand, Option.bind_eq_bind, Option.bind_eq_some_iff] at processed
  obtain ⟨letter, read, processed⟩ := processed
  rw [regisHandler] at processed
  split_ifs at processed with screen text width position vector
  · exact regisSkip_moves processed
  · exact regisProcessCmdText_moves (text ▸ read) processed
  · exact regisSkip_moves processed
  · exact regisProcessCmdPosition_moves processed
  · exact regisProcessCmdVector_moves processed
  · obtain ⟨-, rfl, rfl⟩ := Option.some.inj processed
    exact .byte letter read screen

theorem regisPoint_advances {gap : Nat} {point : Int × Int}
    (parsed : regisPoint gap memory cmd = some (wiped, some (point, next))) : cmd < next := by
  simp only [regisPoint, Option.bind_eq_bind, Option.bind_eq_some_iff] at parsed
  obtain ⟨⟨searched, xstr⟩, comma, parsed⟩ := parsed
  cases xstr with
  | none => simp at parsed
  | some xstr =>
      obtain ⟨⟨searched, ystr⟩, bracket, parsed⟩ := Option.bind_eq_some_iff.mp parsed
      cases ystr with
      | none => simp at parsed
      | some ystr =>
          simp only [Option.bind_eq_some_iff, Option.some.injEq, Prod.mk.injEq] at parsed
          obtain ⟨newX, -, newY, -, -, -, rfl⟩ := parsed
          have behindComma := CString.strsep_advances comma
          have behindBracket := CString.strsep_advances bracket
          omega

theorem RegisMove.advances (moved : RegisMove memory cmd wiped next) : cmd < next := by
  cases moved with
  | byte => exact Nat.lt_succ_self cmd
  | emptyVector => exact Nat.lt_add_of_pos_right (Nat.succ_pos 2)
  | skip delim delims wiped found searched =>
      cases found with
      | none => exact Nat.lt_succ_self cmd
      | some place =>
          have behind := CString.strsep_advances searched
          exact Nat.lt_of_le_of_lt (Nat.le_add_right cmd 2) behind
  | point gap missed ahead wiped found parsed =>
      cases found with
      | none => exact ahead
      | some place => exact regisPoint_advances parsed

/-- **Every command takes a byte at least.** -/
theorem regisProcessCommand_advances
    (processed : regisProcessCommand st memory cmd = some (after, wiped, next)) : cmd < next :=
  (regisProcessCommand_moves processed).advances

end Moves

/-- **The loop ends.** From a command inside the payload, as many turns as there are
bytes to the end of the payload are enough: more turns change nothing. -/
theorem regisLoop_turns (cmd cmdlen : Nat) {turns : Nat} (extra : Nat) (started : turns ≠ 0)
    {command : Nat} (enough : cmdlen + cmd < command + turns + 2) (st : Regis)
    (memory : List UInt8) :
    regisLoop cmd cmdlen (turns + extra) st memory command =
      regisLoop cmd cmdlen turns st memory command := by
  induction turns generalizing st memory command with
  | zero => exact absurd rfl started
  | succ turns ih =>
      rw [Nat.succ_add, regisLoop, regisLoop]
      cases processed : regisProcessCommand st memory command with
      | none => rfl
      | some returned =>
          obtain ⟨after, wiped, next⟩ := returned
          have ahead := regisProcessCommand_advances processed
          by_cases ended : (cmdlen : Int) - ((next : Int) - cmd) < 2
          · simp only [Option.bind_eq_bind, Option.bind_some, if_pos ended]
          · have inside : cmdlen + cmd < next + turns + 2 := by omega
            have left : turns ≠ 0 := by omega
            simp only [Option.bind_eq_bind, Option.bind_some, if_neg ended, ih left inside]

end Hackterm
