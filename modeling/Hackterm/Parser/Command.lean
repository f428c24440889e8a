import Mathlib.Data.List.TakeWhile
import Hackterm.CString.Decimal
import Hackterm.Parser.Push
import Hackterm.State.Basic

/-! # Commands of the host

A command has leader bytes, arguments that are spelled in decimal with colons and semicolons
between them, intermediate bytes and a final byte (`Hackterm.HostCommand`). It is read as it was
spelled (`Hackterm.HostCommand.doStringCsi_body`), and the terminal takes from each argument
the number that its digits spell (`Hackterm.HostArgument.csiArg_read`).
-/

namespace Hackterm

open CString Decimal

/-- An argument of a command: digits that spell a small number, or none at all. -/
structure HostArgument where
  digits : List (Fin 10)
  small : digitsNumber 0 digits < 0x7FFFFFFF

namespace HostArgument

/-- The bytes of an argument. -/
def bytes (argument : HostArgument) : List UInt8 := argument.digits.map digitByte

/-- The argument that is read. -/
def value (argument : HostArgument) : Int :=
  if argument.digits = [] then csiArgMissing else digitsNumber 0 argument.digits

/-- A separator behind an argument; a colon joins it with the next one. -/
def separator (joined : Bool) : UInt8 := if joined then 0x3A else 0x3B

/-- The bytes of arguments that have separators behind them. -/
def separated (arguments : List (HostArgument × Bool)) : List UInt8 :=
  arguments.flatMap fun (argument, joined) => argument.bytes ++ [separator joined]

/-- The argument that is read in front of a separator. -/
def read (argument : HostArgument) (joined : Bool) : Int :=
  if joined then csiArgMore argument.value else argument.value

/-- The arguments that are read in front of separators. -/
def values (arguments : List (HostArgument × Bool)) : List Int :=
  arguments.map fun (argument, joined) => argument.read joined

/-- What the terminal takes from an argument is what was spelled. -/
theorem csiArg_read (argument : HostArgument) (joined : Bool) :
    csiArgHasMore (argument.read joined) = joined ∧
      csiArgIsMissing (argument.read joined) = argument.digits.isEmpty ∧
      (argument.digits ≠ [] → csiArg (argument.read joined) = digitsNumber 0 argument.digits) := by
  have small := argument.small
  have number : ∀ value : Nat, value < 0x80000000 →
      csiArgHasMore (if joined then csiArgMore value else value) = joined ∧
        csiArg (if joined then csiArgMore value else value) = value := by
    intro value fits
    unfold csiArgHasMore csiArg csiArgMore
    cases joined with
    | true => exact ⟨decide_eq_true (.inl (by simp only [↓reduceIte]; omega)),
        by simp only [↓reduceIte]; omega⟩
    | false => exact ⟨decide_eq_false (by simp only [Bool.false_eq_true, ↓reduceIte]; omega),
        by simp only [Bool.false_eq_true, ↓reduceIte]; omega⟩
  unfold read value csiArgIsMissing
  by_cases none_ : argument.digits = []
  · have missing : csiArgMissing = ((0x7FFFFFFF : Nat) : Int) := rfl
    rw [if_pos none_, none_, missing]
    obtain ⟨more, same⟩ := number (0x7FFFFFFF) (by decide)
    exact ⟨more, by rw [same]; rfl, fun some_ => absurd rfl some_⟩
  · rw [if_neg none_]
    obtain ⟨more, same⟩ := number _ (small.trans (by decide))
    refine ⟨more, ?_, fun _ => same⟩
    rw [same, List.isEmpty_eq_false_iff.mpr none_]
    exact decide_eq_false small.ne

theorem le_digitsNumber (value : Nat) (digits : List (Fin 10)) :
    value ≤ digitsNumber value digits := by
  induction digits generalizing value with
  | nil => exact Nat.le_refl _
  | cons digit digits ih =>
      have next := ih (10 * value + digit)
      rw [digitsNumber]
      omega

/-- Digits go on with the number in front of them. -/
theorem csiArgs_digits (value : Nat) (digits : List (Fin 10))
    (small : digitsNumber value digits < 0x7FFFFFFF) (more : Nat) (rest : List UInt8) :
    csiArgs value more (digits.map digitByte ++ rest) =
      csiArgs (digitsNumber value digits) more rest := by
  induction digits generalizing value with
  | nil => rfl
  | cons digit digits ih =>
      have below := (le_digitsNumber value (digit :: digits)).trans_lt small
      have present : (value : Int) ≠ csiArgMissing := by
        unfold csiArgMissing
        omega
      have next : (value : Int) * 10 + ((digitByte digit).toNat - 0x30 : Nat) =
          ((10 * value + digit : Nat) : Int) := by
        rw [digitByte_value]
        omega
      rw [List.map_cons, List.cons_append, csiArgs, if_pos (digitByte_range digit),
        if_neg present, next, ih _ small]
      rfl

/-- An argument is read as its value. -/
theorem csiArgs_bytes (argument : HostArgument) (more : Nat) (rest : List UInt8) :
    csiArgs csiArgMissing more (argument.bytes ++ rest) = csiArgs argument.value more rest := by
  obtain ⟨digits, small⟩ := argument
  unfold bytes value
  cases digits with
  | nil => rfl
  | cons digit digits =>
      have first : (0 : Int) * 10 + ((digitByte digit).toNat - 0x30 : Nat) =
          ((10 * 0 + digit : Nat) : Int) := by
        rw [digitByte_value]
        omega
      rw [List.map_cons, List.cons_append, csiArgs, if_pos (digitByte_range digit), if_pos rfl,
        first, csiArgs_digits (10 * 0 + digit) digits small, if_neg (List.cons_ne_nil _ _)]
      rfl

/-- **The arguments of a command** are read as their values. -/
theorem csiArgs_separated (arguments : List (HostArgument × Bool)) (last : HostArgument)
    (rest : List UInt8) (ends : ∀ c ∈ rest.head?, ¬ (0x30 ≤ c ∧ c ≤ 0x3B)) :
    csiArgs csiArgMissing arguments.length (separated arguments ++ (last.bytes ++ rest)) =
      (values arguments ++ [last.value], rest) := by
  induction arguments with
  | nil =>
      have nothing : separated [] ++ (last.bytes ++ rest) = last.bytes ++ rest := rfl
      rw [nothing, csiArgs_bytes]
      cases rest with
      | nil => rfl
      | cons c rest =>
          have other := ends c rfl
          have noDigit : ¬ (0x30 ≤ c ∧ c ≤ 0x39) :=
            fun digit => other ⟨digit.1, UInt8.le_trans digit.2 (by decide)⟩
          have noSeparator : ¬ (c = 0x3A ∨ c = 0x3B) := by
            rintro (rfl | rfl) <;> exact other (by decide)
          rw [List.length_nil, csiArgs, if_neg noDigit, if_neg noSeparator]
          rfl
  | cons first arguments ih =>
      obtain ⟨argument, joined⟩ := first
      have unfolded : separated ((argument, joined) :: arguments) ++ (last.bytes ++ rest) =
          argument.bytes ++
            (separator joined :: (separated arguments ++ (last.bytes ++ rest))) := by
        unfold separated
        rw [List.flatMap_cons]
        simp only [List.append_assoc, List.cons_append, List.nil_append]
      rw [unfolded, csiArgs_bytes, List.length_cons, csiArgs]
      cases joined with
      | true =>
          rw [if_neg (by decide), if_pos (by decide)]
          dsimp only
          rw [ih]
          rfl
      | false =>
          rw [if_neg (by decide), if_pos (by decide)]
          dsimp only
          rw [ih]
          rfl

end HostArgument

/-- The bytes of a command between its introducer and its final byte. -/
def csiBody (leader : List UInt8) (arguments : List (HostArgument × Bool)) (last : HostArgument)
    (intermed : List UInt8) : List UInt8 :=
  leader ++ (HostArgument.separated arguments ++ (last.bytes ++ intermed))

/-- A command with arguments. -/
structure HostCommand where
  leader : List UInt8
  arguments : List (HostArgument × Bool)
  last : HostArgument
  intermed : List UInt8
  command : UInt8
  leader_range : ∀ c ∈ leader, 0x3C ≤ c ∧ c ≤ 0x3F
  intermed_range : ∀ c ∈ intermed, 0x20 ≤ c ∧ c ≤ 0x2F
  command_range : 0x40 ≤ command ∧ command < 0x7F
  room : leader.length ≤ 15 ∧ arguments.length ≤ 15 ∧ intermed.length ≤ 15
  short : (csiBody leader arguments last intermed).length < strbufferLen

namespace HostCommand

variable (command : HostCommand)

/-- The bytes between the introducer and the final byte. -/
def body : List UInt8 := csiBody command.leader command.arguments command.last command.intermed

/-- The bytes of a command. -/
def bytes : List UInt8 := 0x1B :: 0x5B :: (command.body ++ [command.command])

/-- The command with its arguments. -/
def event : CsiEvent :=
  ⟨command.leader, HostArgument.values command.arguments ++ [command.last.value],
    command.intermed, command.command⟩

theorem argument_range (argument : HostArgument) : ∀ c ∈ argument.bytes, 0x30 ≤ c ∧ c ≤ 0x39 := by
  intro c member
  obtain ⟨digit, -, rfl⟩ := List.mem_map.mp member
  exact digitByte_range digit

theorem separated_range (arguments : List (HostArgument × Bool)) :
    ∀ c ∈ HostArgument.separated arguments, 0x30 ≤ c ∧ c ≤ 0x3B := by
  intro c member
  obtain ⟨⟨argument, joined⟩, -, here⟩ := List.mem_flatMap.mp member
  rcases List.mem_append.mp here with digit | separator
  · obtain ⟨low, high⟩ := argument_range argument c digit
    exact ⟨low, UInt8.le_trans high (by decide)⟩
  · rw [List.mem_singleton.mp separator]
    cases joined <;> decide

/-- The bytes behind the leader. -/
theorem rest_range : ∀ c ∈ HostArgument.separated command.arguments ++
    (command.last.bytes ++ command.intermed), 0x20 ≤ c ∧ c ≤ 0x3B := by
  intro c member
  rcases List.mem_append.mp member with front | behind
  · obtain ⟨low, high⟩ := separated_range _ c front
    exact ⟨UInt8.le_trans (by decide) low, high⟩
  · rcases List.mem_append.mp behind with digit | between
    · obtain ⟨low, high⟩ := argument_range _ c digit
      exact ⟨UInt8.le_trans (by decide) low, UInt8.le_trans high (by decide)⟩
    · obtain ⟨low, high⟩ := command.intermed_range c between
      exact ⟨low, UInt8.le_trans high (by decide)⟩

theorem body_range : ∀ c ∈ command.body, 0x20 ≤ c ∧ c < 0x40 := by
  intro c member
  rcases List.mem_append.mp member with front | behind
  · obtain ⟨low, high⟩ := command.leader_range c front
    exact ⟨UInt8.le_trans (by decide) low, UInt8.lt_of_le_of_lt high (by decide)⟩
  · obtain ⟨low, high⟩ := command.rest_range c behind
    exact ⟨low, UInt8.lt_of_le_of_lt high (by decide)⟩

/-- Bytes without separators count none. -/
theorem countP_separators {bytes : List UInt8} (none_ : ∀ c ∈ bytes, ¬ (0x3A ≤ c ∧ c ≤ 0x3B)) :
    bytes.countP (fun c => c == 0x3B || c == 0x3A) = 0 := by
  rw [List.countP_eq_zero]
  intro c member separator
  rcases Bool.or_eq_true_iff.mp separator with same | same
  · exact none_ c member (by rw [eq_of_beq same]; decide)
  · exact none_ c member (by rw [eq_of_beq same]; decide)

/-- Every argument but the last has one separator. -/
theorem countP_separated (arguments : List (HostArgument × Bool)) :
    (HostArgument.separated arguments).countP (fun c => c == 0x3B || c == 0x3A) =
      arguments.length := by
  induction arguments with
  | nil => rfl
  | cons first arguments ih =>
      obtain ⟨argument, joined⟩ := first
      have digits : argument.bytes.countP (fun c => c == 0x3B || c == 0x3A) = 0 :=
        countP_separators fun c member separator =>
          absurd (UInt8.le_trans separator.1 (argument_range argument c member).2) (by decide)
      have one : [HostArgument.separator joined].countP (fun c => c == 0x3B || c == 0x3A) = 1 := by
        cases joined <;> rfl
      have unfolded : HostArgument.separated ((argument, joined) :: arguments) =
          argument.bytes ++ [HostArgument.separator joined] ++
            HostArgument.separated arguments := List.flatMap_cons
      rw [unfolded, List.countP_append, List.countP_append, digits, one, ih, List.length_cons]
      omega

/-- **A command is read as it was spelled.** -/
theorem doStringCsi_body : doStringCsi command.body command.command = command.event := by
  obtain ⟨leaderRoom, argumentRoom, intermedRoom⟩ := command.room
  generalize same : HostArgument.separated command.arguments ++
    (command.last.bytes ++ command.intermed) = rest
  have range := command.rest_range
  rw [same] at range
  have leaders : command.body.takeWhile (fun c => 0x3C ≤ c && c ≤ 0x3F) = command.leader := by
    have stops : rest.takeWhile (fun c => 0x3C ≤ c && c ≤ 0x3F) = [] := by
      cases rest with
      | nil => rfl
      | cons c rest =>
          have low := (range c List.mem_cons_self).2
          refine List.takeWhile_cons_of_neg fun both => ?_
          have high := of_decide_eq_true (Bool.and_eq_true_iff.mp both).1
          exact absurd (UInt8.le_trans high low) (by decide)
    unfold body csiBody
    rw [same, List.takeWhile_append_of_pos, stops, List.append_nil]
    intro c member
    obtain ⟨low, high⟩ := command.leader_range c member
    simp [low, high]
  have behind : command.body.drop command.leader.length = rest := by
    unfold body csiBody
    rw [same, List.drop_left]
  have separators : rest.countP (fun c => c == 0x3B || c == 0x3A) = command.arguments.length := by
    have digits := countP_separators fun c member separator => absurd
      (UInt8.le_trans separator.1 (argument_range command.last c member).2) (by decide)
    have between := countP_separators fun c member separator => absurd
      (UInt8.le_trans separator.1 (command.intermed_range c member).2) (by decide)
    rw [← same, List.countP_append, List.countP_append, countP_separated, digits, between]
    rfl
  have count : min (1 + command.arguments.length) 16 - 1 = command.arguments.length := by omega
  have intermeds : command.intermed.takeWhile (fun c => c &&& 0xF0 == 0x20) =
      command.intermed := by
    rw [List.takeWhile_eq_self_iff]
    intro c member
    have masked : ∀ c : Fin 256, 0x20 ≤ UInt8.ofFin c ∧ UInt8.ofFin c ≤ 0x2F →
        (UInt8.ofFin c &&& 0xF0 == 0x20) = true := by decide +kernel
    exact masked c.toFin (command.intermed_range c member)
  have read := HostArgument.csiArgs_separated command.arguments command.last command.intermed
    fun c first digit => absurd (UInt8.le_trans digit.1
      (command.intermed_range c (List.mem_of_mem_head? first)).2) (by decide)
  unfold doStringCsi
  dsimp only
  rw [leaders, List.take_of_length_le leaderRoom, behind, separators, count, ← same, read]
  dsimp only
  rw [intermeds, List.take_of_length_le intermedRoom]
  rfl

end HostCommand

end Hackterm
