import Hackterm.Regis.Processor

/-! # ReGIS programs

A program is a list of well-formed commands with other bytes between them
(`Hackterm.RegisItem`), and each command has a meaning of its own
(`Hackterm.RegisCommand.interpret`). A well-formed command is carried out and left
at its end, whatever stands before and behind it, and only its own bytes are wiped
(`Hackterm.regisProcessCommand_item`). A payload that holds a program is therefore
interpreted command by command (`Hackterm.regis_interprets`).
-/

namespace Hackterm

open CString (Decimal)

/-- The body of a bracketed command. -/
structure RegisBody where
  bytes : List UInt8
  no_paren : 0x29 ∉ bytes
  no_nul : 0 ∉ bytes

/-- The text between the quotes of a text command. -/
structure RegisText where
  chars : List UInt8
  ascii : ∀ char ∈ chars, 0 < char ∧ char < 0x80
  no_quote : 0x27 ∉ chars
  chars_ne_nil : chars ≠ []
  short : chars.length < 1000

/-- The commands `S(body)`, `W(body)`, `T(body)`, `T'text'`, `P[x,y]`, `v[x,y]` and
`v[]`. -/
inductive RegisCommand where
  | screen (body : RegisBody)
  | writing (body : RegisBody)
  | options (body : RegisBody)
  | text (text : RegisText)
  | position (x y : Decimal)
  | vector (x y : Decimal)
  | emptyVector

/-- A byte that starts no command. -/
structure RegisSeparator where
  byte : UInt8
  other : byte ∉ [0, 0x53, 0x54, 0x57, 0x50, 0x76]

/-- A program is a list of commands and bytes between them. -/
inductive RegisItem where
  | command (command : RegisCommand)
  | separator (separator : RegisSeparator)

namespace RegisCommand

/-- The letter of a command. -/
def letter : RegisCommand → UInt8
  | .screen _ => 0x53
  | .writing _ => 0x57
  | .options _ | .text _ => 0x54
  | .position _ _ => 0x50
  | .vector _ _ | .emptyVector => 0x76

/-- The bytes behind the letter, without the delimiter that closes the command. -/
def operand : RegisCommand → List UInt8
  | .screen body | .writing body | .options body => 0x28 :: body.bytes
  | .text quoted => 0x27 :: quoted.chars
  | .position x y | .vector x y => 0x5B :: (x.spell ++ 0x2C :: y.spell)
  | .emptyVector => [0x5B]

/-- The delimiter that closes a command. -/
def closer : RegisCommand → UInt8
  | .screen _ | .writing _ | .options _ => 0x29
  | .text _ => 0x27
  | .position _ _ | .vector _ _ | .emptyVector => 0x5D

/-- The bytes of a command. -/
def bytes (command : RegisCommand) : List UInt8 :=
  command.letter :: (command.operand ++ [command.closer])

/-- What a command does to the pen and the drawing. -/
def effect : RegisCommand → Regis → Regis
  | .screen _, st | .writing _, st | .options _, st | .emptyVector, st => st
  | .text quoted, st => st.draw (.unitext st.penX st.penY (quoted.chars.map UInt8.toUInt16))
  | .position x y, st => st.movePen x.value y.value
  | .vector x y, st => (st.draw (.lineS st.penX st.penY x.value y.value)).movePen x.value y.value

/-- The meaning of a command: it is handled once, with its effect. -/
def interpret (st : Regis) (command : RegisCommand) : Regis :=
  command.effect (st.dispatch command.letter)

end RegisCommand

namespace RegisItem

/-- The bytes of an item. -/
def bytes : RegisItem → List UInt8
  | .command given => given.bytes
  | .separator other => [other.byte]

/-- The commands of a program. -/
def commands (program : List RegisItem) : List RegisCommand :=
  program.filterMap fun
    | .command given => some given
    | .separator _ => none

/-- The bytes of a program. -/
def programBytes (program : List RegisItem) : List UInt8 := program.flatMap bytes

end RegisItem

section Handlers

variable (st : Regis) (front back : List UInt8) (letter opener : UInt8)

/-- A body is skipped with its delimiter. -/
theorem regisSkip_body {delim : UInt8} {body : List UInt8} (notNul : delim ≠ 0)
    (free : delim ∉ body) (clean : 0 ∉ body) :
    regisSkip delim st (front ++ [letter, opener] ++ body ++ delim :: back) front.length =
      some (st, front ++ [letter, opener] ++ body ++ 0 :: back,
        front.length + 2 + body.length + 1) := by
  have start : (front ++ [letter, opener]).length = front.length + 2 := List.length_append
  rw [regisSkip, CString.strsep_token _ body back notNul free clean start]
  rfl

/-- A point is read, and both its delimiters are wiped. -/
theorem regisPoint_spell (x y : Decimal) {gap : Nat} (short : gap ≤ y.spell.length) :
    regisPoint gap (front ++ [letter, opener] ++ x.spell ++ 0x2C :: (y.spell ++ 0x5D :: back))
        front.length =
      some (front ++ [letter, opener] ++ x.spell ++ 0 :: (y.spell ++ 0 :: back),
        some ((x.value, y.value), front.length + 2 + x.spell.length + 1 + y.spell.length + 1)) := by
  have start : (front ++ [letter, opener]).length = front.length + 2 := List.length_append
  have comma := CString.strsep_token (front ++ [letter, opener]) x.spell
    (y.spell ++ 0x5D :: back) (by decide : (0x2C : UInt8) ≠ 0) (x.notMem_spell (by decide) (by decide))
    (x.notMem_spell (by decide) (by decide)) start
  have bracket := CString.strsep_token
    (front ++ [letter, opener] ++ x.spell ++ 0 :: y.spell.take gap) (y.spell.drop gap) back
    (by decide : (0x5D : UInt8) ≠ 0)
    (fun member => y.notMem_spell (by decide) (by decide) (List.mem_of_mem_drop member))
    (fun member => y.notMem_spell (by decide) (by decide) (List.mem_of_mem_drop member))
    (show _ = front.length + 2 + x.spell.length + 1 + gap by simp; omega)
  have joined : ∀ rest, front ++ [letter, opener] ++ x.spell ++ 0 :: y.spell.take gap ++
      y.spell.drop gap ++ rest = front ++ [letter, opener] ++ x.spell ++ 0 :: (y.spell ++ rest) := by
    simp
  rw [joined, joined] at bracket
  have readX : (front ++ [letter, opener] ++ x.spell ++ 0 :: (y.spell ++ 0 :: back)).drop
      (front.length + 2) = x.spell ++ 0 :: (y.spell ++ 0 :: back) := by
    rw [List.append_assoc, List.drop_left' start]
  have readY : (front ++ [letter, opener] ++ x.spell ++ 0 :: (y.spell ++ 0 :: back)).drop
      (front.length + 2 + x.spell.length + 1) = y.spell ++ 0 :: back := by
    rw [← List.drop_drop, ← List.drop_drop, readX, List.drop_left, List.drop_one, List.tail_cons]
  have ended : front.length + 2 + x.spell.length + 1 + gap + (y.spell.drop gap).length + 1 =
      front.length + 2 + x.spell.length + 1 + y.spell.length + 1 := by
    rw [List.length_drop]
    omega
  rw [ended] at bracket
  simp only [regisPoint, Option.bind_eq_bind, comma, Option.bind_some, bracket, readX, readY,
    CString.atoi_spell]

end Handlers

/-- A handler carries out a command wherever its bytes stand: the effect follows,
only the bytes of the command are wiped, and it returns the end of the command. -/
def RegisCarries (handler : Regis → List UInt8 → Nat → Option RegisReturn) (bytes : List UInt8)
    (effect : Regis → Regis) : Prop :=
  ∀ st front back, ∃ wiped, wiped.length = bytes.length ∧
    handler st (front ++ bytes ++ back) front.length =
      some (effect st, front ++ wiped ++ back, front.length + bytes.length)

section Commands

theorem regisSkip_carries (letter : UInt8) (body : RegisBody) :
    RegisCarries (regisSkip 0x29) (letter :: (0x28 :: body.bytes ++ [0x29])) id := by
  intro st front back
  have skipped := regisSkip_body st front back letter 0x28 (by decide) body.no_paren body.no_nul
  refine ⟨letter :: (0x28 :: body.bytes ++ [0]), by simp, ?_⟩
  convert skipped using 2
  · simp
  · simp
    omega

theorem regisProcessCmdText_options_carries (body : RegisBody) :
    RegisCarries regisProcessCmdText (0x54 :: (0x28 :: body.bytes ++ [0x29])) id := by
  intro st front back
  obtain ⟨wiped, same, skipped⟩ := regisSkip_carries 0x54 body st front back
  refine ⟨wiped, same, ?_⟩
  have opener : (front ++ 0x54 :: (0x28 :: body.bytes ++ [0x29]) ++ back)[front.length + 1]? =
      some 0x28 := by
    simp
  rw [regisProcessCmdText, opener, Option.bind_eq_bind, Option.bind_some, if_neg (by decide),
    if_pos rfl, skipped]

/-- ASCII characters are not changed by sign extension. -/
theorem widen_ascii {char : UInt8} (ascii : char < 0x80) : widen char = char.toUInt16 := by
  have positive : char.toBitVec.msb = false := by
    rw [BitVec.msb_eq_decide, decide_eq_false_iff_not, Nat.not_le]
    exact ascii
  apply UInt16.toBitVec_inj.mp
  rw [widen, UInt8.toBitVec_toUInt16, ← BitVec.signExtend_eq_setWidth_of_msb_false positive]
  rfl

theorem regisWdata_text (text : RegisText) (rest : List UInt8) :
    regisWdata (text.chars ++ 0 :: rest) = some (text.chars.map UInt8.toUInt16) := by
  have clean : 0 ∉ text.chars := fun member => absurd (text.ascii 0 member).1 (by decide)
  have fits : ¬ (text.chars = [] ∨ 1000 ≤ text.chars.length) := by
    rintro (empty | long)
    · exact text.chars_ne_nil empty
    · exact absurd text.short (Nat.not_lt.mpr long)
  rw [regisWdata, CString.read_token clean, Option.bind_eq_bind, Option.bind_some, if_neg fits,
    List.map_congr_left fun char member => widen_ascii (text.ascii char member).2]

theorem regisProcessCmdText_carries (text : RegisText) :
    RegisCarries regisProcessCmdText (RegisCommand.text text).bytes
      (RegisCommand.text text).effect := by
  intro st front back
  refine ⟨0x54 :: (0x27 :: text.chars ++ [0]), by simp [RegisCommand.bytes, RegisCommand.operand], ?_⟩
  have clean : 0 ∉ text.chars := fun member => absurd (text.ascii 0 member).1 (by decide)
  have start : (front ++ [0x54, 0x27]).length = front.length + 2 := List.length_append
  have quote := CString.strsep_token _ text.chars back (by decide) text.no_quote clean start
  have opener : (front ++ (RegisCommand.text text).bytes ++ back)[front.length + 1]? =
      some 0x27 := by
    simp [RegisCommand.bytes, RegisCommand.operand]
  have spelled : front ++ (RegisCommand.text text).bytes ++ back =
      front ++ [0x54, 0x27] ++ text.chars ++ 0x27 :: back := by
    simp [RegisCommand.bytes, RegisCommand.operand, RegisCommand.letter, RegisCommand.closer]
  have chars : (front ++ [0x54, 0x27] ++ text.chars ++ 0 :: back).drop (front.length + 2) =
      text.chars ++ 0 :: back := by
    rw [List.append_assoc, List.drop_left' start]
  rw [regisProcessCmdText, opener, Option.bind_eq_bind, Option.bind_some, if_pos rfl, spelled,
    quote, Option.bind_eq_bind, Option.bind_some]
  simp only [chars, regisWdata_text, RegisCommand.effect]
  simp [RegisCommand.bytes, RegisCommand.operand]
  omega

/-- The bytes of a point are read wherever they stand. -/
theorem regisPoint_carries (letter : UInt8) (x y : Decimal) {gap : Nat} (short : gap ≤ 1)
    (front back : List UInt8) :
    ∃ wiped, wiped.length = (letter :: (0x5B :: (x.spell ++ 0x2C :: y.spell) ++ [0x5D])).length ∧
      regisPoint gap (front ++ letter :: (0x5B :: (x.spell ++ 0x2C :: y.spell) ++ [0x5D]) ++ back)
        front.length =
        some (front ++ wiped ++ back, some ((x.value, y.value), front.length +
          (letter :: (0x5B :: (x.spell ++ 0x2C :: y.spell) ++ [0x5D])).length)) := by
  have inside : gap ≤ y.spell.length :=
    Nat.le_trans short (List.length_pos_iff.mpr y.spell_ne_nil)
  have parsed := regisPoint_spell front back letter 0x5B x y inside
  refine ⟨letter :: (0x5B :: (x.spell ++ 0 :: y.spell) ++ [0]), by simp, ?_⟩
  convert parsed using 2
  · simp
  · simp
    omega

theorem regisProcessCmdPosition_carries (x y : Decimal) :
    RegisCarries regisProcessCmdPosition (RegisCommand.position x y).bytes
      (RegisCommand.position x y).effect := by
  intro st front back
  obtain ⟨wiped, same, parsed⟩ := regisPoint_carries 0x50 x y (Nat.le_refl 1) front back
  refine ⟨wiped, same, ?_⟩
  rw [regisProcessCmdPosition]
  exact congrArg _ parsed

theorem regisProcessCmdVector_carries (x y : Decimal) :
    RegisCarries regisProcessCmdVector (RegisCommand.vector x y).bytes
      (RegisCommand.vector x y).effect := by
  intro st front back
  obtain ⟨wiped, same, parsed⟩ := regisPoint_carries 0x76 x y (Nat.zero_le 1) front back
  refine ⟨wiped, same, ?_⟩
  have spelled : CString.strncmp ((front ++ (RegisCommand.vector x y).bytes ++ back).drop
      front.length) (CString.ascii "v[]") = some false := by
    obtain ⟨first, others, digits⟩ := List.exists_cons_of_ne_nil x.spell_ne_nil
    have notBracket : first ≠ 0x5D := fun isBracket =>
      x.notMem_spell (by decide) (by decide)
        (by rw [digits, isBracket]; exact List.mem_cons_self : 0x5D ∈ x.spell)
    rw [List.append_assoc, List.drop_left, vectorLiteral, RegisCommand.bytes, RegisCommand.operand,
      digits]
    simp [CString.strncmp, RegisCommand.letter, notBracket]
  rw [regisProcessCmdVector, spelled, Option.bind_eq_bind, Option.bind_some,
    if_neg Bool.false_ne_true]
  exact congrArg (Option.map _) parsed

theorem regisProcessCmdVector_empty_carries :
    RegisCarries regisProcessCmdVector RegisCommand.emptyVector.bytes
      RegisCommand.emptyVector.effect := by
  intro st front back
  refine ⟨RegisCommand.emptyVector.bytes, rfl, ?_⟩
  have spelled : CString.strncmp ((front ++ RegisCommand.emptyVector.bytes ++ back).drop
      front.length) (CString.ascii "v[]") = some true := by
    rw [List.append_assoc, List.drop_left, vectorLiteral]
    simp [CString.strncmp, RegisCommand.bytes, RegisCommand.operand, RegisCommand.letter,
      RegisCommand.closer]
  rw [regisProcessCmdVector, spelled]
  rfl

/-- Every command has a handler, which carries it out. -/
theorem regisHandler_carries (command : RegisCommand) :
    ∃ handler, regisHandler command.letter = some handler ∧
      RegisCarries handler command.bytes command.effect := by
  cases command with
  | screen body => exact ⟨regisProcessCmdScreen, rfl, regisSkip_carries 0x53 body⟩
  | writing body => exact ⟨regisProcessCmdW, rfl, regisSkip_carries 0x57 body⟩
  | options body => exact ⟨regisProcessCmdText, rfl, regisProcessCmdText_options_carries body⟩
  | text text => exact ⟨regisProcessCmdText, rfl, regisProcessCmdText_carries text⟩
  | position x y => exact ⟨regisProcessCmdPosition, rfl, regisProcessCmdPosition_carries x y⟩
  | vector x y => exact ⟨regisProcessCmdVector, rfl, regisProcessCmdVector_carries x y⟩
  | emptyVector => exact ⟨regisProcessCmdVector, rfl, regisProcessCmdVector_empty_carries⟩

theorem regisHandler_separator (separator : RegisSeparator) :
    regisHandler separator.byte = none := by
  have other := separator.other
  simp only [List.mem_cons, not_or] at other
  simp [regisHandler, other]

end Commands

/-- The meaning of an item. -/
def RegisItem.interpret (st : Regis) : RegisItem → Regis
  | .command given => given.interpret st
  | .separator _ => st

/-- **One item of a program.** A command is carried out and a separator passed,
wherever the item stands. -/
theorem regisProcessCommand_item (item : RegisItem) :
    RegisCarries regisProcessCommand item.bytes fun st => item.interpret (st.setIsClear false) := by
  intro st front back
  cases item with
  | command command =>
      obtain ⟨handler, handles, carries⟩ := regisHandler_carries command
      obtain ⟨wiped, same, handled⟩ :=
        carries ((st.setIsClear false).dispatch command.letter) front back
      refine ⟨wiped, same, ?_⟩
      have read : (front ++ (RegisItem.command command).bytes ++ back)[front.length]? =
          some command.letter := by
        simp [RegisItem.bytes, RegisCommand.bytes]
      rw [regisProcessCommand, read, Option.bind_eq_bind, Option.bind_some, handles]
      exact handled
  | separator separator =>
      refine ⟨[separator.byte], rfl, ?_⟩
      have read : (front ++ (RegisItem.separator separator).bytes ++ back)[front.length]? =
          some separator.byte := by
        simp [RegisItem.bytes]
      rw [regisProcessCommand, read, Option.bind_eq_bind, Option.bind_some,
        regisHandler_separator]
      rfl

/-- No item starts with a NUL. -/
theorem RegisItem.bytes_eq_cons (item : RegisItem) :
    ∃ byte rest, byte ≠ 0 ∧ item.bytes = byte :: rest := by
  cases item with
  | command command =>
      refine ⟨command.letter, _, ?_, rfl⟩
      cases command <;> simp [RegisCommand.letter]
  | separator separator =>
      have other := separator.other
      simp only [List.mem_cons, not_or] at other
      exact ⟨separator.byte, [], other.1, rfl⟩

/-- Behind an item of a program stands another one, or the byte behind the payload. -/
theorem RegisItem.exists_next_byte (program : List RegisItem) (terminator : RegisSeparator)
    (rest : List UInt8) :
    ∃ byte : UInt8, byte ≠ 0 ∧
      (programBytes program ++ terminator.byte :: rest)[0]? = some byte := by
  cases program with
  | nil =>
      obtain ⟨byte, others, notNul, head⟩ := (separator terminator).bytes_eq_cons
      obtain ⟨rfl, -⟩ := List.cons.inj head
      exact ⟨terminator.byte, notNul, rfl⟩
  | cons item program =>
      obtain ⟨byte, others, notNul, head⟩ := item.bytes_eq_cons
      exact ⟨byte, notNul, by simp [programBytes, head]⟩

theorem RegisItem.interpret_setIsClear (item : RegisItem) (st : Regis) :
    (item.interpret (st.setIsClear false)).setIsClear false =
      item.interpret (st.setIsClear false) := by
  cases item with
  | command command => cases command <;> rfl
  | separator separator => rfl

/-- The items of a program have the meaning of its commands. -/
theorem RegisItem.foldl_interpret (program : List RegisItem) (st : Regis) :
    program.foldl RegisItem.interpret st = (commands program).foldl RegisCommand.interpret st := by
  induction program generalizing st with
  | nil => rfl
  | cons item program ih =>
      cases item with
      | command command => exact ih (command.interpret st)
      | separator separator => exact ih st

/-- **The loop over a program.** From behind the introducer on, the items are taken
one after the other, up to the byte behind the payload. -/
theorem regisLoop_program (program : List RegisItem) (turns : Nat) (st : Regis)
    (front rest : List UInt8) (terminator : RegisSeparator)
    (enough : (RegisItem.programBytes program).length < turns) :
    regisLoop 2 (front.length + (RegisItem.programBytes program).length) turns st
        (front ++ RegisItem.programBytes program ++ terminator.byte :: rest) front.length =
      some (program.foldl RegisItem.interpret (st.setIsClear false)) := by
  induction program generalizing st front turns with
  | nil =>
      obtain ⟨turns, rfl⟩ := Nat.exists_eq_add_of_lt enough
      obtain ⟨wiped, -, passed⟩ := regisProcessCommand_item (.separator terminator) st front rest
      have spelled : front ++ RegisItem.programBytes [] ++ terminator.byte :: rest =
          front ++ (RegisItem.separator terminator).bytes ++ rest := by
        simp [RegisItem.programBytes, RegisItem.bytes]
      rw [regisLoop, spelled, passed, Option.bind_eq_bind, Option.bind_some]
      refine if_pos ?_
      simp [RegisItem.programBytes, RegisItem.bytes]
      omega
  | cons item program ih =>
      obtain ⟨turns, rfl⟩ := Nat.exists_eq_succ_of_ne_zero (Nat.ne_zero_of_lt enough)
      obtain ⟨wiped, same, carried⟩ := regisProcessCommand_item item st front
        (RegisItem.programBytes program ++ terminator.byte :: rest)
      have spelled : front ++ RegisItem.programBytes (item :: program) ++ terminator.byte :: rest =
          front ++ item.bytes ++ (RegisItem.programBytes program ++ terminator.byte :: rest) := by
        simp [RegisItem.programBytes]
      have total : front.length + (RegisItem.programBytes (item :: program)).length =
          (front ++ wiped).length + (RegisItem.programBytes program).length := by
        rw [RegisItem.programBytes, List.flatMap_cons, List.length_append, List.length_append, same,
          Nat.add_assoc, RegisItem.programBytes]
      have behind : front.length + item.bytes.length = (front ++ wiped).length := by
        rw [List.length_append, same]
      obtain ⟨byte, notNul, read⟩ := RegisItem.exists_next_byte program terminator rest
      have left : (RegisItem.programBytes program).length < turns := by
        obtain ⟨first, others, -, head⟩ := item.bytes_eq_cons
        rw [RegisItem.programBytes, List.flatMap_cons, List.length_append, head,
          List.length_cons] at enough
        rw [RegisItem.programBytes]
        omega
      rw [regisLoop, spelled, carried, Option.bind_eq_bind, Option.bind_some, behind, total]
      have more : ¬ (((front ++ wiped).length + (RegisItem.programBytes program).length : Nat) : Int) -
          ((((front ++ wiped).length : Nat) : Int) - (2 : Nat)) < 2 := by
        omega
      have next : (front ++ wiped ++ (RegisItem.programBytes program ++ terminator.byte :: rest))[
          (front ++ wiped).length]? = some byte := by
        rw [List.getElem?_append_right (Nat.le_refl _), Nat.sub_self, read]
      simp only [if_neg more, next, Option.bind_eq_bind, Option.bind_some, if_neg notNul]
      rw [← List.append_assoc, ih turns _ _ left, List.foldl_cons, item.interpret_setIsClear]

/-- **ReGIS interpretation.** A payload that holds a program and is closed by ESC or
BEL is interpreted command by command, whatever stands behind it: the pen, the calls
that paint and the commands handled are those of the list in order. -/
theorem regis_interprets (st : Regis) (first second terminator : UInt8)
    (program : List RegisItem) (rest : List UInt8)
    (closed : terminator = 0x1B ∨ terminator = 0x07) :
    dcsHandler st
        (first :: second :: (RegisItem.programBytes program ++ terminator :: rest))
        (2 + (RegisItem.programBytes program).length) =
      some ((RegisItem.commands program).foldl RegisCommand.interpret
        (if program = [] then st else st.setIsClear false)) := by
  have other : terminator ∉ [0, 0x53, 0x54, 0x57, 0x50, 0x76] := by
    obtain rfl | rfl := closed
    · decide
    · decide
  cases program with
  | nil => rfl
  | cons item program =>
      obtain ⟨byte, others, -, head⟩ := item.bytes_eq_cons
      have long : ¬ 2 + (RegisItem.programBytes (item :: program)).length < 3 := by
        rw [RegisItem.programBytes, List.flatMap_cons, List.length_append, head, List.length_cons]
        omega
      rw [dcsHandler, if_neg long, if_neg (List.cons_ne_nil item program), regisProcessor,
        ← RegisItem.foldl_interpret]
      exact regisLoop_program (item :: program) _ st [first, second] rest ⟨terminator, other⟩
        (by omega)

/-- The program `P[1,2] v[3,-4]`. -/
def regisLine : List RegisItem :=
  [.command (.position ⟨none, [1], by decide, by decide⟩ ⟨none, [2], by decide, by decide⟩),
    .separator ⟨0x20, by decide⟩,
    .command (.vector ⟨none, [3], by decide, by decide⟩ ⟨some .minus, [4], by decide, by decide⟩)]

/-- The decimal 1000. -/
def thousand : Decimal := ⟨none, [1, 0, 0, 0], by decide, by decide⟩

/-- The decimal 0. -/
def zeroDecimal : Decimal := ⟨none, [0], by decide, by decide⟩

/-- The places of `v[900,700]v[1300,0]`. -/
def peakTargets : List (Decimal × Decimal) :=
  [(⟨none, [9, 0, 0], by decide, by decide⟩, ⟨none, [7, 0, 0], by decide, by decide⟩),
    (⟨none, [1, 3, 0, 0], by decide, by decide⟩, zeroDecimal)]

/-- A line is drawn once, from the pen. -/
theorem regis_interprets_line :
    dcsHandler ⟨0, 0, true, [], []⟩ (CString.ascii "0pP[1,2] v[3,-4]\x1b\\") 16 =
      some ⟨3, -4, false, [.lineS 1 2 3 (-4)], [0x50, 0x76]⟩ := by
  have spelled : CString.ascii "0pP[1,2] v[3,-4]\x1b\\" =
      0x30 :: 0x70 :: (RegisItem.programBytes regisLine ++ 0x1B :: [0x5C]) := by decide
  rw [spelled]
  exact regis_interprets ⟨0, 0, true, [], []⟩ 0x30 0x70 0x1B regisLine [0x5C] (Or.inl rfl)

end Hackterm
