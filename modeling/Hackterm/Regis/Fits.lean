import Hackterm.CString.Closed
import Hackterm.Regis.Wiping

/-! # When a ReGIS command returns

A handler looks for delimiters from two bytes behind the letter of its command on, as far as
the memory goes, and the position command looks for the bracket from the second byte behind
the comma on. It returns exactly if those searches end inside the memory, and its text and
numbers fit (`Hackterm.regisProcessCommand_isSome_iff_reads`). A NUL that stands in between is
passed over, so a NUL behind a command is not enough (`Hackterm.regisProcessCommand_isSome_iff`).
-/

namespace Hackterm

open CString (Closes SpellsInt between delimPlace strsep atoi)

/-- The point two bytes into a command: its comma is looked for, and behind the comma its
bracket, with a delimiter or a NUL to end each search, and the numbers of a whole point fit
an `int`. -/
def PointFits (gap : Nat) (memory : List UInt8) (cmd : Nat) : Prop :=
  Closes memory (cmd + 2) 0x2C ∧
    ∀ comma, delimPlace memory (cmd + 2) 0x2C = some comma →
      Closes memory (comma + 1 + gap) 0x5D ∧
        ∀ bracket, delimPlace memory (comma + 1 + gap) 0x5D = some bracket →
          SpellsInt (between memory (cmd + 2) comma) ∧
            SpellsInt (between memory (comma + 1) bracket)

/-- The bytes behind a command fit its handler. -/
structure CommandFits (memory : List UInt8) (cmd : Nat) : Prop where
  skipped : memory[cmd]? = some 0x53 ∨ memory[cmd]? = some 0x57 → Closes memory (cmd + 2) 0x29
  text : memory[cmd]? = some 0x54 → memory[cmd + 1]? = some 0x27 →
    ∀ quote, delimPlace memory (cmd + 2) 0x27 = some quote →
      cmd + 2 < quote ∧ quote < cmd + 1002
  position : memory[cmd]? = some 0x50 → PointFits 1 memory cmd
  vector : memory[cmd]? = some 0x76 → ¬ CString.ascii "v[]" <+: memory.drop cmd →
    PointFits 0 memory cmd

/-- The bytes of a command can be read, and they fit its handler. -/
structure CommandReads (memory : List UInt8) (cmd : Nat) : Prop extends CommandFits memory cmd where
  letter : (memory[cmd]?).isSome
  opener : memory[cmd]? = some 0x54 → (memory[cmd + 1]?).isSome
  quote : memory[cmd]? = some 0x54 → memory[cmd + 1]? = some 0x27 → Closes memory (cmd + 2) 0x27
  paren : memory[cmd]? = some 0x54 → memory[cmd + 1]? = some 0x28 → Closes memory (cmd + 2) 0x29

section Handlers

variable {st : Regis} {memory : List UInt8} {cmd : Nat}

theorem regisSkip_isSome_iff {delim : UInt8} :
    (regisSkip delim st memory cmd).isSome ↔ Closes memory (cmd + 2) delim := by
  rw [regisSkip, Option.isSome_map]
  exact CString.strsep_isSome_iff

/-- The numbers of a point stand between its letter, its comma and its bracket. -/
theorem regisPoint_numbers {gap comma bracket : Nat}
    (first : delimPlace memory (cmd + 2) 0x2C = some comma)
    (second : delimPlace memory (comma + 1 + gap) 0x5D = some bracket) :
    (∃ back, ((memory.set comma 0).set bracket 0).drop (cmd + 2) =
        between memory (cmd + 2) comma ++ 0 :: back) ∧
      ∃ back, ((memory.set comma 0).set bracket 0).drop (comma + 1) =
        between memory (comma + 1) bracket ++ 0 :: back := by
  have ahead := (CString.delimPlace_spec first).1
  have behind := (CString.delimPlace_spec second).1
  have comma_inside := CString.delimPlace_lt_length first
  have bracket_inside := CString.delimPlace_lt_length second
  constructor
  · have same : between (memory.set bracket 0) (cmd + 2) comma =
        between memory (cmd + 2) comma := by
      rw [between, between, List.drop_set, if_neg (by omega), List.take_set_of_le (by omega)]
    rw [List.set_comm _ _ (show comma ≠ bracket by omega),
      CString.drop_set_eq ahead (by rw [List.length_set]; exact comma_inside), same]
    exact ⟨_, rfl⟩
  · rw [CString.drop_set_eq (by omega) (by rw [List.length_set]; exact bracket_inside), between,
      List.drop_set_of_lt (Nat.lt_succ_self comma)]
    exact ⟨_, rfl⟩

/-- A point with a comma is read, or found to lack its bracket. -/
theorem regisPoint_comma_isSome_iff {gap comma : Nat}
    (first : delimPlace memory (cmd + 2) 0x2C = some comma) :
    (regisPoint gap memory cmd).isSome ↔
      Closes memory (comma + 1 + gap) 0x5D ∧
        ∀ bracket, delimPlace memory (comma + 1 + gap) 0x5D = some bracket →
          SpellsInt (between memory (cmd + 2) comma) ∧
            SpellsInt (between memory (comma + 1) bracket) := by
  have before : comma < comma + 1 + gap := by omega
  rw [regisPoint, CString.strsep_found first, ← CString.closes_set before,
    ← CString.strsep_isSome_iff, Option.bind_eq_bind, Option.bind_some]
  dsimp only
  cases searched : strsep (memory.set comma 0) (comma + 1 + gap) 0x5D with
  | none => exact iff_of_false Bool.false_ne_true fun fits => Bool.false_ne_true fits.1
  | some found =>
      obtain ⟨wiped, ystr⟩ := found
      obtain ⟨same, reached⟩ := CString.strsep_wipes searched
      rw [CString.delimPlace_set before] at same reached
      rw [Option.bind_eq_bind, Option.bind_some, Option.isSome_some, and_iff_right rfl]
      cases second : delimPlace memory (comma + 1 + gap) 0x5D with
      | none =>
          rw [second] at reached
          subst reached
          exact iff_of_true rfl fun bracket none_ => by cases none_
      | some bracket =>
          obtain ⟨⟨one, first_number⟩, two, second_number⟩ := regisPoint_numbers first second
          rw [second] at same reached
          subst same reached
          simp only [CString.wipe_some, Option.map_some, Option.some.injEq, forall_eq']
          rw [first_number, second_number, ← CString.atoi_isSome_iff _ one,
            ← CString.atoi_isSome_iff _ two]
          cases atoi (between memory (cmd + 2) comma ++ 0 :: one) with
          | none => exact iff_of_false Bool.false_ne_true fun both => Bool.false_ne_true both.1
          | some newX =>
              rw [Option.isSome_some, and_iff_right rfl, Option.bind_some]
              cases atoi (between memory (comma + 1) bracket ++ 0 :: two) with
              | none => exact Iff.rfl
              | some newY => exact Iff.rfl

theorem regisPoint_isSome_iff {gap : Nat} :
    (regisPoint gap memory cmd).isSome ↔ PointFits gap memory cmd := by
  rw [PointFits]
  cases first : delimPlace memory (cmd + 2) 0x2C with
  | some comma =>
      have closes : Closes memory (cmd + 2) 0x2C := by
        rw [← CString.strsep_isSome_iff, CString.strsep_found first]
        rfl
      simp only [closes, true_and, Option.some.injEq, forall_eq']
      exact regisPoint_comma_isSome_iff first
  | none =>
      rw [regisPoint, ← CString.strsep_isSome_iff, Option.bind_eq_bind]
      cases searched : strsep memory (cmd + 2) 0x2C with
      | none => exact iff_of_false Bool.false_ne_true fun fits => Bool.false_ne_true fits.1
      | some found =>
          obtain ⟨wiped, xstr⟩ := found
          obtain ⟨-, reached⟩ := CString.strsep_wipes searched
          rw [first] at reached
          subst reached
          exact iff_of_true rfl ⟨rfl, fun comma none_ => by cases none_⟩

/-- A text has a character, and fewer than a thousand. -/
theorem regisWdata_isSome_iff {text : List UInt8} (clean : 0 ∉ text) (back : List UInt8) :
    (regisWdata (text ++ 0 :: back)).isSome ↔ 0 < text.length ∧ text.length < 1000 := by
  rw [regisWdata, CString.read_token clean, Option.bind_eq_bind, Option.bind_some,
    List.length_pos_iff]
  split
  · rename_i undefined
    refine iff_of_false Bool.false_ne_true fun fits => ?_
    exact undefined.elim fits.1 (Nat.not_le.mpr fits.2)
  · rename_i defined
    rw [not_or, Nat.not_le] at defined
    exact iff_of_true rfl defined

/-- A text command returns exactly if its opener can be read, what it opens is closed, and
its text fits. -/
theorem regisProcessCmdText_isSome_iff :
    (regisProcessCmdText st memory cmd).isSome ↔
      (memory[cmd + 1]?).isSome ∧
        (memory[cmd + 1]? = some 0x27 → Closes memory (cmd + 2) 0x27) ∧
        (memory[cmd + 1]? = some 0x28 → Closes memory (cmd + 2) 0x29) ∧
        (memory[cmd + 1]? = some 0x27 →
          ∀ quote, delimPlace memory (cmd + 2) 0x27 = some quote →
            cmd + 2 < quote ∧ quote < cmd + 1002) := by
  rw [regisProcessCmdText]
  cases read : memory[cmd + 1]? with
  | none => exact iff_of_false Bool.false_ne_true fun fits => Bool.false_ne_true fits.1
  | some opener =>
  rw [Option.bind_eq_bind, Option.bind_some, Option.isSome_some, and_iff_right rfl]
  simp only [Option.some.injEq]
  by_cases quoted : opener = 0x27
  · subst quoted
    have other : ¬ (0x27 : UInt8) = 0x28 := by decide
    rw [if_pos rfl, forall_prop_of_true rfl, forall_prop_of_true rfl, ← CString.strsep_isSome_iff]
    cases searched : strsep memory (cmd + 2) 0x27 with
    | none => exact iff_of_false Bool.false_ne_true fun fits => Bool.false_ne_true fits.1
    | some reached =>
        obtain ⟨wiped, data⟩ := reached
        obtain ⟨rfl, rfl⟩ := CString.strsep_wipes searched
        rw [Option.bind_eq_bind, Option.bind_some, Option.isSome_some, and_iff_right rfl,
          and_iff_right fun paren => absurd paren other]
        cases found : delimPlace memory (cmd + 2) 0x27 with
        | none => exact iff_of_true rfl fun quote none_ => by cases none_
        | some quote =>
            have inside := CString.delimPlace_lt_length found
            simp only [CString.wipe_some, Option.map_some, Option.some.injEq, forall_eq']
            have fits := regisWdata_isSome_iff (CString.nul_not_mem_between found)
              (memory.drop (quote + 1))
            have ahead := (CString.delimPlace_spec found).1
            rw [CString.length_between inside, ← CString.drop_set_eq ahead inside] at fits
            have places : 0 < quote - (cmd + 2) ∧ quote - (cmd + 2) < 1000 ↔
                cmd + 2 < quote ∧ quote < cmd + 1002 := by omega
            rw [← places, ← fits]
            cases regisWdata ((memory.set quote 0).drop (cmd + 2)) <;> rfl
  · rw [if_neg quoted, and_iff_right fun same => absurd same quoted]
    by_cases paren : opener = 0x28
    · rw [if_pos paren, regisSkip_isSome_iff, forall_prop_of_true paren]
      exact ⟨fun closes => ⟨closes, fun same => absurd same quoted⟩, And.left⟩
    · rw [if_neg paren]
      exact iff_of_true rfl ⟨fun same => absurd same paren, fun same => absurd same quoted⟩

/-- A vector returns exactly if it is empty or its point fits. -/
theorem regisProcessCmdVector_isSome_iff :
    (regisProcessCmdVector st memory cmd).isSome ↔
      (¬ CString.ascii "v[]" <+: memory.drop cmd → PointFits 0 memory cmd) := by
  rw [← CString.strncmp_eq_true_iff, regisProcessCmdVector]
  cases compared : CString.strncmp (memory.drop cmd) (CString.ascii "v[]") with
  | none =>
      refine iff_of_false Bool.false_ne_true fun fits => ?_
      -- the memory ends behind the letter or the bracket, so no comma can be found
      have short := CString.length_lt_of_strncmp compared
      rw [List.length_drop, show (CString.ascii "v[]").length = 3 from rfl] at short
      have nothing : memory.drop (cmd + 2) = [] := List.drop_eq_nil_of_le (by omega)
      have closes := (fits (by decide)).1
      rw [Closes, nothing] at closes
      exact closes.elim List.not_mem_nil List.not_mem_nil
  | some empty =>
      rw [Option.bind_eq_bind, Option.bind_some]
      cases empty with
      | true => exact iff_of_true rfl fun other => absurd rfl other
      | false =>
          have other : ¬ some false = some true := by decide
          rw [if_neg Bool.false_ne_true, Option.isSome_map, regisPoint_isSome_iff]
          exact ⟨fun fits _ => fits, fun fits => fits other⟩

/-- Only the handler of its letter matters for a command. -/
theorem commandFits_iff {letter : UInt8} (read : memory[cmd]? = some letter) :
    CommandFits memory cmd ↔
      (letter = 0x53 ∨ letter = 0x57 → Closes memory (cmd + 2) 0x29) ∧
        (letter = 0x54 → memory[cmd + 1]? = some 0x27 →
          ∀ quote, delimPlace memory (cmd + 2) 0x27 = some quote →
            cmd + 2 < quote ∧ quote < cmd + 1002) ∧
        (letter = 0x50 → PointFits 1 memory cmd) ∧
        (letter = 0x76 → ¬ CString.ascii "v[]" <+: memory.drop cmd → PointFits 0 memory cmd) := by
  constructor
  · rintro ⟨skipped, text, position, vector⟩
    simp only [read, Option.some.injEq] at skipped text position vector
    exact ⟨skipped, text, position, vector⟩
  · rintro ⟨skipped, text, position, vector⟩
    constructor
    all_goals simp only [read, Option.some.injEq]
    · exact skipped
    · exact text
    · exact position
    · exact vector

theorem commandReads_iff :
    CommandReads memory cmd ↔
      (memory[cmd]?).isSome ∧
        (memory[cmd]? = some 0x54 →
          (memory[cmd + 1]?).isSome ∧
            (memory[cmd + 1]? = some 0x27 → Closes memory (cmd + 2) 0x27) ∧
            (memory[cmd + 1]? = some 0x28 → Closes memory (cmd + 2) 0x29)) ∧
        CommandFits memory cmd := by
  constructor
  · rintro ⟨fits, letter, opener, quote, paren⟩
    exact ⟨letter, fun text => ⟨opener text, quote text, paren text⟩, fits⟩
  · rintro ⟨letter, text, fits⟩
    exact ⟨fits, letter, fun here => (text here).1, fun here => (text here).2.1,
      fun here => (text here).2.2⟩

/-- **When a command returns.** It does exactly if the bytes behind it can be read and fit its
handler. -/
theorem regisProcessCommand_isSome_iff_reads :
    (regisProcessCommand st memory cmd).isSome ↔ CommandReads memory cmd := by
  rw [commandReads_iff, regisProcessCommand]
  cases read : memory[cmd]? with
  | none => exact iff_of_false Bool.false_ne_true fun reads => Bool.false_ne_true reads.1
  | some letter =>
  rw [commandFits_iff read, Option.bind_eq_bind, Option.bind_some, regisHandler]
  split_ifs with screen text width position vector
  · subst screen
    simpa [regisProcessCmdScreen] using regisSkip_isSome_iff
  · subst text
    have handled := @regisProcessCmdText_isSome_iff ((st.setIsClear false).dispatch 0x54) memory cmd
    simpa [and_assoc] using handled
  · subst width
    simpa [regisProcessCmdW] using regisSkip_isSome_iff
  · subst position
    simpa [regisProcessCmdPosition] using regisPoint_isSome_iff
  · subst vector
    simpa using regisProcessCmdVector_isSome_iff
  · simp [screen, text, width, position, vector]

/-- A command that stands before a NUL can be read if it fits. -/
theorem CommandFits.reads (fits : CommandFits memory cmd) (closed : 0 ∈ memory.drop cmd) :
    CommandReads memory cmd := by
  obtain ⟨nul, behind, zero⟩ := CString.mem_drop_iff.mp closed
  have inside : nul < memory.length := (List.getElem?_eq_some_iff.mp zero).1
  -- a byte that is no NUL has the NUL behind it
  have further {place : Nat} (before : place ≤ nul) {byte : UInt8}
      (here : memory[place]? = some byte) (other : byte ≠ 0) : place + 1 ≤ nul := by
    rcases Nat.lt_or_eq_of_le before with below | same
    · exact below
    · rw [same, zero] at here
      exact absurd (Option.some.inj here).symm other
  have closes {opener delim : UInt8} (letter : memory[cmd]? = some 0x54)
      (read : memory[cmd + 1]? = some opener) (other : opener ≠ 0) :
      Closes memory (cmd + 2) delim := by
    have second := further behind letter (by decide)
    exact .inr (CString.mem_drop_iff.mpr ⟨nul, further second read other, zero⟩)
  refine ⟨fits, ?_, fun letter => ?_, fun letter read => closes letter read (by decide),
    fun letter read => closes letter read (by decide)⟩
  · rw [List.getElem?_eq_getElem (Nat.lt_of_le_of_lt behind inside)]
    rfl
  · have second := further behind letter (by decide)
    rw [List.getElem?_eq_getElem (Nat.lt_of_le_of_lt second inside)]
    rfl

/-- A command that stands before a NUL is handled exactly if the bytes behind it fit its
handler. -/
theorem regisProcessCommand_isSome_iff (closed : 0 ∈ memory.drop cmd) :
    (regisProcessCommand st memory cmd).isSome ↔ CommandFits memory cmd :=
  regisProcessCommand_isSome_iff_reads.trans
    ⟨CommandReads.toCommandFits, fun fits => fits.reads closed⟩

end Handlers

end Hackterm
