import Hackterm.Regis.Program

/-! # The characters of a text command

The text of a command is copied into an array of 1000 entries, with a terminator written
behind each character (`Hackterm.regisTextArray`). The empty text therefore gets no
terminator, a thousandth character puts it behind the array, and a byte above 0x7F is
sign-extended. All other texts are handed on as they are
(`Hackterm.regisTextArray_passes_iff`).
-/

namespace Hackterm

/-- The array `wdata` of `regis_process_cmd_text` while it is filled: its entries as far as
they are initialised, and the indices written so far. Those from 1000 on are outside. -/
structure Wdata where
  entries : Nat → Option UInt16
  written : List Nat

/-- `wdata[n] = value`. -/
def Wdata.store (n : Nat) (value : UInt16) (wdata : Wdata) : Wdata :=
  { entries := fun i => if i = n then some value else wdata.entries i
    written := wdata.written ++ [n] }

/-- The loop that fills the array, from the index `n` on for so many turns. -/
def regisTextLoop (odata : List UInt8) : Nat → Nat → Wdata → Option Wdata
  | 0, _, wdata => some wdata
  | turns + 1, n, wdata => do
      let byte ← odata[n]?
      if byte = 0 then some wdata
      else regisTextLoop odata turns (n + 1) ((wdata.store n (widen byte)).store (n + 1) 0)

/-- The array that is handed to `draw_unitext_surface`, from the text at `odata`. -/
def regisTextFill (odata : List UInt8) : Option Wdata :=
  regisTextLoop odata 1000 0 ⟨fun _ => none, []⟩

/-- The array of the text command at `cmd`, once its quote is found. -/
def regisTextArray (memory : List UInt8) (cmd : Nat) : Option Wdata := do
  let (memory, data) ← CString.strsep memory (cmd + 2) 0x27
  let _ ← data
  regisTextFill (memory.drop (cmd + 2))

/-- The first characters of a text stand in the array, each as its unsigned code, with the
terminator behind them, and nothing is written outside the array. -/
structure PassesText (text : List UInt8) (wdata : Wdata) : Prop where
  inside : ∀ n ∈ wdata.written, n < 1000
  terminated : wdata.entries (min text.length 999) = some 0
  chars : ∀ n, n < min text.length 999 → wdata.entries n = text[n]?.map UInt8.toUInt16

/-- The array when `n` characters are copied: the characters, the terminator behind them,
and what was written for them. -/
structure Wdata.Filled (text : List UInt8) (n : Nat) (wdata : Wdata) : Prop where
  chars : ∀ i, i < n → wdata.entries i = text[i]?.map widen
  terminated : wdata.entries n = if n = 0 then none else some 0
  written : ∀ i, i ∈ wdata.written ↔ n ≠ 0 ∧ i ≤ n

section Fill

variable {text : List UInt8} {n : Nat} {wdata : Wdata}

/-- One more character. -/
theorem Wdata.Filled.store (filled : wdata.Filled text n) {byte : UInt8}
    (read : text[n]? = some byte) :
    ((wdata.store n (widen byte)).store (n + 1) 0).Filled text (n + 1) where
  chars := by
    intro i below
    have other : i ≠ n + 1 := by omega
    simp only [Wdata.store, if_neg other]
    split
    · rename_i here
      rw [here, read]
      rfl
    · exact filled.chars i (by omega)
  terminated := by
    simp [Wdata.store]
  written := by
    intro i
    simp only [Wdata.store, List.mem_append, List.mem_singleton, filled.written]
    omega

/-- The loop goes on to the end of the text, or of the array. -/
theorem regisTextLoop_fills (clean : 0 ∉ text) (back : List UInt8) (turns : Nat)
    (total : n + turns = 1000) (inside : n ≤ text.length) (filled : wdata.Filled text n) :
    ∃ final, regisTextLoop (text ++ 0 :: back) turns n wdata = some final ∧
      final.Filled text (min text.length 1000) := by
  induction turns generalizing n wdata with
  | zero =>
      have last : min text.length 1000 = n := by omega
      exact ⟨wdata, rfl, last ▸ filled⟩
  | succ turns ih =>
      rw [regisTextLoop]
      rcases Nat.eq_or_lt_of_le inside with ended | more
      · have last : min text.length 1000 = n := by omega
        have read : (text ++ 0 :: back)[n]? = some 0 := by
          rw [ended, List.getElem?_append_right le_rfl, Nat.sub_self, List.getElem?_cons_zero]
        rw [read, Option.bind_eq_bind, Option.bind_some, if_pos rfl]
        exact ⟨wdata, rfl, last ▸ filled⟩
      · have read : text[n]? = some text[n] := List.getElem?_eq_getElem more
        have notNul : text[n] ≠ 0 := fun nul => clean (nul ▸ List.getElem_mem more)
        rw [List.getElem?_append_left more, read, Option.bind_eq_bind, Option.bind_some,
          if_neg notNul]
        exact ih (by omega) more (filled.store read)

/-- **Filling the array.** Up to a thousand characters of a text are copied. -/
theorem regisTextFill_fills (clean : 0 ∉ text) (back : List UInt8) :
    ∃ wdata, regisTextFill (text ++ 0 :: back) = some wdata ∧
      wdata.Filled text (min text.length 1000) :=
  regisTextLoop_fills clean back 1000 (Nat.zero_add 1000) (Nat.zero_le _)
    ⟨fun i below => absurd below (Nat.not_lt_zero i), rfl, fun i => by simp⟩

/-- Only ASCII characters are not changed by sign extension. -/
theorem widen_eq_iff (char : UInt8) : widen char = char.toUInt16 ↔ char < 0x80 := by
  refine ⟨fun same => ?_, widen_ascii⟩
  have bits := congrArg (fun unit : UInt16 => unit.toBitVec.getLsbD 15) same
  have extended : (widen char).toBitVec = char.toBitVec.signExtend 16 := rfl
  simp only [extended, UInt8.toBitVec_toUInt16, BitVec.getLsbD_signExtend,
    BitVec.getLsbD_setWidth] at bits
  have positive : char.toBitVec.msb = false := by simpa using bits
  rw [BitVec.msb_eq_decide, decide_eq_false_iff_not, Nat.not_le] at positive
  exact positive

/-- A filled array passes the text on if its terminator lies inside, and its characters
are not changed. -/
theorem Wdata.Filled.passes_iff (filled : wdata.Filled text (min text.length 1000)) :
    PassesText text wdata ↔
      (0 < text.length ∧ text.length < 1000) ∧ ∀ char ∈ text, char < 0x80 := by
  constructor
  · intro passes
    have present : text.length ≠ 0 := by
      intro none_
      have first := passes.terminated
      have missing := filled.terminated
      rw [none_, Nat.zero_min] at first missing
      rw [missing] at first
      cases first
    have short : text.length < 1000 := by
      by_contra long
      have outside := passes.inside 1000 ((filled.written 1000).mpr (by omega))
      omega
    refine ⟨⟨Nat.pos_of_ne_zero present, short⟩, fun char member => ?_⟩
    obtain ⟨n, inside, rfl⟩ := List.mem_iff_getElem.mp member
    have passed := passes.chars n (by omega)
    rw [filled.chars n (by omega), List.getElem?_eq_getElem inside] at passed
    exact (widen_eq_iff _).mp (Option.some.inj passed)
  · rintro ⟨⟨present, short⟩, ascii⟩
    have all : min text.length 1000 = text.length := by omega
    have last : min text.length 999 = text.length := by omega
    rw [all] at filled
    refine ⟨fun n member => ?_, ?_, fun n below => ?_⟩
    · have written := (filled.written n).mp member
      omega
    · rw [last, filled.terminated, if_neg (by omega)]
    · rw [last] at below
      rw [filled.chars n below, List.getElem?_eq_getElem below]
      exact congrArg some ((widen_eq_iff _).mpr (ascii _ (List.getElem_mem below)))

end Fill

/-- **Texts of any length.** The array of a text command passes its text on exactly when
the text has 1 to 999 characters, all of them ASCII. -/
theorem regisTextArray_passes_iff (front text back : List UInt8) (unquoted : 0x27 ∉ text)
    (clean : 0 ∉ text) :
    (∃ wdata, regisTextArray (front ++ [0x54, 0x27] ++ text ++ 0x27 :: back) front.length =
        some wdata ∧ PassesText text wdata) ↔
      (0 < text.length ∧ text.length < 1000) ∧ ∀ char ∈ text, char < 0x80 := by
  have start : (front ++ [0x54, 0x27]).length = front.length + 2 := List.length_append
  have quote := CString.strsep_token _ text back (by decide) unquoted clean start
  obtain ⟨wdata, fill, filled⟩ := regisTextFill_fills clean back
  have array : regisTextArray (front ++ [0x54, 0x27] ++ text ++ 0x27 :: back) front.length =
      some wdata := by
    rw [regisTextArray, quote, Option.bind_eq_bind, Option.bind_some]
    dsimp only
    rw [Option.bind_eq_bind, Option.bind_some, List.append_assoc (front ++ _),
      List.drop_left' start, fill]
  rw [array, ← filled.passes_iff]
  constructor
  · rintro ⟨same, given, passes⟩
    obtain rfl := Option.some.inj given
    exact passes
  · exact fun passes => ⟨wdata, rfl, passes⟩

theorem regisTextArray_passes_iff_hi :
    (∃ wdata, regisTextArray ([] ++ [0x54, 0x27] ++ [0x68, 0x69] ++ 0x27 :: [0]) 0 =
        some wdata ∧ PassesText [0x68, 0x69] wdata) ↔
      (0 < [0x68, 0x69].length ∧ [0x68, 0x69].length < 1000) ∧
        ∀ char ∈ ([0x68, 0x69] : List UInt8), char < 0x80 :=
  regisTextArray_passes_iff [] [0x68, 0x69] [0] (by decide) (by decide)

/-- The array of the empty text has no terminator: no entry of it is initialised. -/
theorem regisTextArray_unterminated :
    ∃ wdata, regisTextArray [0x54, 0x27, 0x27, 0] 0 = some wdata ∧
      wdata.entries 0 = none ∧ ¬ PassesText [] wdata := by
  refine ⟨⟨fun _ => none, []⟩, rfl, rfl, fun passes => ?_⟩
  cases passes.terminated

end Hackterm
