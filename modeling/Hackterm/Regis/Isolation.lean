import Hackterm.Regis.Processor

/-! # Bytes behind a ReGIS payload

No NUL closes a payload, and every handler searches for the end of its command as
far as the memory goes. The loop stands at most one byte behind the payload, but
when it stands there it takes that byte for a command too. A payload of three bytes
or more therefore never decides the drawing: behind it there may be bytes that leave
the result undefined, however many bytes there are
(`Hackterm.dcsHandler_isolated_iff`).
-/

namespace Hackterm

open CString (strsep)

/-- What a run does: the pen it leaves, the calls that paint, and whether the layer
counts as clear. -/
def Regis.effects (st : Regis) : (Int × Int) × List RegisDraw × Bool :=
  ((st.penX, st.penY), st.drawn, st.isClear)

/-- Two runs with different bytes behind the same payload have the same effects. -/
def RegisSameEffects (payload behind other : List UInt8) (st : Regis) : Prop :=
  ∃ effects, (dcsHandler st (payload ++ behind) payload.length).map Regis.effects = some effects ∧
    (dcsHandler st (payload ++ other) payload.length).map Regis.effects = some effects

/-- The payload alone decides what the handler does, among all memories that have so
many bytes behind it. -/
def RegisIsolated (payload : List UInt8) (room : Nat) : Prop :=
  ∀ st behind other, behind.length = room → other.length = room →
    RegisSameEffects payload behind other st

/-- From the pointer on, memory holds the rest of a payload without a NUL, and then
only the letter `S`. -/
def RegisStarved (room cmdlen : Nat) (memory : List UInt8) (pointer : Nat) : Prop :=
  ∃ left, memory.drop pointer = left ++ List.replicate room 0x53 ∧ 0 ∉ left ∧
    pointer + left.length = cmdlen

section Starved

variable {room cmdlen pointer next : Nat} {memory wiped : List UInt8}

/-- A byte other than `S` is a byte of the payload, and the next byte is starved too. -/
theorem RegisStarved.skip {byte : UInt8} (starved : RegisStarved room cmdlen memory pointer)
    (count : Nat) (read : memory[pointer + count]? = some byte) (notScreen : byte ≠ 0x53) :
    RegisStarved room cmdlen memory (pointer + count + 1) := by
  obtain ⟨left, spelled, clean, ends⟩ := starved
  have inside : count < left.length := by
    rw [← List.getElem?_drop, spelled] at read
    by_contra outside
    rw [List.getElem?_append_right (Nat.not_lt.mp outside)] at read
    exact notScreen (List.eq_of_mem_replicate (List.mem_of_getElem? read))
  refine ⟨left.drop (count + 1), ?_, fun member => clean (List.mem_of_mem_drop member), ?_⟩
  · rw [Nat.add_assoc, ← List.drop_drop, spelled, List.drop_append_of_le_length inside]
  · rw [List.length_drop]
    omega

theorem RegisStarved.set (starved : RegisStarved room cmdlen memory next) {place : Nat}
    (before : place < next) (byte : UInt8) :
    RegisStarved room cmdlen (memory.set place byte) next := by
  obtain ⟨left, spelled, rest⟩ := starved
  refine ⟨left, ?_, rest⟩
  rw [List.drop_set_of_lt before, spelled]

theorem RegisStarved.noNul (starved : RegisStarved room cmdlen memory pointer) :
    0 ∉ memory.drop pointer := by
  obtain ⟨left, spelled, clean, -⟩ := starved
  rw [spelled, List.mem_append, List.mem_replicate]
  rintro (member | ⟨-, isScreen⟩)
  · exact clean member
  · exact absurd isScreen (by decide)

/-- A search either leaves the memory or ends inside the payload. -/
theorem RegisStarved.strsep {delim : UInt8} {found : Option Nat}
    (starved : RegisStarved room cmdlen memory pointer) (ahead : Nat) (notScreen : delim ≠ 0x53)
    (searched : strsep memory (pointer + ahead) delim = some (wiped, found)) :
    ∃ place, found = some place ∧ RegisStarved room cmdlen wiped place := by
  have clean : 0 ∉ memory.drop (pointer + ahead) := fun member => by
    rw [← List.drop_drop] at member
    exact starved.noNul (List.mem_of_mem_drop member)
  obtain ⟨place, behind, read, rfl, rfl⟩ := CString.strsep_noNul clean searched
  obtain ⟨count, rfl⟩ := Nat.exists_eq_add_of_le (Nat.le_trans (Nat.le_add_right _ _) behind)
  exact ⟨_, rfl, (starved.skip count read notScreen).set (Nat.lt_succ_self _) 0⟩

theorem RegisStarved.point {gap : Nat} {found : Option ((Int × Int) × Nat)}
    (starved : RegisStarved room cmdlen memory pointer)
    (parsed : regisPoint gap memory pointer = some (wiped, found)) :
    ∃ point place, found = some (point, place) ∧ RegisStarved room cmdlen wiped place := by
  simp only [regisPoint, Option.bind_eq_bind, Option.bind_eq_some_iff] at parsed
  obtain ⟨⟨searched, xstr⟩, comma, parsed⟩ := parsed
  obtain ⟨xstr, rfl, starved⟩ := starved.strsep 2 (by decide) comma
  obtain ⟨⟨searched, ystr⟩, bracket, parsed⟩ := Option.bind_eq_some_iff.mp parsed
  obtain ⟨ystr, rfl, starved⟩ := starved.strsep gap (by decide) bracket
  simp only [Option.bind_eq_some_iff, Option.some.injEq, Prod.mk.injEq] at parsed
  obtain ⟨newX, -, newY, -, rfl, rfl⟩ := parsed
  exact ⟨(newX, newY), ystr, rfl, starved⟩

/-- Wherever a command leads, the memory from there on is starved again. -/
theorem RegisStarved.move (starved : RegisStarved room cmdlen memory pointer)
    (moved : RegisMove memory pointer wiped next) : RegisStarved room cmdlen wiped next := by
  cases moved with
  | byte letter read notScreen => exact starved.skip 0 read notScreen
  | emptyVector spelled =>
      obtain ⟨behind, literal⟩ := CString.prefix_of_strncmp spelled
      have read : memory[pointer + 2]? = some 0x5D := by
        rw [← List.getElem?_drop, ← literal, vectorLiteral]
        rfl
      exact starved.skip 2 read (by decide)
  | skip delim delims wiped found searched =>
      have notScreen : delim ≠ 0x53 := by
        obtain rfl | rfl := delims
        · decide
        · decide
      obtain ⟨place, rfl, starved⟩ := starved.strsep 2 notScreen searched
      exact starved
  | point gap missed ahead wiped found parsed =>
      obtain ⟨point, place, rfl, starved⟩ := starved.point parsed
      exact starved

/-- **A starved processor leaves the memory.** -/
theorem regisLoop_starved (turns : Nat) (st : Regis) (memory : List UInt8) (pointer : Nat)
    (starved : RegisStarved room cmdlen memory pointer) :
    regisLoop 2 cmdlen turns st memory pointer = none := by
  induction turns generalizing st memory pointer with
  | zero => rfl
  | succ turns ih =>
      rw [regisLoop]
      cases processed : regisProcessCommand st memory pointer with
      | none => rfl
      | some returned =>
          obtain ⟨after, wiped, next⟩ := returned
          have starved := starved.move (regisProcessCommand_moves processed)
          have more : ¬ (cmdlen : Int) - ((next : Int) - (2 : Nat)) < 2 := by
            obtain ⟨left, -, -, ends⟩ := starved
            omega
          simp only [Option.bind_eq_bind, Option.bind_some, if_neg more]
          cases read : wiped[next]? with
          | none => rfl
          | some byte =>
              have notNul : byte ≠ 0 := by
                rintro rfl
                apply starved.noNul
                apply List.mem_of_getElem?
                rw [List.getElem?_drop, Nat.add_zero, read]
              rw [Option.bind_some, if_neg notNul, ih after wiped next starved]

end Starved

/-- **Payload isolation.** A payload decides the drawing alone exactly when it is too
short to be looked at, however many bytes stand behind it. -/
theorem dcsHandler_isolated_iff (payload : List UInt8) (clean : 0 ∉ payload) (room : Nat) :
    RegisIsolated payload room ↔ payload.length < 3 := by
  refine ⟨fun isolated => ?_, fun short => ?_⟩
  · by_contra long
    obtain ⟨effects, defined, -⟩ := isolated ⟨0, 0, true, [], []⟩ (List.replicate room 0x53)
      (List.replicate room 0x53) List.length_replicate List.length_replicate
    have starved : RegisStarved room payload.length (payload ++ List.replicate room 0x53) 2 := by
      refine ⟨payload.drop 2, ?_, fun member => clean (List.mem_of_mem_drop member), ?_⟩
      · rw [List.drop_append_of_le_length (by omega)]
      · rw [List.length_drop]
        omega
    rw [dcsHandler, if_neg long, regisProcessor, regisLoop_starved _ _ _ _ starved] at defined
    cases defined
  · intro st behind other _ _
    exact ⟨st.effects, by rw [dcsHandler, if_pos short]; rfl, by rw [dcsHandler, if_pos short]; rfl⟩

/-- With one byte behind the introducer the bytes behind the payload matter. -/
theorem dcsHandler_isolated_iff_single : ¬ RegisIsolated (CString.ascii "0px") 4 :=
  (dcsHandler_isolated_iff (CString.ascii "0px") (by decide) 4).not.mpr (by decide)

/-- A text command without its quote is closed by a quote behind the payload, if there
is one before the first NUL. -/
theorem dcsHandler_text_leaks :
    let payload := CString.ascii "0pT'a"
    let quoted := CString.ascii "\x1b\\b'"
    let bare := CString.ascii "\x1b\\b\x00"
    let st : Regis := ⟨0, 0, true, [], []⟩
    (dcsHandler st (payload ++ quoted) payload.length).map Regis.effects =
        some ((0, 0), [.unitext 0 0 [0x61, 0x1B, 0x5C, 0x62]], false) ∧
      (dcsHandler st (payload ++ bare) payload.length).map Regis.effects =
        some ((0, 0), [], false) ∧
      ¬ RegisSameEffects payload quoted bare st := by
  intro payload quoted bare st
  have drawn : (dcsHandler st (payload ++ quoted) payload.length).map Regis.effects =
      some ((0, 0), [.unitext 0 0 [0x61, 0x1B, 0x5C, 0x62]], false) := by decide +kernel
  have blank : (dcsHandler st (payload ++ bare) payload.length).map Regis.effects =
      some ((0, 0), [], false) := by decide +kernel
  refine ⟨drawn, blank, ?_⟩
  rintro ⟨effects, first, second⟩
  rw [drawn] at first
  rw [blank, ← first] at second
  simp at second

end Hackterm
