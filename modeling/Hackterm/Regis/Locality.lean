import Hackterm.Regis.Processor

/-! # ReGIS commands wherever they stand

A handler looks only at the memory from its command on, and the drawing state has no part in
where it goes on. What it wipes and where it returns is the same wherever the command stands
(`Hackterm.regisProcessCommand_local`).
-/

namespace Hackterm

open CString (strsep)

/-- A handler depends only on the memory from its command on. It wipes and returns the same
places wherever the command stands, and in every state. -/
def RegisLocal (handler : Regis → List UInt8 → Nat → Option RegisReturn) : Prop :=
  ∀ st other front memory, (handler st (front ++ memory) front.length).map Prod.snd =
    (handler other memory 0).map fun returned =>
      (front ++ returned.2.1, front.length + returned.2.2)

section Local

/-- Memories that agree from an offset on. -/
theorem getElem?_of_drop_eq {memory other : List UInt8} {start place : Nat}
    (same : other.drop start = memory.drop start) (behind : start ≤ place) :
    other[place]? = memory[place]? := by
  obtain ⟨offset, rfl⟩ := Nat.exists_eq_add_of_le behind
  rw [← List.getElem?_drop, same, List.getElem?_drop]

variable (front memory : List UInt8)

theorem getElem?_local (place : Nat) : (front ++ memory)[front.length + place]? = memory[place]? := by
  rw [List.getElem?_append_right (Nat.le_add_right _ _), Nat.add_sub_cancel_left]

theorem regisSkip_local (delim : UInt8) : RegisLocal (regisSkip delim) := by
  intro st other front memory
  rw [regisSkip, regisSkip, CString.strsep_append]
  cases strsep memory (0 + 2) delim with
  | none => rfl
  | some searched =>
      obtain ⟨wiped, found⟩ := searched
      cases found with
      | none => rfl
      | some place => rfl

theorem regisProcessCmdText_local : RegisLocal regisProcessCmdText := by
  intro st other front memory
  rw [regisProcessCmdText, regisProcessCmdText, getElem?_local]
  cases memory[0 + 1]? with
  | none => rfl
  | some opener =>
      simp only [Option.bind_eq_bind, Option.bind_some]
      split
      · rw [CString.strsep_append]
        cases strsep memory (0 + 2) 0x27 with
        | none => rfl
        | some searched =>
            obtain ⟨wiped, data⟩ := searched
            cases data with
            | none => rfl
            | some data =>
                simp only [Option.map_some, Option.bind_some, List.drop_length_add_append]
                cases regisWdata (wiped.drop (0 + 2)) with
                | none => rfl
                | some wdata => rfl
      · split
        · exact regisSkip_local 0x29 st other front memory
        · rfl

/-- A point is the same point wherever it stands. -/
theorem regisPoint_local (gap : Nat) :
    regisPoint gap (front ++ memory) front.length =
      (regisPoint gap memory 0).map fun parsed =>
        (front ++ parsed.1, parsed.2.map fun found => (found.1, front.length + found.2)) := by
  rw [regisPoint, regisPoint, CString.strsep_append]
  cases strsep memory (0 + 2) 0x2C with
  | none => rfl
  | some searched =>
      obtain ⟨wiped, xstr⟩ := searched
      cases xstr with
      | none => rfl
      | some xstr =>
          simp only [Option.map_some, Option.bind_eq_bind, Option.bind_some]
          rw [Nat.add_assoc, CString.strsep_append]
          cases strsep wiped (xstr + gap) 0x5D with
          | none => rfl
          | some searched =>
              obtain ⟨wiped, ystr⟩ := searched
              cases ystr with
              | none => rfl
              | some ystr =>
                  simp only [Option.map_some, Option.bind_some, List.drop_length_add_append]
                  cases CString.atoi (wiped.drop (0 + 2)) with
                  | none => rfl
                  | some newX =>
                      cases CString.atoi (wiped.drop xstr) with
                      | none => rfl
                      | some newY => rfl

theorem regisProcessCmdPosition_local : RegisLocal regisProcessCmdPosition := by
  intro st other front memory
  rw [regisProcessCmdPosition, regisProcessCmdPosition, regisPoint_local]
  cases regisPoint 1 memory 0 with
  | none => rfl
  | some parsed =>
      obtain ⟨wiped, found⟩ := parsed
      cases found with
      | none => rfl
      | some point => rfl

theorem regisProcessCmdVector_local : RegisLocal regisProcessCmdVector := by
  intro st other front memory
  rw [regisProcessCmdVector, regisProcessCmdVector, regisPoint_local, List.drop_left, List.drop_zero]
  cases CString.strncmp memory (CString.ascii "v[]") with
  | none => rfl
  | some empty =>
      simp only [Option.bind_eq_bind, Option.bind_some]
      split
      · rfl
      · cases regisPoint 0 memory 0 with
        | none => rfl
        | some parsed =>
            obtain ⟨wiped, found⟩ := parsed
            cases found with
            | none => rfl
            | some point => rfl

/-- **Commands are local**: what a command wipes and returns does not depend on what stands
before it. -/
theorem regisProcessCommand_local : RegisLocal regisProcessCommand := by
  intro st other front memory
  have first : (front ++ memory)[front.length]? = memory[0]? := getElem?_local front memory 0
  rw [regisProcessCommand, regisProcessCommand, first]
  cases memory[0]? with
  | none => rfl
  | some letter =>
      simp only [Option.bind_eq_bind, Option.bind_some]
      rw [regisHandler]
      split_ifs
      · exact regisSkip_local 0x29 _ _ front memory
      · exact regisProcessCmdText_local _ _ front memory
      · exact regisSkip_local 0x29 _ _ front memory
      · exact regisProcessCmdPosition_local _ _ front memory
      · exact regisProcessCmdVector_local _ _ front memory
      · rfl

end Local

end Hackterm
