import Hackterm.Parser.Command
import Hackterm.Parser.Cuts
import Hackterm.Parser.Told

/-! # What the host sends

The host sends text, controls, escape sequences, commands and strings that a BEL ends
(`Hackterm.HostItem`). The hooks are called for them in their order, wherever the stream is cut
into reads, and the terminal is told the same (`Hackterm.items_reads`), if the reads do not
overrun the array of `on_text`. Text that is ASCII never does (`Hackterm.HostItem.readsFit`).
-/

namespace Hackterm

open CString

/-- A string that a BEL can end. -/
structure HostString where
  bytes : List UInt8
  printable : ∀ c ∈ bytes, 0x20 ≤ c ∧ c ≠ 0x7F
  short : bytes.length < strbufferLen

/-- An escape sequence without arguments. -/
structure HostEscape where
  intermed : List UInt8
  final : UInt8
  intermed_range : ∀ c ∈ intermed, 0x20 ≤ c ∧ c ≤ 0x2F
  final_range : 0x30 ≤ final ∧ final < 0x7F
  introduces : final ≠ 0x50 ∧ final ≠ 0x5B ∧ final ≠ 0x5D
  short : intermed.length < strbufferLen

/-- What the host sends. -/
inductive HostItem where
  | text (c : UInt8) (printable : 0x20 ≤ c ∧ c ≠ 0x7F)
  | control (c : UInt8) (low : c < 0x20 ∧ c ≠ 0x1B)
  | escape (sequence : HostEscape)
  | csi (command : HostCommand)
  | osc (string : HostString)
  | dcs (string : HostString)

namespace HostItem

/-- The bytes of an item. -/
def bytes : HostItem → List UInt8
  | text c _ | control c _ => [c]
  | escape sequence => 0x1B :: (sequence.intermed ++ [sequence.final])
  | csi command => command.bytes
  | osc string => 0x1B :: 0x5D :: (string.bytes ++ [0x07])
  | dcs string => 0x1B :: 0x50 :: (string.bytes ++ [0x07])

/-- The calls of the hooks for an item. -/
def events : HostItem → List HookEvent
  | text c _ => [.text [c]]
  | control _ _ => []
  | escape sequence => stringEvents .esc (sequence.intermed ++ [sequence.final])
  | csi command => [.csi command.event]
  | osc string => [.osc string.bytes]
  | dcs string => stringEvents .dcs string.bytes

section Steps

variable {c : UInt8}

theorem ne_of_printable (printable : 0x20 ≤ c) {low : UInt8} (below : low < 0x20) : c ≠ low :=
  fun same => absurd (same ▸ printable) (UInt8.not_le.mpr below)

/-- A byte of an open string that is no control. -/
theorem step_string {parserState : VTermParserState} {pending : List UInt8}
    (printable : 0x20 ≤ c) (noDel : c ≠ 0x7F) :
    hooks.step ⟨parserState, pending, false⟩ c = hookByte ⟨parserState, pending, false⟩ c := by
  have noControl : isControl parserState c = false := by
    simp [isControl, UInt8.not_lt.mpr printable]
  simp only [hooks, noDel, ne_of_printable printable (show (0x00 : UInt8) < 0x20 by decide),
    ne_of_printable printable (show (0x18 : UInt8) < 0x20 by decide),
    ne_of_printable printable (show (0x1A : UInt8) < 0x20 by decide),
    ne_of_printable printable (show (0x1B : UInt8) < 0x20 by decide), noControl, or_self,
    false_and, ↓reduceIte, Bool.false_eq_true]

theorem strbufferLen_pos : 0 < strbufferLen := by decide

/-- The string in a state that is not behind the ESC of a string. -/
theorem string_eq {kind : VTermParserState} (closed : kind ≠ .escInOsc ∧ kind ≠ .escInDcs)
    (pending : List UInt8) (inText : Bool) :
    HookState.string ⟨kind, pending, inText⟩ = pending := by
  obtain ⟨noOsc, noDcs⟩ := closed
  unfold HookState.string
  cases kind <;> first | rfl | contradiction

/-- One byte. -/
theorem goes_one {kind : VTermParserState} {pending : List UInt8} {inText : Bool}
    {next : HookState} {events : List HookEvent} (short : pending.length < strbufferLen)
    (kept : givesUp kind c = true → pending = [])
    (closed : kind ≠ .escInOsc ∧ kind ≠ .escInDcs) (noDel : c ≠ 0x7F)
    (step : hooks.step ⟨kind, pending, inText⟩ c = (next, events))
    (goesOn : next.string.length < strbufferLen) :
    Goes ⟨kind, pending, inText⟩ [c] next events := by
  have sure : Sure ⟨kind, pending, inText⟩ c :=
    ⟨by rw [string_eq closed]; exact short, kept, closed, noDel⟩
  have goes := Goes.cons sure (.nil (by rw [step]; exact goesOn))
  rw [step, List.append_nil] at goes
  exact goes

/-- Bytes that an open string is made of. -/
theorem goes_pending {kind : VTermParserState} {bytes : List UInt8} (pending : List UInt8)
    (printable : ∀ c ∈ bytes, 0x20 ≤ c ∧ c ≠ 0x7F)
    (belongs : ∀ c ∈ bytes, ∀ pending,
      hookByte ⟨kind, pending, false⟩ c = (⟨kind, pending ++ [c], false⟩, []))
    (kept : ∀ c ∈ bytes, givesUp kind c = false)
    (closed : kind ≠ .escInOsc ∧ kind ≠ .escInDcs)
    (short : (pending ++ bytes).length < strbufferLen) :
    Goes ⟨kind, pending, false⟩ bytes ⟨kind, pending ++ bytes, false⟩ [] := by
  induction bytes generalizing pending with
  | nil =>
      rw [List.append_nil] at short ⊢
      exact .nil (by rw [string_eq closed]; exact short)
  | cons c bytes ih =>
      obtain ⟨⟨first, noDel⟩, others⟩ := List.forall_mem_cons.mp printable
      have room : pending.length < strbufferLen := by
        rw [List.length_append] at short
        omega
      have sure : Sure ⟨kind, pending, false⟩ c := by
        refine ⟨by rw [string_eq closed]; exact room, fun gives => ?_, closed, noDel⟩
        rw [kept c List.mem_cons_self] at gives
        cases gives
      have step := (step_string first noDel).trans (belongs c List.mem_cons_self pending)
      have split : pending ++ c :: bytes = (pending ++ [c]) ++ bytes := by
        rw [List.append_assoc]
        rfl
      rw [split] at short ⊢
      have later := ih (pending ++ [c]) others
        (fun other member => belongs other (List.mem_cons_of_mem _ member))
        (fun other member => kept other (List.mem_cons_of_mem _ member)) short
      have goes := Goes.cons sure (by rw [step]; exact later)
      rw [step] at goes
      exact goes

/-- An ESC opens an escape sequence. -/
theorem goes_esc (inText : Bool) :
    Goes ⟨.normal, [], inText⟩ [0x1B] (.openString .esc) [] := by
  refine goes_one strbufferLen_pos (fun _ => rfl) (by decide) (by decide) ?_ strbufferLen_pos
  cases inText <;> rfl

/-- A byte behind an ESC opens a string. -/
theorem goes_open {kind : VTermParserState} (open_ : hookEscByte c [] = (.openString kind, []))
    (printable : 0x20 ≤ c) (noDel : c ≠ 0x7F) (inText : Bool) :
    Goes ⟨.normal, [], inText⟩ [0x1B, c] (.openString kind) [] := by
  have whole : (HookState.openString kind).string = [] := by
    unfold HookState.string HookState.openString
    cases kind <;> rfl
  have behind : Goes (.openString .esc) [c] (.openString kind) [] := by
    refine goes_one strbufferLen_pos (fun _ => rfl) (by decide) noDel ?_ ?_
    · exact (step_string printable noDel).trans open_
    · rw [whole]
      exact strbufferLen_pos
  exact (goes_esc inText).append behind

end Steps

/-- The printable bytes of a string that a BEL ends. -/
theorem goes_string {kind : VTermParserState} (isString : kind = .osc ∨ kind = .dcs)
    (string : HostString) :
    Goes (.openString kind) (string.bytes ++ [0x07]) .start (stringEvents kind string.bytes) := by
  have body : Goes (.openString kind) string.bytes ⟨kind, [] ++ string.bytes, false⟩ [] := by
    refine goes_pending [] string.printable ?_ ?_ ?_ string.short
    · intro c member pending
      have noBel : c ≠ 0x07 := ne_of_printable (string.printable c member).1 (by decide)
      rcases isString with rfl | rfl <;>
        simp only [hookByte, HookState.extend, noBel, ↓reduceIte]
    · intro c member
      have first := (string.printable c member).1
      have noCan : c ≠ 0x18 := ne_of_printable first (by decide)
      have noSub : c ≠ 0x1A := ne_of_printable first (by decide)
      rcases isString with rfl | rfl <;> simp [givesUp, noCan, noSub]
    · rcases isString with rfl | rfl <;> decide
  have bel : Goes ⟨kind, [] ++ string.bytes, false⟩ [0x07] .start
      (stringEvents kind string.bytes) := by
    refine goes_one string.short (fun gives => ?_) ?_ (by decide) ?_ strbufferLen_pos
    · rcases isString with rfl | rfl <;> exact absurd gives (by decide)
    · rcases isString with rfl | rfl <;> decide
    · rcases isString with rfl | rfl <;> rfl
  exact body.append bel

/-- An escape sequence is taken whole. -/
theorem goes_escape (sequence : HostEscape) (inText : Bool) :
    Goes ⟨.normal, [], inText⟩ (escape sequence).bytes .start (escape sequence).events := by
  have range := sequence.intermed_range
  have body : Goes (.openString .esc) sequence.intermed
      ⟨.esc, [] ++ sequence.intermed, false⟩ [] := by
    refine goes_pending [] (fun c member => ?_) (fun c member pending => ?_)
      (fun c member => ?_) (by decide) sequence.short
    · refine ⟨(range c member).1, ?_⟩
      rintro rfl
      exact absurd (range _ member).2 (by decide)
    · have masked : ∀ c : Fin 256, UInt8.ofFin c ≤ 0x2F → UInt8.ofFin c ≠ 0x50 ∧
          UInt8.ofFin c ≠ 0x5B ∧ UInt8.ofFin c ≠ 0x5D ∧
            ¬ (0x30 ≤ UInt8.ofFin c ∧ UInt8.ofFin c < 0x7F) := by decide +kernel
      obtain ⟨noDcs, noCsi, noOsc, noFinal⟩ := masked c.toFin (range c member).2
      exact (if_neg noDcs).trans ((if_neg noCsi).trans ((if_neg noOsc).trans (if_neg noFinal)))
    · have masked : ∀ c : Fin 256, 0x20 ≤ UInt8.ofFin c → UInt8.ofFin c ≤ 0x2F →
          givesUp .esc (UInt8.ofFin c) = false := by decide +kernel
      exact masked c.toFin (range c member).1 (range c member).2
  obtain ⟨noDcs, noCsi, noOsc⟩ := sequence.introduces
  have printable : 0x20 ≤ sequence.final :=
    UInt8.le_trans (by decide) sequence.final_range.1
  have noDel : sequence.final ≠ 0x7F := by
    intro del
    exact absurd (del ▸ sequence.final_range.2) (by decide)
  have final : Goes ⟨.esc, [] ++ sequence.intermed, false⟩ [sequence.final] .start
      (stringEvents .esc (sequence.intermed ++ [sequence.final])) := by
    refine goes_one sequence.short (fun gives => ?_) (by decide) noDel ?_ strbufferLen_pos
    · have masked : ∀ c : Fin 256, 0x30 ≤ UInt8.ofFin c → givesUp .esc (UInt8.ofFin c) = true →
          UInt8.ofFin c = 0x50 ∨ UInt8.ofFin c = 0x5B ∨ UInt8.ofFin c = 0x5D := by
        decide +kernel
      rcases masked sequence.final.toFin sequence.final_range.1 gives with same | same | same
      · exact absurd same noDcs
      · exact absurd same noCsi
      · exact absurd same noOsc
    · refine (step_string printable noDel).trans ?_
      exact (if_neg noDcs).trans ((if_neg noCsi).trans ((if_neg noOsc).trans
        (if_pos sequence.final_range)))
  exact (goes_esc inText).append (body.append final)

/-- A command is taken whole. -/
theorem goes_csi (command : HostCommand) (inText : Bool) :
    Goes ⟨.normal, [], inText⟩ (csi command).bytes .start (csi command).events := by
  have range := command.body_range
  have opened : Goes ⟨.normal, [], inText⟩ [0x1B, 0x5B] (.openString .csi) [] :=
    goes_open rfl (by decide) (by decide) inText
  have body : Goes (.openString .csi) command.body ⟨.csi, [] ++ command.body, false⟩ [] := by
    refine goes_pending [] (fun c member => ?_) (fun c member pending => ?_)
      (fun c member => ?_) (by decide) command.short
    · refine ⟨(range c member).1, ?_⟩
      rintro rfl
      exact absurd (range _ member).2 (by decide)
    · exact if_neg fun final => absurd (range c member).2 (UInt8.not_lt.mpr final.1)
    · have first := (range c member).1
      have noCan : c ≠ 0x18 := ne_of_printable first (by decide)
      have noSub : c ≠ 0x1A := ne_of_printable first (by decide)
      have noEsc : c ≠ 0x1B := ne_of_printable first (by decide)
      simp [givesUp, noCan, noSub, noEsc]
  have printable : 0x20 ≤ command.command :=
    UInt8.le_trans (by decide) command.command_range.1
  have noDel : command.command ≠ 0x7F := by
    intro del
    exact absurd (del ▸ command.command_range.2) (by decide)
  have final : Goes ⟨.csi, [] ++ command.body, false⟩ [command.command] .start
      [.csi command.event] := by
    refine goes_one command.short (fun gives => ?_) (by decide) noDel ?_ strbufferLen_pos
    · have noCan : command.command ≠ 0x18 := ne_of_printable printable (by decide)
      have noSub : command.command ≠ 0x1A := ne_of_printable printable (by decide)
      have noEsc : command.command ≠ 0x1B := ne_of_printable printable (by decide)
      simp [givesUp, noCan, noSub, noEsc] at gives
    · refine (step_string printable noDel).trans ((if_pos
        ⟨command.command_range.1, UInt8.le_of_lt command.command_range.2⟩).trans ?_)
      simp [stringEvents, command.doStringCsi_body]
  exact opened.append (body.append final)

/-- **An item is taken whole.** -/
theorem goes (item : HostItem) (inText : Bool) :
    ∃ after, Goes ⟨.normal, [], inText⟩ item.bytes ⟨.normal, [], after⟩ item.events := by
  cases item with
  | text c printable =>
      refine ⟨true, goes_one strbufferLen_pos (fun _ => rfl) (by decide) printable.2 ?_
        strbufferLen_pos⟩
      exact hooks_step_text inText c printable.1 fun del => absurd del printable.2
  | control c low =>
      have noDel : c ≠ 0x7F := fun del => absurd (del ▸ low.1) (by decide)
      have control : isControl .normal c = true := by simp [isControl, low.1]
      refine ⟨false, goes_one strbufferLen_pos (fun _ => rfl) (by decide) noDel ?_
        strbufferLen_pos⟩
      simp only [hooks, noDel, low.2, control, false_and, or_false, ↓reduceIte]
      split_ifs <;> rfl
  | escape sequence => exact ⟨false, goes_escape sequence inText⟩
  | csi command => exact ⟨false, goes_csi command inText⟩
  | osc string =>
      exact ⟨false, (goes_open rfl (by decide) (by decide) inText).append
        (goes_string (.inl rfl) string)⟩
  | dcs string =>
      exact ⟨false, (goes_open rfl (by decide) (by decide) inText).append
        (goes_string (.inr rfl) string)⟩

/-- Items are taken one after the other. -/
theorem goes_flatMap (items : List HostItem) (inText : Bool) :
    ∃ after, Goes ⟨.normal, [], inText⟩ (items.flatMap bytes) ⟨.normal, [], after⟩
      (items.flatMap events) := by
  induction items generalizing inText with
  | nil => exact ⟨inText, .nil strbufferLen_pos⟩
  | cons item items ih =>
      obtain ⟨middle, first⟩ := item.goes inText
      obtain ⟨after, others⟩ := ih middle
      rw [List.flatMap_cons, List.flatMap_cons]
      exact ⟨after, first.append others⟩

theorem text_mem_events {item : HostItem} {b : UInt8} (member : .text [b] ∈ item.events) :
    ∃ printable, item = .text b printable := by
  cases item with
  | text c printable =>
      obtain rfl : b = c := by simpa [events] using member
      exact ⟨printable, rfl⟩
  | escape sequence =>
      simp only [events, stringEvents] at member
      split at member
      · split_ifs at member
        · simp at member
        · simp at member
      · simp at member
  | dcs string =>
      simp only [events, stringEvents] at member
      split_ifs at member
      · simp at member
      · simp at member
  | control | csi | osc => simp [events] at member

/-- **Text that is ASCII fits** wherever it is cut, whatever strings stand between it. -/
theorem readsFit (items : List HostItem)
    (ascii : ∀ c printable, .text c printable ∈ items → c < 0x80) (reads : List (List UInt8))
    (cut : reads.flatten = items.flatMap bytes) : ReadsFit vtermStart reads := by
  obtain ⟨after, goes⟩ := goes_flatMap items false
  rw [← cut] at goes
  refine goes.readsFit between_start Encodings.idle_start fun b member => ?_
  obtain ⟨item, inside, here⟩ := List.mem_flatMap.mp member
  obtain ⟨printable, rfl⟩ := text_mem_events here
  exact ascii b printable inside

end HostItem

end Hackterm
