import Hackterm.Parser.Calls
import Hackterm.Parser.Reads

/-! # Streams that can be cut anywhere

A read that ends in an open string is careful where nothing gives up bytes of a string that were
saved (`Hackterm.Sure`). A stream of such bytes, over which the hooks go from a state to another
one (`Hackterm.Goes`), can be cut anywhere: every cut is clean (`Hackterm.Goes.cleanReads`).
-/

namespace Hackterm

/-- The array of `on_text` is not overrun in the reads. -/
def ReadsFit : VTerm → List (List UInt8) → Prop
  | _, [] => True
  | vt, bytes :: reads =>
      FitsLoop (readStart vt) bytes ∧ ∀ next ∈ vtermPushBytes vt bytes, ReadsFit next.1 reads

/-- Calls without text leave idle decoders idle. -/
theorem Encodings.Makes.idle {encodings after : Encodings} {called : List ParserCall}
    (makes : encodings.Makes called after) (idle : encodings.Idle)
    (noText : ∀ bytes, .text bytes ∉ called) : after.Idle := by
  obtain ⟨codepoints, done⟩ := makes
  induction called generalizing encodings codepoints with
  | nil =>
      obtain ⟨rfl, -⟩ := Prod.mk.inj (Option.some.inj done)
      exact idle
  | cons first others ih =>
      obtain ⟨next, here, behind⟩ := Option.bind_eq_some_iff.mp done
      obtain ⟨last, later, same⟩ := Option.map_eq_some_iff.mp behind
      obtain ⟨rfl, -⟩ := Prod.mk.inj same
      refine ih ?_ (fun bytes member => noText bytes (List.mem_cons_of_mem _ member)) last.2 later
      cases first with
      | text bytes => exact absurd List.mem_cons_self (noText bytes)
      | control c =>
          rw [← Option.some.inj here]
          exact idle.control c
      | escape bytes =>
          rw [← Option.some.inj here]
          exact idle.escape bytes
      | csi | osc | dcs =>
          rw [← Option.some.inj here]
          exact idle

/-- A byte at which no byte of an open string is lost, wherever the reads are cut. -/
structure Sure (state : HookState) (c : UInt8) : Prop where
  short : state.string.length < strbufferLen
  kept : givesUp state.parserState c = true → state.pending = []
  closed : state.parserState ≠ .escInOsc ∧ state.parserState ≠ .escInDcs
  noDel : c ≠ 0x7F

/-- The hooks go from a state to another one over bytes that are sure. -/
inductive Goes : HookState → List UInt8 → HookState → List HookEvent → Prop where
  | nil {state : HookState} (short : state.string.length < strbufferLen) : Goes state [] state []
  | cons {state after : HookState} {c : UInt8} {rest : List UInt8} {later : List HookEvent}
      (sure : Sure state c) (others : Goes (hooks.step state c).1 rest after later) :
      Goes state (c :: rest) after ((hooks.step state c).2 ++ later)

namespace Goes

variable {state middle after : HookState} {bytes front back : List UInt8}
  {events later : List HookEvent}

theorem run (goes : Goes state bytes after events) : hooks.run state bytes = (after, events) := by
  induction goes with
  | nil => rfl
  | cons sure others ih => rw [hooks.run_cons, ih]

theorem shortStrings (goes : Goes state bytes after events) : ShortStrings state bytes := by
  induction goes with
  | nil short => exact short
  | cons sure others ih => exact ⟨sure.short, ih⟩

theorem append (goes : Goes state front middle events) (others : Goes middle back after later) :
    Goes state (front ++ back) after (events ++ later) := by
  induction goes with
  | nil => exact others
  | cons sure rest ih =>
      rw [List.append_assoc]
      exact .cons sure (ih others)

/-- What goes over a stream goes over its parts. -/
theorem split (goes : Goes state (front ++ back) after events) :
    ∃ later, Goes state front (hooks.run state front).1 (hooks.run state front).2 ∧
      Goes (hooks.run state front).1 back after later ∧
      events = (hooks.run state front).2 ++ later := by
  induction front generalizing state events with
  | nil => exact ⟨events, .nil goes.shortStrings.start, goes, rfl⟩
  | cons c front ih =>
      cases goes with
      | cons sure others =>
          obtain ⟨later, here, behind, rfl⟩ := ih others
          refine ⟨later, ?_, behind, ?_⟩
          · rw [hooks.run_cons]
            exact .cons sure here
          · rw [hooks.run_cons, List.append_assoc]

/-- A turn at a sure byte is careful. -/
theorem careful {loop : PushLoop} {c : UInt8} (sure : Sure state c) (follows : Follows loop state) :
    loop.Careful c := by
  constructor
  · intro gives
    rw [follows.parserState] at gives
    have none := follows.pending
    rw [sure.kept gives] at none
    exact (List.append_eq_nil_iff.mp none).1
  · intro open_
    rw [follows.parserState] at open_
    exact absurd open_ (not_or.mpr sure.closed)

/-- Bytes that are passed over are careful. -/
theorem careful_skip {vt : VTerm} {stringStart : Option (List UInt8)}
    (normal : vt.parserState = .normal) (text : List UInt8)
    (careful : CarefulLoop ⟨vt, stringStart, 0⟩ back) :
    CarefulLoop ⟨vt, stringStart, text.length⟩ (text ++ back) := by
  induction text with
  | nil => exact careful
  | cons b text ih =>
      refine ⟨⟨fun gives => ?_, fun open_ => ?_⟩, fun next member => ?_⟩
      · rw [normal] at gives
        cases gives
      · rw [normal] at open_
        rcases open_ with same | same <;> cases same
      · obtain rfl := Option.some.inj member
        exact ih

theorem fits_skip {vt : VTerm} {stringStart : Option (List UInt8)} (text : List UInt8)
    (fits : FitsLoop ⟨vt, stringStart, 0⟩ back) :
    FitsLoop ⟨vt, stringStart, text.length⟩ (text ++ back) := by
  induction text with
  | nil => exact fits
  | cons b text ih =>
      refine ⟨fun ready => absurd ready (Nat.succ_ne_zero _), fun next member => ?_⟩
      obtain rfl := Option.some.inj member
      exact ih

/-- A run of text in front of bytes over which the hooks go on. -/
structure TextTurn (loop : PushLoop) (c : UInt8) (rest text behind : List UInt8)
    (after : HookState) (events later : List HookEvent) : Prop where
  split : rest = text ++ behind
  taken : c :: text = (c :: rest).takeWhile (loop.vt.encodings.used (c :: rest)).enc.takes
  turned : pushByte loop c rest =
    some (⟨loop.vt.readText (c :: rest), loop.stringStart, text.length⟩, [.text (c :: text)])
  follows : Follows ⟨loop.vt.readText (c :: rest), loop.stringStart, 0⟩ ⟨.normal, [], true⟩
  goes : Goes ⟨.normal, [], true⟩ behind after later
  events : events = (c :: text).map (fun b => .text [b]) ++ later

/-- A byte that is no text in front of bytes over which the hooks go on. -/
structure OtherTurn (loop next : PushLoop) (c : UInt8) (rest : List UInt8) (state after : HookState)
    (called events later : List HookEvent) : Prop where
  noText : loop.vt.parserState = .normal → c < 0x20
  turned : pushByte loop c rest = some (next, called)
  follows : Follows next (hooks.step state c).1
  goes : Goes (hooks.step state c).1 rest after later
  events : events = (hooks.step state c).2 ++ later

/-- The loop takes a run of text or a byte that is no text. -/
theorem turn {loop : PushLoop} {c : UInt8} {rest : List UInt8}
    (goes : Goes state (c :: rest) after events) (follows : Follows loop state)
    (fits : loop.Fits c rest) :
    (∃ text behind later, TextTurn loop c rest text behind after events later) ∨
      ∃ next called later, OtherTurn loop next c rest state after called events later := by
  cases goes with
  | @cons _ _ _ _ later sure others =>
      by_cases text : state.parserState = .normal ∧ 0x20 ≤ c
      · obtain ⟨normal, printable⟩ := text
        have parserState := follows.parserState.trans normal
        obtain ⟨text, behind, rfl, taken, stepped, above, -⟩ := follows.pushByte_text normal c rest
          printable sure.noDel (fits follows.skip parserState ⟨printable, sure.noDel⟩)
        obtain ⟨kind, pending, inText⟩ := state
        obtain rfl : kind = .normal := normal
        obtain rfl : pending = [] := follows.normal rfl
        have step := hooks_step_text inText c printable fun del => absurd del sure.noDel
        rw [step] at others ⊢
        obtain ⟨rest, -, behindGoes, whole⟩ := others.split
        rw [hooks_run_text text above] at behindGoes whole
        exact .inl ⟨text, behind, rest, rfl, taken, stepped, follows.readText _, behindGoes,
          by rw [whole]; rfl⟩
      · have low : state.parserState = .normal → c < 0x20 := fun normal =>
          UInt8.not_le.mp fun printable => text ⟨normal, printable⟩
        obtain ⟨next, called, stepped, followed, -⟩ := follows.turn c rest (careful sure follows)
          sure.short (fun del => absurd del sure.noDel) fun normal => .inl (low normal)
        exact .inr ⟨next, called, later, follows.parserState ▸ low, stepped, followed, others, rfl⟩

/-- **The turns over sure bytes are careful.** -/
theorem carefulLoop {loop : PushLoop} (goes : Goes state bytes after events)
    (follows : Follows loop state) (fits : FitsLoop loop bytes) : CarefulLoop loop bytes := by
  induction size : bytes.length using Nat.strong_induction_on
    generalizing loop state bytes events with
  | _ count ih =>
  cases bytes with
  | nil => trivial
  | cons c rest =>
      have here : loop.Careful c := by
        cases goes with
        | cons sure => exact careful sure follows
      obtain ⟨text, behind, later, turn⟩ | ⟨next, called, later, turn⟩ := goes.turn follows fits.1
      · obtain ⟨rfl, -, turned, followed, goesOn, -⟩ := turn
        refine ⟨here, fun next member => ?_⟩
        rw [turned] at member
        obtain rfl := Option.some.inj member
        refine careful_skip followed.parserState text (ih behind.length ?_ goesOn followed
          (fitsLoop_skip _ _ _ _ (fits.2 _ turned)) rfl)
        rw [← size, List.length_cons, List.length_append]
        omega
      · refine ⟨here, fun other member => ?_⟩
        rw [turn.turned] at member
        obtain rfl := Option.some.inj member
        exact ih rest.length (by rw [← size, List.length_cons]; exact Nat.lt_succ_self _)
          turn.goes turn.follows (fits.2 _ turn.turned) rfl

theorem cleanRead {vt : VTerm} (goes : Goes state bytes after events) (between : Between vt state)
    (fits : FitsLoop (readStart vt) bytes) : CleanRead vt state bytes := by
  refine ⟨fun del => ?_, goes.carefulLoop between.readStart fits, fits⟩
  cases goes with
  | nil => cases del
  | cons sure others => exact absurd (Option.some.inj del) sure.noDel

/-- **Every cut is clean**, over which the array of `on_text` is not overrun. -/
theorem cleanReads {vt : VTerm} {reads : List (List UInt8)}
    (goes : Goes state reads.flatten after events) (between : Between vt state)
    (fits : ReadsFit vt reads) : CleanReads vt state reads := by
  induction reads generalizing vt state events with
  | nil => trivial
  | cons chunk reads ih =>
      rw [List.flatten_cons] at goes
      obtain ⟨later, here, behind, -⟩ := goes.split
      have clean := here.cleanRead between fits.1
      refine ⟨clean, fun next member => ?_⟩
      obtain ⟨reached, called, pushed, held, -⟩ :=
        vtermPushBytes_agrees vt state chunk between here.shortStrings clean
      have others := fits.2 next member
      rw [pushed] at member
      obtain rfl := Option.some.inj member
      exact ih behind held others

/-- Over text that is ASCII, idle decoders stay idle. -/
theorem fitsLoop {loop : PushLoop} (goes : Goes state bytes after events)
    (follows : Follows loop state) (idle : loop.vt.encodings.Idle)
    (ascii : ∀ b, .text [b] ∈ events → b < 0x80) :
    FitsLoop loop bytes ∧ ∀ last ∈ pushLoop loop bytes, last.1.vt.encodings.Idle := by
  induction size : bytes.length using Nat.strong_induction_on
    generalizing loop state bytes events with
  | _ count ih =>
  cases bytes with
  | nil =>
      refine ⟨trivial, fun last member => ?_⟩
      obtain rfl := Option.some.inj member
      exact idle
  | cons c rest =>
      have here : loop.Fits c rest := fun _ _ _ => idle.not_overruns _
      obtain ⟨text, behind, later, turn⟩ | ⟨next, called, later, turn⟩ := goes.turn follows here
      · obtain ⟨rfl, taken, turned, followed, goesOn, rfl⟩ := turn
        have low : ∀ b ∈ c :: text, b < 0x80 := fun b member =>
          ascii b (List.mem_append_left _ (List.mem_map_of_mem member))
        rw [taken] at low
        obtain ⟨fits, ends⟩ := ih behind.length
          (by rw [← size, List.length_cons, List.length_append]; omega) goesOn followed
          (idle.decodeBytes _ low) (fun b member => ascii b (List.mem_append_right _ member)) rfl
        refine ⟨⟨here, fun next member => ?_⟩, fun last member => ?_⟩
        · rw [turned] at member
          obtain rfl := Option.some.inj member
          exact fits_skip text fits
        · rw [pushLoop_cons turned, pushLoop_skip] at member
          obtain ⟨reached, pushed, rfl⟩ := Option.map_eq_some_iff.mp member
          exact ends reached pushed
      · obtain ⟨noText, turned, followed, goesOn, rfl⟩ := turn
        have stays := (pushByte_makes turned).idle idle (pushByteCalls_noText noText rest)
        obtain ⟨fits, ends⟩ := ih rest.length
          (by rw [← size, List.length_cons]; exact Nat.lt_succ_self _) goesOn followed stays
          (fun b member => ascii b (List.mem_append_right _ member)) rfl
        refine ⟨⟨here, fun next member => ?_⟩, fun last member => ?_⟩
        · rw [turned] at member
          obtain rfl := Option.some.inj member
          exact fits
        · rw [pushLoop_cons turned] at member
          obtain ⟨reached, pushed, rfl⟩ := Option.map_eq_some_iff.mp member
          exact ends reached pushed

/-- **Text that is ASCII fits**, wherever it is cut. -/
theorem readsFit {vt : VTerm} {reads : List (List UInt8)}
    (goes : Goes state reads.flatten after events) (between : Between vt state)
    (idle : vt.encodings.Idle) (ascii : ∀ b, .text [b] ∈ events → b < 0x80) :
    ReadsFit vt reads := by
  induction reads generalizing vt state events with
  | nil => trivial
  | cons chunk reads ih =>
      rw [List.flatten_cons] at goes
      obtain ⟨later, here, behind, rfl⟩ := goes.split
      have start : (readStart vt).vt.encodings.Idle := idle
      obtain ⟨fits, ends⟩ := here.fitsLoop between.readStart start
        fun b member => ascii b (List.mem_append_left _ member)
      refine ⟨fits, fun next member => ?_⟩
      obtain ⟨reached, called, pushed, held, -⟩ :=
        vtermPushBytes_agrees vt state chunk between here.shortStrings (here.cleanRead between fits)
      obtain ⟨last, looped, rfl⟩ := Option.map_eq_some_iff.mp member
      rw [vtermPushBytes, looped, Option.map_some] at pushed
      obtain rfl := (Prod.mk.inj (Option.some.inj pushed)).1
      exact ih behind held (ends last looped) fun b member => ascii b (List.mem_append_right _ member)

end Goes

end Hackterm
