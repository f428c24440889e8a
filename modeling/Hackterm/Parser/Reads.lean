import Hackterm.Parser.Turn

/-! # The parser over reads

Where every turn of the loop over a read is careful (`Hackterm.CarefulLoop`) and the array
of `on_text` is not overrun in it (`Hackterm.FitsLoop`), the read makes the calls of the
machine that keeps the whole string (`Hackterm.pushLoop_agrees`,
`Hackterm.vtermPushBytes_agrees`). Two ways of cutting a stream into such reads therefore
make the same calls (`Hackterm.hooks_cut_independent`). A cut in a string that is given up
later breaks this (`Hackterm.hooks_cut_dependent`).
-/

namespace Hackterm

/-- What `on_text` leaves and takes where its array is not overrun. -/
theorem onText_eq {vt : VTerm} {bytes : List UInt8} (fits : ¬ vt.encodings.Overruns bytes) :
    onText vt bytes =
      some ({ vt with encodings := (decodeBytes vt.encodings bytes).1 },
        (bytes.takeWhile (vt.encodings.used bytes).enc.takes).length) := by
  have eaten : (decodeBytes vt.encodings bytes).2.2 = _ :=
    congrArg Prod.snd (decodeBytes_codepoints vt.encodings bytes)
  rw [onText, decodeText_of_not_overruns fits, Option.map_some]
  dsimp only
  rw [eaten]

/-- A byte that is no control and no DEL reaches the `switch`. -/
theorem pushByte_printable (loop : PushLoop) (c : UInt8) (rest : List UInt8)
    (ready : loop.skip = 0) (printable : 0x20 ≤ c) (noDel : c ≠ 0x7F) :
    pushByte loop c rest = loop.switchByte c rest := by
  have other : ∀ low : UInt8, low < 0x20 → c ≠ low := fun low below same =>
    absurd (same ▸ printable) (UInt8.not_le.mpr below)
  have noControl : isControl loop.vt.parserState c = false := by
    simp [isControl, UInt8.not_lt.mpr printable]
  simp only [pushByte, ready, noControl, noDel, other 0x00 (by decide), other 0x18 (by decide),
    other 0x1A (by decide), other 0x1B (by decide), or_self, ↓reduceIte, Bool.false_eq_true]

/-- What a call for text leaves of the terminal. -/
def VTerm.readText (bytes : List UInt8) (vt : VTerm) : VTerm :=
  { vt.clearStrbuffer with encodings := (decodeBytes vt.encodings bytes).1 }

/-- A turn at a byte of text takes a run of bytes that are no controls and ends neither
before the first one nor in front of a DEL. -/
theorem Follows.pushByte_text {loop : PushLoop} {state : HookState} (follows : Follows loop state)
    (normal : state.parserState = .normal) (c : UInt8) (rest : List UInt8)
    (printable : 0x20 ≤ c) (noDel : c ≠ 0x7F) (fits : ¬ loop.vt.encodings.Overruns (c :: rest)) :
    ∃ text behind, rest = text ++ behind ∧
      c :: text = (c :: rest).takeWhile (loop.vt.encodings.used (c :: rest)).enc.takes ∧
      pushByte loop c rest =
        some (⟨loop.vt.readText (c :: rest), loop.stringStart, text.length⟩, [.text (c :: text)]) ∧
      (∀ b ∈ text, 0x20 ≤ b) ∧ behind.head? ≠ some 0x7F := by
  obtain ⟨saved, none⟩ := follows.saved_of_normal normal
  have eaten := @onText_eq loop.vt.clearStrbuffer (c :: rest) fits
  have first := loop.vt.encodings.used_takes rest printable
  change onText _ _ = some (loop.vt.readText (c :: rest),
    ((c :: rest).takeWhile (loop.vt.encodings.used (c :: rest)).enc.takes).length) at eaten
  generalize (loop.vt.encodings.used (c :: rest)).enc = encoding at eaten first ⊢
  have run : (c :: rest).takeWhile encoding.takes = c :: rest.takeWhile encoding.takes :=
    List.takeWhile_cons_of_pos first
  refine ⟨rest.takeWhile encoding.takes, rest.dropWhile encoding.takes,
    List.takeWhile_append_dropWhile.symm, run.symm, ?_, ?_, ?_⟩
  · rw [pushByte_printable loop c rest follows.skip printable noDel, PushLoop.switchByte,
      follows.parserState, normal]
    have cleared : loop.vt.clearStrbuffer.parserState = .normal := follows.parserState.trans normal
    have taken : (c :: rest).take (c :: rest.takeWhile encoding.takes).length =
        c :: rest.takeWhile encoding.takes := by
      exact (List.prefix_iff_eq_take.mp (run ▸ List.takeWhile_prefix encoding.takes)).symm
    rw [run] at eaten
    simp only [PushLoop.textByte, doString, saved, ↓reduceIte, cleared, eaten, Option.map_some,
      taken]
    simp
  · intro b member
    exact VTermEncoding.visible_of_takes (List.mem_takeWhile_imp member)
  · intro stops
    have refused := List.head?_dropWhile_not encoding.takes rest
    rw [stops] at refused
    exact absurd refused (by simp [encoding.takes_del])

theorem hooks_step_text (inText : Bool) (c : UInt8) (printable : 0x20 ≤ c)
    (text : c = 0x7F → inText = true) :
    hooks.step ⟨.normal, [], inText⟩ c = (⟨.normal, [], true⟩, [.text [c]]) := by
  have other : ∀ low : UInt8, low < 0x20 → c ≠ low := fun low below same =>
    absurd (same ▸ printable) (UInt8.not_le.mpr below)
  have noControl : isControl .normal c = false := by
    simp [isControl, UInt8.not_lt.mpr printable]
  by_cases del : c = 0x7F
  · simp [hooks, del, text del]
  · simp only [hooks, del, noControl, other 0x00 (by decide), other 0x18 (by decide),
      other 0x1A (by decide), other 0x1B (by decide), or_self, false_and, ↓reduceIte,
      Bool.false_eq_true, hookByte]

/-- Bytes behind text that are no controls are text, a DEL among them too. -/
theorem hooks_run_text (text : List UInt8) (printable : ∀ b ∈ text, 0x20 ≤ b) :
    hooks.run ⟨.normal, [], true⟩ text = (⟨.normal, [], true⟩, text.map fun b => .text [b]) := by
  induction text with
  | nil => rfl
  | cons b text ih =>
      obtain ⟨first, others⟩ := List.forall_mem_cons.mp printable
      rw [hooks.run_cons, hooks_step_text true b first fun _ => rfl, ih others]
      rfl

/-- All turns of the loop over the bytes are careful. -/
def CarefulLoop : PushLoop → List UInt8 → Prop
  | _, [] => True
  | loop, c :: rest =>
      loop.Careful c ∧ ∀ next ∈ pushByte loop c rest, CarefulLoop next.1 rest

instance decidableCarefulLoop : (loop : PushLoop) → (bytes : List UInt8) →
    Decidable (CarefulLoop loop bytes)
  | _, [] => .isTrue trivial
  | _, _ :: rest =>
      have : ∀ next, Decidable (CarefulLoop next rest) := fun next => decidableCarefulLoop next rest
      inferInstanceAs (Decidable (_ ∧ _))

/-- The array of `on_text` is not overrun at the byte. -/
def PushLoop.Fits (loop : PushLoop) (c : UInt8) (rest : List UInt8) : Prop :=
  loop.skip = 0 → loop.vt.parserState = .normal → 0x20 ≤ c ∧ c ≠ 0x7F →
    ¬ loop.vt.encodings.Overruns (c :: rest)

instance (loop : PushLoop) (c : UInt8) (rest : List UInt8) : Decidable (loop.Fits c rest) :=
  inferInstanceAs (Decidable (_ → _))

/-- The array of `on_text` is not overrun in the loop over the bytes. -/
def FitsLoop : PushLoop → List UInt8 → Prop
  | _, [] => True
  | loop, c :: rest => loop.Fits c rest ∧ ∀ next ∈ pushByte loop c rest, FitsLoop next.1 rest

instance decidableFitsLoop : (loop : PushLoop) → (bytes : List UInt8) →
    Decidable (FitsLoop loop bytes)
  | _, [] => .isTrue trivial
  | _, _ :: rest =>
      have : ∀ next, Decidable (FitsLoop next rest) := fun next => decidableFitsLoop next rest
      inferInstanceAs (Decidable (_ ∧ _))

theorem pushLoop_cons {loop next : PushLoop} {c : UInt8} {rest : List UInt8}
    {events : List HookEvent} (turned : pushByte loop c rest = some (next, events)) :
    pushLoop loop (c :: rest) =
      (pushLoop next rest).map fun (last, later) => (last, events ++ later) := by
  rw [pushLoop, turned, Option.bind_some]

/-- Bytes that were taken as text already are passed over. -/
theorem pushLoop_skip (vt : VTerm) (stringStart : Option (List UInt8)) (text behind : List UInt8) :
    pushLoop ⟨vt, stringStart, text.length⟩ (text ++ behind) =
      pushLoop ⟨vt, stringStart, 0⟩ behind := by
  induction text with
  | nil => rfl
  | cons b text ih =>
      rw [List.cons_append, List.length_cons, pushLoop_cons rfl, ih]
      cases pushLoop ⟨vt, stringStart, 0⟩ behind <;> rfl

theorem carefulLoop_skip (vt : VTerm) (stringStart : Option (List UInt8))
    (text behind : List UInt8)
    (careful : CarefulLoop ⟨vt, stringStart, text.length⟩ (text ++ behind)) :
    CarefulLoop ⟨vt, stringStart, 0⟩ behind := by
  induction text with
  | nil => exact careful
  | cons b text ih => exact ih (careful.2 _ rfl)

theorem fitsLoop_skip (vt : VTerm) (stringStart : Option (List UInt8)) (text behind : List UInt8)
    (fits : FitsLoop ⟨vt, stringStart, text.length⟩ (text ++ behind)) :
    FitsLoop ⟨vt, stringStart, 0⟩ behind := by
  induction text with
  | nil => exact fits
  | cons b text ih => exact ih (fits.2 _ rfl)

theorem shortStrings_append {state : HookState} {front back : List UInt8}
    (short : ShortStrings state (front ++ back)) :
    ShortStrings state front ∧ ShortStrings (hooks.run state front).1 back := by
  induction front generalizing state with
  | nil => exact ⟨by cases back with | nil => exact short | cons => exact short.1, short⟩
  | cons c front ih =>
      obtain ⟨here, later⟩ := short
      exact ⟨⟨here, (ih later).1⟩, (ih later).2⟩

theorem ShortStrings.start {state : HookState} {bytes : List UInt8}
    (short : ShortStrings state bytes) : state.string.length < strbufferLen := by
  cases bytes with
  | nil => exact short
  | cons c rest => exact short.1

/-- What follows a turn that agrees. -/
theorem agrees_cons {loop : PushLoop} {state : HookState} {c : UInt8} {rest : List UInt8}
    (turned : Agrees (pushByte loop c rest) (hooks.step state c))
    (later : ∀ next events, pushByte loop c rest = some (next, events) →
      Follows next (hooks.step state c).1 →
      Agrees (pushLoop next rest) (hooks.run (hooks.step state c).1 rest)) :
    Agrees (pushLoop loop (c :: rest)) (hooks.run state (c :: rest)) := by
  obtain ⟨next, events, stepped, follows, same⟩ := turned
  obtain ⟨last, others, ran, reached, rest_same⟩ := later next events stepped follows
  refine ⟨last, events ++ others, ?_, reached, ?_⟩
  · rw [pushLoop_cons stepped, ran, Option.map_some]
  · rw [spreadAll_append, same, rest_same, hooks.run_cons]

theorem hookEscByte_inText (c : UInt8) (pending : List UInt8) :
    (hookEscByte c pending).1.inText = false := by
  unfold hookEscByte
  split_ifs <;> rfl

/-- Only text leaves the machine behind text. -/
theorem hooks_step_inText {state : HookState} {c : UInt8} (noText : c = 0x7F → state.inText = false)
    (string : state.parserState = .normal → c < 0x20 ∨ c = 0x7F) :
    (hooks.step state c).1.inText = false := by
  simp only [hooks]
  split_ifs with between nul cancel esc control
  · exact noText between.1
  · rfl
  · rfl
  · unfold hookEscape
    split <;> rfl
  · rfl
  · unfold hookByte
    split
    case h_7 normal =>
      rcases string normal with low | del
      · simp [isControl, normal, low] at control
      · exact absurd (.inr del) nul
    case h_3 => exact hookEscByte_inText c state.pending
    all_goals split_ifs <;> first | rfl | exact hookEscByte_inText c _

/-- The calls for a run of text and for what follows it. -/
theorem agrees_text {loop : PushLoop} {c : UInt8} {text behind : List UInt8} {inText : Bool}
    (next : PushLoop)
    (stepped : pushByte loop c (text ++ behind) =
      some ({ next with skip := text.length }, [.text (c :: text)]))
    (first : 0x20 ≤ c) (noDel : c ≠ 0x7F) (others : ∀ b ∈ text, 0x20 ≤ b)
    (ready : next.skip = 0)
    (later : Agrees (pushLoop next behind) (hooks.run ⟨.normal, [], true⟩ behind)) :
    Agrees (pushLoop loop (c :: (text ++ behind)))
      (hooks.run ⟨.normal, [], inText⟩ (c :: (text ++ behind))) := by
  obtain ⟨last, events, ran, reached, same⟩ := later
  obtain ⟨vt, stringStart, skip⟩ := next
  obtain rfl : skip = 0 := ready
  rw [hooks.run_cons, hooks_step_text inText c first fun del => absurd del noDel,
    hooks.run_append, hooks_run_text text others]
  refine ⟨last, .text (c :: text) :: events, ?_, reached, ?_⟩
  · rw [pushLoop_cons stepped, pushLoop_skip, ran]
    rfl
  · rw [← same]
    rfl

/-- A call for text leaves no string behind. -/
theorem Follows.readText {loop : PushLoop} {inText : Bool}
    (follows : Follows loop ⟨.normal, [], inText⟩) (bytes : List UInt8) :
    Follows ⟨loop.vt.readText bytes, loop.stringStart, 0⟩ ⟨.normal, [], true⟩ := by
  obtain ⟨saved, none⟩ := follows.saved_of_normal rfl
  exact ⟨follows.parserState, none, fun _ => rfl, by simp, rfl⟩

/-- **A read.** Let the turns of the loop be careful, let the array of `on_text` not be
overrun, and let the read not begin with a DEL behind text. Then the loop makes the calls
that the machine for the whole string makes. -/
theorem pushLoop_agrees (loop : PushLoop) (state : HookState) (bytes : List UInt8)
    (follows : Follows loop state) (careful : CarefulLoop loop bytes)
    (fits : FitsLoop loop bytes) (short : ShortStrings state bytes)
    (noText : bytes.head? = some 0x7F → state.inText = false) :
    Agrees (pushLoop loop bytes) (hooks.run state bytes) := by
  match bytes with
  | [] => exact agrees_of_follows follows
  | c :: rest =>
      by_cases text : state.parserState = .normal ∧ 0x20 ≤ c ∧ c ≠ 0x7F
      · obtain ⟨normal, first, noDel⟩ := text
        obtain ⟨text, behind, rfl, -, stepped, others, stops⟩ := follows.pushByte_text normal c
          rest first noDel (fits.1 follows.skip (follows.parserState.trans normal) ⟨first, noDel⟩)
        obtain ⟨parserState, pending, inText⟩ := state
        obtain rfl : parserState = .normal := normal
        obtain rfl : pending = [] := follows.normal rfl
        have step : (hooks.step ⟨.normal, [], inText⟩ c).1 = ⟨.normal, [], true⟩ := by
          rw [hooks_step_text inText c first fun del => absurd del noDel]
        have run := (shortStrings_append short.2).2
        rw [step, hooks_run_text text others] at run
        apply agrees_text ⟨loop.vt.readText (c :: (text ++ behind)), loop.stringStart, 0⟩ stepped
          first noDel others rfl
        apply pushLoop_agrees _ _ behind (follows.readText _)
          (carefulLoop_skip _ _ _ _ (careful.2 _ stepped))
          (fitsLoop_skip _ _ _ _ (fits.2 _ stepped)) run
        exact fun del => absurd del stops
      · have string : state.parserState = .normal → c < 0x20 ∨ c = 0x7F := by
          intro normal
          by_cases low : c < 0x20
          · exact .inl low
          · exact .inr (not_not.mp fun noDel => text ⟨normal, UInt8.not_lt.mp low, noDel⟩)
        have notDel : c = 0x7F → state.inText = false := fun del => noText (congrArg some del)
        apply agrees_cons (follows.turn c rest careful.1 short.1 notDel string)
        intro next events stepped followed
        apply pushLoop_agrees next _ rest followed (careful.2 _ stepped) (fits.2 _ stepped) short.2
        exact fun _ => hooks_step_inText notDel string
termination_by bytes.length

theorem shortStrings_run {state : HookState} {bytes : List UInt8}
    (short : ShortStrings state bytes) :
    (hooks.run state bytes).1.string.length < strbufferLen := by
  rw [← List.append_nil bytes] at short
  exact (shortStrings_append short).2

/-- Between two reads the whole string is saved. -/
def Between (vt : VTerm) (state : HookState) : Prop := Follows ⟨vt, none, 0⟩ state

theorem Between.readStart {vt : VTerm} {state : HookState} (between : Between vt state) :
    Follows (readStart vt) state := by
  refine ⟨between.parserState, ?_, between.normal, between.noNul, rfl⟩
  rw [← between.pending]
  unfold Hackterm.readStart
  split_ifs <;> rfl

/-- A read does not begin with a DEL behind text, the turns of the loop over it are careful,
and the array of `on_text` is not overrun. -/
def CleanRead (vt : VTerm) (state : HookState) (bytes : List UInt8) : Prop :=
  (bytes.head? = some 0x7F → state.inText = false) ∧ CarefulLoop (readStart vt) bytes ∧
    FitsLoop (readStart vt) bytes

instance (vt : VTerm) (state : HookState) (bytes : List UInt8) :
    Decidable (CleanRead vt state bytes) :=
  inferInstanceAs (Decidable (_ ∧ _))

/-- A call of `vterm_push_bytes` makes the calls of the machine for the whole string. -/
theorem vtermPushBytes_agrees (vt : VTerm) (state : HookState) (bytes : List UInt8)
    (between : Between vt state) (short : ShortStrings state bytes)
    (clean : CleanRead vt state bytes) :
    ∃ next events, vtermPushBytes vt bytes = some (next, events) ∧
      Between next (hooks.run state bytes).1 ∧ spreadAll events = (hooks.run state bytes).2 := by
  obtain ⟨loop, events, ran, follows, same⟩ :=
    pushLoop_agrees (readStart vt) state bytes between.readStart clean.2.1 clean.2.2 short clean.1
  refine ⟨appendStrbuffer loop.fragment loop.vt, events, ?_, ?_, same⟩
  · rw [vtermPushBytes, ran, Option.map_some]
  · have fits := (hooks.run state bytes).1.pending_length_le.trans (shortStrings_run short)
    rw [← follows.pending] at fits
    rw [appendStrbuffer_eq fits follows.noNul_fragment]
    refine ⟨follows.parserState, ?_, follows.normal, follows.noNul, rfl⟩
    rw [← follows.pending]
    exact List.append_nil _

/-- Hand the reads to the parser one by one, and collect the calls of the hooks. -/
def pushReads (vt : VTerm) (reads : List (List UInt8)) : Option (VTerm × List HookEvent) :=
  (Streaming.feed vtermPushBytes vt reads).map fun (last, calls) => (last, calls.flatten)

/-- Every read of a run is clean. -/
def CleanReads (vt : VTerm) (state : HookState) (reads : List (List UInt8)) : Prop :=
  Streaming.EveryPiece hooks vtermPushBytes CleanRead vt state reads

instance (vt : VTerm) (state : HookState) (reads : List (List UInt8)) :
    Decidable (CleanReads vt state reads) :=
  inferInstanceAs (Decidable (Streaming.EveryPiece ..))

theorem spreadAll_flatten (calls : List (List HookEvent)) :
    spreadAll calls.flatten = (calls.map spreadAll).flatten := by
  induction calls with
  | nil => rfl
  | cons events calls ih => rw [List.flatten_cons, spreadAll_append, ih]; rfl

/-- Clean reads of a stream with short strings make the calls of the machine that takes
the stream uncut. -/
theorem pushReads_eq_hooks (vt : VTerm) (state : HookState) (reads : List (List UInt8))
    (between : Between vt state) (short : ShortStrings state reads.flatten)
    (clean : CleanReads vt state reads) :
    ∃ last events, pushReads vt reads = some (last, events) ∧
      spreadAll events = (hooks.run state reads.flatten).2 := by
  obtain ⟨last, calls, fed, -, -, same⟩ :=
    Streaming.feed_eq_run_of_everyPiece hooks vtermPushBytes Between spreadAll (fun _ => True)
      ShortStrings CleanRead (fun _ _ _ => shortStrings_append)
      (fun vt state bytes between short clean => by
        obtain ⟨next, events, pushed, after, same⟩ :=
          vtermPushBytes_agrees vt state bytes between short clean
        exact ⟨next, events, pushed, trivial, after, same⟩)
      vt state reads between short clean
  refine ⟨last, calls.flatten, ?_, ?_⟩
  · rw [pushReads, fed, Option.map_some]
  · rw [spreadAll_flatten, same]

theorem between_start : Between vtermStart .start :=
  ⟨rfl, rfl, fun _ => rfl, by simp [HookState.start], rfl⟩

/-- The reads `ESC ] 0`, `; t ESC \ h`, `i ESC [ 3` and `1 m`. -/
def titleReads : List (List UInt8) :=
  [[0x1B, 0x5D, 0x30], [0x3B, 0x74, 0x1B, 0x5C, 0x68], [0x69, 0x1B, 0x5B, 0x33], [0x31, 0x6D]]

/-- The bytes E2 C3 41 are text in one read. With a cut behind E2, three code points are made
of the two bytes that follow it. -/
example : (pushReads vtermStart [[0xE2, 0xC3, 0x41]]).map (·.2) =
      some [.text [0xE2, 0xC3, 0x41]] ∧
    (pushReads vtermStart [[0xE2], [0xC3, 0x41]]).isNone = true := by
  decide +kernel

/-- A string terminator that is cut in two makes the length of the string -1. -/
example : (pushReads vtermStart [[0x1B, 0x5D, 0x61, 0x1B], [0x5C]]).isNone = true := by
  decide +kernel

/-- Bytes that are left in `strbuffer` need not show: `ESC [ 0 1 m` has the argument of
`ESC [ 1 m`. -/
example :
    (pushReads vtermStart [[0x1B, 0x5B, 0x30], [0x18, 0x1B, 0x5B, 0x31, 0x6D]]).map (·.2) =
      (pushReads vtermStart [[0x1B, 0x5B, 0x30, 0x18, 0x1B, 0x5B, 0x31, 0x6D]]).map (·.2) := by
  decide +kernel

end Hackterm
