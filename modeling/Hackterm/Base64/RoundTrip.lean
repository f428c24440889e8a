import Hackterm.Base64.Decode
import Hackterm.Base64.Rfc4648

/-! # The decoder computes base64

Once initialised, the table of the decoder is the alphabet of RFC 4648
(`Hackterm.base64Table_eq`). A call on a text whose padding comes last computes
the decoding transducer on it from the unfinished byte of the previous call
(`Hackterm.base64Decode_refines`), so a text with blanks anywhere may be cut
anywhere (`Hackterm.base64_round_trip`). On any text, a call writes at most the
bytes whose bits it has read (`Hackterm.base64Decode_bits`).
-/

namespace Hackterm

open Streaming

/-- The characters the decoder skips: LF, CR and space. -/
def isBlank (char : UInt8) : Bool := char = 0x0A ∨ char = 0x0D ∨ char = 0x20

/-- The characters that carry six bits. -/
def isLetter (char : UInt8) : Bool := (Rfc4648.value? char).isSome

/-- The letters of a text. -/
def letters (text : List UInt8) : Nat := text.countP isLetter

/-- A text of letters and blanks followed by a text of padding and blanks. -/
def WellPadded (text : List UInt8) : Prop :=
  ∃ body tail, text = body ++ tail ∧ (∀ char ∈ body, isLetter char ∨ isBlank char) ∧
    ∀ char ∈ tail, char = Rfc4648.pad ∨ isBlank char

private theorem base64Table_ascii : ∀ code : Fin 128,
    base64Table (UInt8.ofNat code) =
      match Rfc4648.value? (UInt8.ofNat code) with
      | some sextet => sextet
      | none => if code = 0x3D then 0 else -1 := by
  decide +kernel

/-- The initialised table reads the alphabet back, and marks everything else but
the padding character. -/
theorem base64Table_eq (char : UInt8) (ascii : ¬ 0x80 ≤ char) :
    base64Table char =
      match Rfc4648.value? char with
      | some sextet => sextet
      | none => if char = Rfc4648.pad then 0 else -1 := by
  simp only [UInt8.le_iff_toNat_le, UInt8.reduceToNat] at ascii
  have entry := base64Table_ascii ⟨char.toNat, by omega⟩
  rw [UInt8.ofNat_toNat] at entry
  rw [entry]
  have same : ((⟨char.toNat, by omega⟩ : Fin 128) = 0x3D) = (char = Rfc4648.pad) := by
    rw [← UInt8.toNat_inj, Fin.ext_iff]
    rfl
  simp only [same]

theorem isLetter_lt (char : UInt8) (letter : isLetter char) : ¬ 0x80 ≤ char := by
  simp only [isLetter, Rfc4648.value?, UInt8.le_iff_toNat_le, UInt8.reduceToNat] at letter ⊢
  split_ifs at letter with upper lower digit plus slash
  · omega
  · omega
  · omega
  · subst plus; decide
  · subst slash; decide
  · simp at letter

theorem isBlank_not_letter (char : UInt8) (blank : isBlank char) : Rfc4648.value? char = none := by
  simp only [isBlank, Bool.decide_or, Bool.or_eq_true, decide_eq_true_eq] at blank
  rcases blank with rfl | rfl | rfl <;> decide

theorem decoder_step_blank (pending : List Bool) (char : UInt8) (blank : isBlank char) :
    Rfc4648.decoder.step pending char = (pending, []) := by
  have other : char ≠ Rfc4648.pad := by
    rintro rfl
    exact absurd blank (by decide)
  simp only [Rfc4648.decoder, isBlank_not_letter char blank, other, ↓reduceIte]

/-- One letter: its six bits enter, and the call goes on with what follows. -/
theorem base64Decode_takes_letter (st : Base64) (table : st.lookup = base64Table) (char : UInt8)
    (letter : isLetter char) :
    ∃ next : Base64, next.lookup = base64Table ∧
      next.pending = (Rfc4648.decoder.step st.pending char).1 ∧
      ∀ input, base64Decode st (char :: input) = (base64Decode next input).map fun rest =>
        (rest.1, { rest.2 with
          output := (Rfc4648.decoder.step st.pending char).2 ++ rest.2.output }) := by
  obtain ⟨sextet, known⟩ := Option.isSome_iff_exists.mp letter
  obtain ⟨reached, emitted, kept⟩ := base64PushBit_run st (BitString.spell 6 sextet)
  have entry := base64Table_eq char (isLetter_lt char letter)
  rw [known] at entry
  have notBlank : ¬ (char = 0x0A ∨ char = 0x0D ∨ char = 0x20) := by
    intro blank
    rw [isBlank_not_letter char (by simpa [isBlank] using blank)] at known
    cases known
  have notPad : char ≠ 0x3D := by
    rintro rfl
    exact absurd letter (by decide)
  refine ⟨_, kept.trans table, ?_, fun input => ?_⟩
  · rw [reached]
    simp only [Rfc4648.decoder, known]
  · rw [base64Decode, if_neg notBlank, if_neg notPad, if_neg (isLetter_lt char letter)]
    simp only [table, entry, Rfc4648.decoder, known]
    rw [if_neg (by omega), Int.toNat_natCast, emitted]
    rfl

/-- **Letters and blanks.** They leave storage from which the call goes on with whatever
follows them. -/
theorem base64Decode_takes (st : Base64) (table : st.lookup = base64Table) (body : List UInt8)
    (plain : ∀ char ∈ body, isLetter char ∨ isBlank char) :
    ∃ next : Base64, next.lookup = base64Table ∧
      next.pending = (Rfc4648.decoder.run st.pending body).1 ∧
      ∀ rest, base64Decode st (body ++ rest) = (base64Decode next rest).map fun result =>
        (result.1, { result.2 with
          output := (Rfc4648.decoder.run st.pending body).2 ++ result.2.output }) := by
  induction body generalizing st with
  | nil => exact ⟨st, table, rfl, fun rest => by simp⟩
  | cons char body ih =>
      have tailPlain : ∀ other ∈ body, isLetter other ∨ isBlank other :=
        fun other member => plain other (List.mem_cons_of_mem _ member)
      rcases plain char List.mem_cons_self with letter | blank
      · obtain ⟨middle, middleTable, middlePending, step⟩ :=
          base64Decode_takes_letter st table char letter
        obtain ⟨next, nextTable, nextPending, run⟩ := ih middle middleTable tailPlain
        refine ⟨next, nextTable, ?_, fun rest => ?_⟩
        · rw [nextPending, middlePending, Transducer.run_cons]
        · rw [List.cons_append, step, run, Option.map_map, middlePending, Transducer.run_cons]
          simp only [List.append_assoc]
          rfl
      · obtain ⟨next, nextTable, nextPending, run⟩ := ih st table tailPlain
        have skipped : char = 0x0A ∨ char = 0x0D ∨ char = 0x20 := by simpa [isBlank] using blank
        refine ⟨next, nextTable, ?_, fun rest => ?_⟩
        · rw [nextPending, Transducer.run_cons, decoder_step_blank _ _ blank]
        · rw [List.cons_append, base64Decode, if_pos skipped, run, Transducer.run_cons,
            decoder_step_blank _ _ blank]
          rfl

/-- **Cutting after letters and blanks.** A call on a text that begins with
letters and blanks is a call on the rest, from the storage they leave. -/
theorem base64Decode_append (st : Base64) (table : st.lookup = base64Table)
    (body rest : List UInt8) (plain : ∀ char ∈ body, isLetter char ∨ isBlank char) :
    ∃ next : Base64, next.lookup = base64Table ∧
      next.pending = (Rfc4648.decoder.run st.pending body).1 ∧
      base64Decode st (body ++ rest) = (base64Decode next rest).map fun result =>
        (result.1, { result.2 with
          output := (Rfc4648.decoder.run st.pending body).2 ++ result.2.output }) := by
  obtain ⟨next, nextTable, nextPending, run⟩ := base64Decode_takes st table body plain
  exact ⟨next, nextTable, nextPending, run rest⟩

/-- Nothing follows the padding. -/
theorem decoder_run_tail (tail : List UInt8)
    (padded : ∀ char ∈ tail, char = Rfc4648.pad ∨ isBlank char) :
    Rfc4648.decoder.run [] tail = ([], []) := by
  induction tail with
  | nil => rfl
  | cons char tail ih =>
      have here : Rfc4648.decoder.step [] char = ([], []) := by
        rcases padded char List.mem_cons_self with rfl | blank
        · exact Rfc4648.decoder_step_pad []
        · exact decoder_step_blank [] char blank
      rw [Transducer.run_cons, here, ih fun other member => padded other
        (List.mem_cons_of_mem _ member)]
      rfl

/-- Padding and blanks only drop the unfinished byte. -/
theorem base64Decode_tail (st : Base64) (tail : List UInt8)
    (padded : ∀ char ∈ tail, char = Rfc4648.pad ∨ isBlank char) :
    ∃ next : Base64, next.lookup = st.lookup ∧
      next.pending = (Rfc4648.decoder.run st.pending tail).1 ∧
      base64Decode st tail = some (next, ⟨(Rfc4648.decoder.run st.pending tail).2, false⟩) := by
  induction tail with
  | nil => exact ⟨st, rfl, rfl, rfl⟩
  | cons char tail ih =>
      have tailPadded : ∀ other ∈ tail, other = Rfc4648.pad ∨ isBlank other :=
        fun other member => padded other (List.mem_cons_of_mem _ member)
      rcases padded char List.mem_cons_self with rfl | blank
      · refine ⟨{ st with bitPos := 0 }, rfl, ?_, ?_⟩
        · rw [pending_reset, Transducer.run_cons, Rfc4648.decoder_step_pad,
            decoder_run_tail _ tailPadded]
        · rw [Transducer.run_cons, Rfc4648.decoder_step_pad, decoder_run_tail _ tailPadded]
          rfl
      · obtain ⟨next, kept, reached, run⟩ := ih tailPadded
        have skipped : char = 0x0A ∨ char = 0x0D ∨ char = 0x20 := by simpa [isBlank] using blank
        refine ⟨next, kept, ?_, ?_⟩
        · rw [reached, Transducer.run_cons, decoder_step_blank _ _ blank]
        · rw [base64Decode, if_pos skipped, run, Transducer.run_cons, decoder_step_blank _ _ blank]
          rfl

/-- A call on a well padded text computes the decoding transducer. -/
theorem base64Decode_refines (st : Base64) (table : st.lookup = base64Table) (text : List UInt8)
    (padded : WellPadded text) :
    ∃ next : Base64, next.lookup = base64Table ∧
      next.pending = (Rfc4648.decoder.run st.pending text).1 ∧
      base64Decode st text = some (next, ⟨(Rfc4648.decoder.run st.pending text).2, false⟩) := by
  obtain ⟨body, tail, rfl, plain, closing⟩ := padded
  obtain ⟨middle, middleTable, middlePending, front⟩ := base64Decode_append st table body tail plain
  obtain ⟨next, kept, reached, back⟩ := base64Decode_tail middle tail closing
  refine ⟨next, kept.trans middleTable, ?_, ?_⟩
  · rw [reached, middlePending, Transducer.run_append]
  · rw [front, back, Transducer.run_append, middlePending]
    rfl

/-- Pieces of a well padded text are well padded. -/
theorem WellPadded.of_append {front back : List UInt8} (padded : WellPadded (front ++ back)) :
    WellPadded front ∧ WellPadded back := by
  obtain ⟨body, tail, split, plain, closing⟩ := padded
  rcases List.append_eq_append_iff.mp split with ⟨middle, rfl, rfl⟩ | ⟨middle, rfl, rfl⟩
  · refine ⟨⟨front, [], by simp, fun char member => plain char (List.mem_append_left _ member),
      by simp⟩, ⟨middle, tail, rfl, fun char member => plain char
        (List.mem_append_right _ member), closing⟩⟩
  · refine ⟨⟨body, middle, rfl, plain, fun char member => closing char
      (List.mem_append_left _ member)⟩, ⟨[], back, rfl, by simp, fun char member => closing char
        (List.mem_append_right _ member)⟩⟩

theorem isLetter_letter (sextet : Nat) (small : sextet < 64) : isLetter (Rfc4648.letter sextet) := by
  simp only [isLetter, Rfc4648.value?_letter sextet small, Option.isSome_some]

/-- A text is well padded when it is so up to blanks. -/
theorem WellPadded.of_filter (text : List UInt8)
    (padded : WellPadded (text.filter fun char => !isBlank char)) : WellPadded text := by
  induction text with
  | nil => exact ⟨[], [], rfl, by simp, by simp⟩
  | cons char text ih =>
      by_cases blank : isBlank char
      · rw [List.filter_cons_of_neg (by simp [blank])] at padded
        obtain ⟨body, tail, rfl, plain, closing⟩ := ih padded
        refine ⟨char :: body, tail, rfl, ?_, closing⟩
        intro other member
        rcases List.mem_cons.mp member with rfl | later
        · exact Or.inr blank
        · exact plain other later
      · rw [List.filter_cons_of_pos (by simp [blank])] at padded
        obtain ⟨body, tail, split, plain, closing⟩ := padded
        cases body with
        | nil =>
            rw [List.nil_append] at split
            have allClosing : ∀ other ∈ char :: text, other = Rfc4648.pad ∨ isBlank other := by
              intro other member
              by_cases otherBlank : isBlank other
              · exact Or.inr otherBlank
              · apply closing
                rw [← split]
                rcases List.mem_cons.mp member with rfl | later
                · exact List.mem_cons_self
                · exact List.mem_cons_of_mem _ (List.mem_filter.mpr ⟨later, by simp [otherBlank]⟩)
            exact ⟨[], char :: text, rfl, by simp, allClosing⟩
        | cons first body =>
            rw [List.cons_append, List.cons.injEq] at split
            obtain ⟨rfl, split⟩ := split
            obtain ⟨front, back, rfl, frontPlain, backClosing⟩ := ih ⟨body, tail, split,
              fun other member => plain other (List.mem_cons_of_mem _ member), closing⟩
            refine ⟨char :: front, back, rfl, ?_, backClosing⟩
            intro other member
            rcases List.mem_cons.mp member with rfl | later
            · exact plain other List.mem_cons_self
            · exact frontPlain other later

theorem wellPadded_encode (octets : List UInt8) : WellPadded (Rfc4648.encode octets) := by
  refine ⟨_, _, rfl, ?_, ?_⟩
  · intro char member
    obtain ⟨sextet, inside, rfl⟩ := List.mem_map.mp member
    exact Or.inl (isLetter_letter sextet (Rfc4648.sextets_lt octets sextet inside))
  · intro char member
    exact Or.inl (List.eq_of_mem_replicate member)

/-- **Streaming round trip.** Initialise the decoder and hand it the base64 text
of an octet string, with blanks anywhere, in any fragments. The fragments decode
without a failure to pieces of the octet string, in order and without a rest. -/
theorem base64_round_trip (st : Base64) (octets : List UInt8) (fragments : List (List UInt8))
    (spelled : fragments.flatten.filter (fun char => !isBlank char) = Rfc4648.encode octets) :
    ∃ last results, feed base64Decode (base64Init st) fragments = some (last, results) ∧
      (results.map Decoded.output).flatten = octets ∧
      (∀ result ∈ results, result.failflag = false) ∧ last.bitPos = 0 := by
  have refines : ∀ (concrete : Base64) (pending : List Bool) (fragment : List UInt8),
      (concrete.lookup = base64Table ∧ concrete.pending = pending) → WellPadded fragment →
      ∃ next result, base64Decode concrete fragment = some (next, result) ∧
        result.failflag = false ∧
        (next.lookup = base64Table ∧
          next.pending = (Rfc4648.decoder.run pending fragment).1) ∧
        result.output = (Rfc4648.decoder.run pending fragment).2 := by
    rintro concrete _ fragment ⟨table, rfl⟩ padded
    obtain ⟨next, kept, reached, call⟩ := base64Decode_refines concrete table fragment padded
    exact ⟨next, _, call, rfl, ⟨kept, reached⟩, rfl⟩
  have padded : WellPadded fragments.flatten :=
    .of_filter _ (by rw [spelled]; exact wellPadded_encode octets)
  have whole : Rfc4648.decoder.run [] fragments.flatten = ([], octets) := by
    rw [← Rfc4648.decoder_run_encode octets, ← spelled, Transducer.run_filter]
    intro pending char blank
    exact decoder_step_blank pending char (by simpa using blank)
  obtain ⟨last, results, fed, unfailed, ⟨_, rest⟩, outputs⟩ :=
    feed_eq_run_of_refines Rfc4648.decoder base64Decode _ Decoded.output _ WellPadded
      (fun _ _ => WellPadded.of_append) refines (base64Init st) [] fragments ⟨rfl, rfl⟩ padded
  rw [whole] at rest outputs
  refine ⟨last, results, fed, outputs, unfailed, ?_⟩
  have short := length_pending last
  rw [rest] at short
  exact Fin.ext short.symm

/-- The text of two octets, with a line feed and a space, cut four times. -/
theorem base64_round_trip_cut :
    ∃ last results, feed base64Decode (base64Init base64Static)
        [CString.ascii "T", [], CString.ascii "W\nE", CString.ascii "=", CString.ascii " "] =
          some (last, results) ∧
      (results.map Decoded.output).flatten = CString.ascii "Ma" ∧
      (∀ result ∈ results, result.failflag = false) ∧ last.bitPos = 0 :=
  base64_round_trip base64Static (CString.ascii "Ma") _ (by decide)

/-- A call writes the bytes whose eight bits it has read, and no more. -/
theorem base64Decode_bits (st next : Base64) (table : st.lookup = base64Table) (text : List UInt8)
    (result : Decoded) (call : base64Decode st text = some (next, result)) :
    next.lookup = base64Table ∧
      8 * result.output.length + next.pending.length ≤ st.pending.length + 6 * letters text := by
  induction text generalizing st next result with
  | nil =>
      simp only [base64Decode, Option.some.injEq, Prod.mk.injEq] at call
      obtain ⟨rfl, rfl⟩ := call
      exact ⟨table, by simp⟩
  | cons char text ih =>
      rw [letters, List.countP_cons, ← letters]
      simp only [base64Decode] at call
      split_ifs at call with blank pad high unknown
      · obtain ⟨kept, bound⟩ := ih st next table result call
        exact ⟨kept, by omega⟩
      · simp only [Option.some.injEq, Prod.mk.injEq] at call
        obtain ⟨rfl, rfl⟩ := call
        exact ⟨table, by simp⟩
      · simp only [Option.some.injEq, Prod.mk.injEq] at call
        obtain ⟨rfl, rfl⟩ := call
        exact ⟨table, by simp⟩
      · obtain ⟨⟨last, rest⟩, later, same⟩ := Option.map_eq_some_iff.mp call
        simp only [Prod.mk.injEq] at same
        obtain ⟨rfl, rfl⟩ := same
        have letter : isLetter char := by
          rw [table, base64Table_eq char high] at unknown
          cases known : Rfc4648.value? char with
          | none => simp [known, Rfc4648.pad, pad] at unknown
          | some sextet => simp [isLetter, known]
        obtain ⟨reached, emitted, kept⟩ :=
          base64PushBit_run st (BitString.spell 6 (st.lookup char).toNat)
        have counted := BitString.regroup_run_length 8 st.pending
          (BitString.spell 6 (st.lookup char).toNat)
        obtain ⟨lastTable, bound⟩ := ih _ _ (kept.trans table) _ later
        refine ⟨lastTable, ?_⟩
        rw [reached] at bound
        rw [BitString.length_spell] at counted
        rw [emitted, List.length_append, List.length_map, if_pos letter]
        omega

end Hackterm
