import Hackterm.Base64.RoundTrip
import Mathlib.Data.List.TakeWhile

/-! # What a call of the decoder accepts

A call reads the longest beginning of the text that consists of letters and blanks, and
stops at the byte behind it. What it writes are the bits of the unfinished byte and of
the letters, as far as they fill bytes, and it fails unless that byte is `=`. All this
holds exactly where the byte is below 0x80 (`Hackterm.base64Decode_exact_iff`): the
index of any other one is negative. Text behind letters and blanks may be handed over
in a call of its own (`Hackterm.base64Decode_streams`).
-/

namespace Hackterm

open Streaming

/-- The storage that calls of `base64_decode` can leave behind a call of `base64_init`. -/
inductive Base64.Reachable : Base64 → Prop
  | init (st : Base64) : Reachable (base64Init st)
  | decode {st next : Base64} {text : List UInt8} {result : Decoded} :
      Reachable st → base64Decode st text = some (next, result) → Reachable next

theorem Base64.Reachable.table {st : Base64} (reachable : st.Reachable) :
    st.lookup = base64Table := by
  induction reachable with
  | init st => rfl
  | decode _ call table => exact (base64Decode_bits _ _ table _ _ call).1

/-- A letter or a blank. -/
def isPlain (char : UInt8) : Bool := isLetter char || isBlank char

/-- The longest beginning of letters and blanks. -/
def plainPart (text : List UInt8) : List UInt8 := text.takeWhile isPlain

/-- The byte at which a call stops. -/
def stopByte (text : List UInt8) : Option UInt8 := (text.dropWhile isPlain).head?

/-- The bits of the letters of a text. -/
def letterBits (text : List UInt8) : List Bool :=
  (text.filterMap Rfc4648.value?).flatMap (BitString.spell 6)

/-- The bits of octets. -/
def octetBits (octets : List UInt8) : List Bool :=
  octets.flatMap fun byte => BitString.spell 8 byte.toNat

/-- The index into `base64lookup` at a byte, which is a plain `char`. -/
def base64Index (c : UInt8) : Int := c.toInt8.toInt

/-- The indices a call of `base64_decode` uses into `base64lookup`. What is read outside
the table is not known, nor what the call does behind it. -/
def base64Indices (st : Base64) : List UInt8 → List Int
  | [] => []
  | c :: input =>
      if c = 0x0A ∨ c = 0x0D ∨ c = 0x20 then base64Indices st input
      else if c = 0x3D then []
      else base64Index c ::
        if 0x80 ≤ c ∨ st.lookup c = -1 then [] else base64Indices st input

/-- The call uses indices inside the table only, writes the bytes that the unfinished
byte and the letters of the plain part fill, and fails when the plain part is followed by
another byte than `=`. -/
def DecodesExactly (st : Base64) (text : List UInt8) : Prop :=
  (∀ index ∈ base64Indices st text, 0 ≤ index ∧ index ≤ 255) ∧
    ∃ next result, base64Decode st text = some (next, result) ∧
      result.output.length = (st.bitPos + 6 * letters (plainPart text)) / 8 ∧
      octetBits result.output =
        (st.pending ++ letterBits (plainPart text)).take (8 * result.output.length) ∧
      (result.failflag = true ↔ ∃ c ∈ stopByte text, c ≠ 0x3D)

theorem isPlain_iff (char : UInt8) : isPlain char = true ↔ isLetter char ∨ isBlank char := by
  rw [isPlain, Bool.or_eq_true]

theorem letterBits_length (text : List UInt8) : (letterBits text).length = 6 * letters text := by
  rw [letterBits, List.length_flatMap]
  simp only [BitString.length_spell, List.map_const', List.sum_replicate, Nat.nsmul_eq_mul,
    List.length_filterMap_eq_countP]
  exact Nat.mul_comm _ _

theorem letterBits_blank {char : UInt8} (body : List UInt8) (known : Rfc4648.value? char = none) :
    letterBits (char :: body) = letterBits body := by
  rw [letterBits, List.filterMap_cons_none known, ← letterBits]

theorem letterBits_letter {char : UInt8} {sextet : Nat} (body : List UInt8)
    (known : Rfc4648.value? char = some sextet) :
    letterBits (char :: body) = BitString.spell 6 sextet ++ letterBits body := by
  rw [letterBits, List.filterMap_cons_some known, List.flatMap_cons, ← letterBits]

theorem spell_octet (group : List Bool) (full : group.length = 8) :
    BitString.spell 8 (Rfc4648.octet group).toNat = group := by
  have whole : (Rfc4648.octet group).toNat = BitString.value group % 2 ^ 8 := UInt8.toNat_ofNat'
  rw [whole, BitString.spell_mod, ← full, BitString.spell_value]

/-- The octets of full groups spell the groups. -/
theorem octetBits_octets (groups : List (List Bool)) (full : ∀ group ∈ groups, group.length = 8) :
    octetBits (groups.map Rfc4648.octet) = groups.flatten := by
  induction groups with
  | nil => rfl
  | cons group groups ih =>
      obtain ⟨first, others⟩ := List.forall_mem_cons.mp full
      rw [List.map_cons, octetBits, List.flatMap_cons, ← octetBits, ih others, spell_octet _ first,
        List.flatten_cons]

/-- Decoding letters and blanks is regrouping the bits of the letters. -/
theorem decoder_run_plain (pending : List Bool) (body : List UInt8)
    (plain : ∀ char ∈ body, isLetter char ∨ isBlank char) :
    Rfc4648.decoder.run pending body =
      (((BitString.regroup 8).run pending (letterBits body)).1,
        ((BitString.regroup 8).run pending (letterBits body)).2.map Rfc4648.octet) := by
  induction body generalizing pending with
  | nil => rfl
  | cons char body ih =>
      obtain ⟨first, others⟩ := List.forall_mem_cons.mp plain
      rw [Transducer.run_cons, ih _ others]
      cases known : Rfc4648.value? char with
      | none =>
          have blank := first.resolve_left (by simp [isLetter, known])
          rw [decoder_step_blank _ _ blank, letterBits_blank body known]
          rfl
      | some sextet =>
          have step : Rfc4648.decoder.step pending char =
              (((BitString.regroup 8).run pending (BitString.spell 6 sextet)).1,
                ((BitString.regroup 8).run pending (BitString.spell 6 sextet)).2.map
                  Rfc4648.octet) := by
            simp only [Rfc4648.decoder, known]
          rw [step, letterBits_letter body known, Transducer.run_append, List.map_append]

/-- What the letters and blanks write fills bytes with the bits read. -/
theorem decoder_run_plain_octets (pending : List Bool) (body : List UInt8)
    (short : pending.length < 8) (plain : ∀ char ∈ body, isLetter char ∨ isBlank char) :
    (Rfc4648.decoder.run pending body).2.length = (pending.length + 6 * letters body) / 8 ∧
      octetBits (Rfc4648.decoder.run pending body).2 =
        (pending ++ letterBits body).take (8 * (Rfc4648.decoder.run pending body).2.length) := by
  have counted := BitString.regroup_run_length 8 pending (letterBits body)
  have unfinished := BitString.regroup_run_pending 8 pending (letterBits body) short
  have flat := BitString.regroup_run_flatten 8 pending (letterBits body)
  have full := BitString.regroup_run_full 8 pending (letterBits body)
  rw [letterBits_length] at counted
  rw [decoder_run_plain pending body plain, List.length_map, octetBits_octets _ full, ← flat]
  have length : ((BitString.regroup 8).run pending (letterBits body)).2.flatten.length =
      8 * ((BitString.regroup 8).run pending (letterBits body)).2.length := by
    rw [List.length_flatten, List.map_eq_replicate_iff.mpr full, List.sum_replicate,
      Nat.nsmul_eq_mul, Nat.mul_comm]
  refine ⟨by omega, ?_⟩
  rw [← length, List.take_left]

/-- A text is its plain part, and the stopping byte with what follows it. -/
theorem plainPart_append (text : List UInt8) :
    (stopByte text = none ∧ text = plainPart text) ∨
      ∃ c rest, stopByte text = some c ∧ text = plainPart text ++ c :: rest ∧
        isPlain c = false := by
  have split := List.takeWhile_append_dropWhile (p := isPlain) (l := text)
  have stops := List.head?_dropWhile_not isPlain text
  unfold stopByte plainPart
  cases behind : text.dropWhile isPlain with
  | nil =>
      rw [behind, List.append_nil] at split
      exact .inl ⟨rfl, split.symm⟩
  | cons c rest =>
      rw [behind] at split stops
      exact .inr ⟨c, rest, rfl, split.symm, stops⟩

theorem mem_plainPart (text : List UInt8) : ∀ char ∈ plainPart text, isLetter char ∨ isBlank char :=
  fun _ member => (isPlain_iff _).mp (List.mem_takeWhile_imp member)

/-- What a call does at the stopping byte. -/
theorem base64Decode_stop (st : Base64) (table : st.lookup = base64Table) (c : UInt8)
    (rest : List UInt8) (stops : isPlain c = false) :
    base64Decode st (c :: rest) =
      if 0x80 ≤ c then none else some ({ st with bitPos := 0 }, ⟨[], c ≠ 0x3D⟩) := by
  obtain ⟨noLetter, noBlank⟩ := Bool.or_eq_false_iff.mp stops
  have kept : ¬ (c = 0x0A ∨ c = 0x0D ∨ c = 0x20) := by simpa [isBlank] using noBlank
  have unknown : Rfc4648.value? c = none := by simpa [isLetter] using noLetter
  rw [base64Decode, if_neg kept]
  by_cases pad : c = 0x3D
  · subst pad
    rfl
  · rw [if_neg pad]
    by_cases high : 0x80 ≤ c
    · rw [if_pos high, if_pos high]
    · have entry : st.lookup c = -1 := by
        rw [table, base64Table_eq c high, unknown]
        exact if_neg pad
      simp [high, entry, pad]

/-- An index lies in the table where the byte is below 0x80. -/
theorem base64Index_inside (c : UInt8) :
    (0 ≤ base64Index c ∧ base64Index c ≤ 255) ↔ c < 0x80 := by
  have all : ∀ code : Fin 256, (0 ≤ base64Index (UInt8.ofFin code) ∧
      base64Index (UInt8.ofFin code) ≤ 255) ↔ UInt8.ofFin code < 0x80 := by
    decide +kernel
  exact all c.toFin

/-- The indices of letters lie in the table, and the call goes on behind them. -/
theorem base64Indices_plain (st : Base64) (table : st.lookup = base64Table)
    (body rest : List UInt8) (plain : ∀ char ∈ body, isLetter char ∨ isBlank char) :
    (∀ index ∈ base64Indices st (body ++ rest), 0 ≤ index ∧ index ≤ 255) ↔
      ∀ index ∈ base64Indices st rest, 0 ≤ index ∧ index ≤ 255 := by
  induction body with
  | nil => rfl
  | cons char body ih =>
      obtain ⟨first, others⟩ := List.forall_mem_cons.mp plain
      rw [List.cons_append, base64Indices]
      by_cases blank : char = 0x0A ∨ char = 0x0D ∨ char = 0x20
      · rw [if_pos blank]
        exact ih others
      · have letter := first.resolve_right (by simpa [isBlank] using blank)
        have low := isLetter_lt char letter
        obtain ⟨sextet, known⟩ := Option.isSome_iff_exists.mp letter
        have entry : st.lookup char ≠ -1 := by
          rw [table, base64Table_eq char low, known]
          exact (by omega : (sextet : Int) ≠ -1)
        have notPad : char ≠ 0x3D := by
          rintro rfl
          exact absurd letter (by decide)
        rw [if_neg blank, if_neg notPad, if_neg (not_or.mpr ⟨low, entry⟩), List.forall_mem_cons,
          ih others]
        exact and_iff_right ((base64Index_inside char).mpr (UInt8.not_le.mp low))

/-- What a text decodes to behind the pending bits. -/
def textOctets (pending : List Bool) (text : List UInt8) : List UInt8 :=
  (Rfc4648.decoder.run pending (plainPart text)).2

/-- The text is given up at a byte other than `=`. -/
def TextFails (text : List UInt8) : Prop := ∃ c ∈ stopByte text, c ≠ 0x3D

/-- A call on a text that stops below 0x80, if it stops, writes what the plain part
decodes to, and fails where the text does. -/
theorem base64Decode_octets (st : Base64) (table : st.lookup = base64Table) (text : List UInt8)
    (low : ∀ c ∈ stopByte text, c < 0x80) :
    ∃ next failflag, next.lookup = base64Table ∧ (failflag = true ↔ TextFails text) ∧
      base64Decode st text = some (next, ⟨textOctets st.pending text, failflag⟩) := by
  obtain ⟨next, nextTable, -, run⟩ :=
    base64Decode_takes st table (plainPart text) (mem_plainPart text)
  rcases plainPart_append text with ⟨ended, whole⟩ | ⟨c, rest, stop, whole, stops⟩
  · have split : text = plainPart text ++ [] := whole.trans (List.append_nil _).symm
    have call := (congrArg (base64Decode st) split).trans (run [])
    refine ⟨next, false, nextTable, by simp [TextFails, ended], call.trans ?_⟩
    rw [base64Decode, Option.map_some, List.append_nil, textOctets]
  · have call := (congrArg (base64Decode st) whole).trans (run (c :: rest))
    rw [base64Decode_stop next nextTable c rest stops,
      if_neg (UInt8.not_le.mpr (low c stop))] at call
    refine ⟨{ next with bitPos := 0 }, c ≠ 0x3D, nextTable, by simp [TextFails, stop],
      call.trans ?_⟩
    rw [Option.map_some, List.append_nil, textOctets]

/-- A call on a text that stops at a byte from 0x80 on is undefined. -/
theorem base64Decode_outside (st : Base64) (table : st.lookup = base64Table) (text : List UInt8)
    (c : UInt8) (stop : c ∈ stopByte text) (high : 0x80 ≤ c) : base64Decode st text = none := by
  obtain ⟨next, nextTable, -, run⟩ :=
    base64Decode_takes st table (plainPart text) (mem_plainPart text)
  rcases plainPart_append text with ⟨ended, -⟩ | ⟨other, rest, stopped, whole, stops⟩
  · simp [ended] at stop
  · obtain rfl : other = c := Option.some.inj (stopped.symm.trans stop)
    have call := (congrArg (base64Decode st) whole).trans (run (other :: rest))
    rw [base64Decode_stop next nextTable other rest stops, if_pos high] at call
    exact call

/-- The index at the stopping byte, which is the last one. -/
theorem base64Indices_stop (st : Base64) (table : st.lookup = base64Table) (c : UInt8)
    (rest : List UInt8) (stops : isPlain c = false) :
    (∀ index ∈ base64Indices st (c :: rest), 0 ≤ index ∧ index ≤ 255) ↔ c < 0x80 := by
  obtain ⟨noLetter, noBlank⟩ := Bool.or_eq_false_iff.mp stops
  have kept : ¬ (c = 0x0A ∨ c = 0x0D ∨ c = 0x20) := by simpa [isBlank] using noBlank
  have unknown : Rfc4648.value? c = none := by simpa [isLetter] using noLetter
  rw [base64Indices, if_neg kept]
  by_cases pad : c = 0x3D
  · subst pad
    simp
  · have last : 0x80 ≤ c ∨ st.lookup c = -1 := by
      by_cases high : 0x80 ≤ c
      · exact .inl high
      · rw [table, base64Table_eq c high, unknown]
        exact .inr (if_neg pad)
    rw [if_neg pad, if_pos last, List.forall_mem_singleton, base64Index_inside]

/-- All indices lie in the table where the stopping byte is below 0x80. -/
theorem base64Indices_inside (st : Base64) (table : st.lookup = base64Table) (text : List UInt8) :
    (∀ index ∈ base64Indices st text, 0 ≤ index ∧ index ≤ 255) ↔
      ∀ c ∈ stopByte text, c < 0x80 := by
  have plain := base64Indices_plain st table (plainPart text)
  rcases plainPart_append text with ⟨ended, whole⟩ | ⟨c, rest, stop, whole, stops⟩
  · have inside := (plain [] (mem_plainPart text)).mpr fun _ member => absurd member List.not_mem_nil
    rw [List.append_nil, ← whole] at inside
    exact iff_of_true inside (by simp [ended])
  · have inside := (plain (c :: rest) (mem_plainPart text)).trans
      (base64Indices_stop st table c rest stops)
    rw [← whole] at inside
    rw [inside, stop]
    exact ⟨fun low _ same => Option.mem_some_iff.mp same ▸ low, fun low => low c rfl⟩

/-- **Exact acceptance.** From any storage with the initialised table, a call decodes a
text exactly if and only if the byte behind its plain part, if there is one, is below
0x80. -/
theorem base64Decode_exact_iff (st : Base64) (table : st.lookup = base64Table)
    (text : List UInt8) : DecodesExactly st text ↔ ∀ c ∈ stopByte text, c < 0x80 := by
  have short : st.pending.length < 8 := by
    rw [length_pending]
    exact st.bitPos.isLt
  obtain ⟨length, bits⟩ :=
    decoder_run_plain_octets st.pending (plainPart text) short (mem_plainPart text)
  rw [length_pending] at length
  rw [DecodesExactly, base64Indices_inside st table]
  apply and_iff_left_of_imp
  intro low
  obtain ⟨next, failflag, -, fails, call⟩ := base64Decode_octets st table text low
  exact ⟨next, _, call, length, bits, fails⟩

theorem base64Decode_exact_iff_padded :
    DecodesExactly (base64Init base64Static) (CString.ascii "Q\nUI=") :=
  (base64Decode_exact_iff _ rfl _).mpr (by decide +kernel)

/-- The byte 0x80 reads the table 128 entries before its start. -/
theorem base64Decode_negative_index :
    ¬ DecodesExactly (base64Init base64Static) [0x80] := by
  rintro ⟨inside, -⟩
  exact absurd (inside (-128) (by decide)).1 (by decide)

/-- A call on text below 0x80 is defined. -/
theorem base64Decode_ascii (st : Base64) (table : st.lookup = base64Table) (text : List UInt8)
    (ascii : ∀ char ∈ text, char < 0x80) :
    ∃ next result, base64Decode st text = some (next, result) := by
  have low : ∀ c ∈ stopByte text, c < 0x80 := by
    intro c stop
    exact ascii c ((List.dropWhile_sublist _).mem (List.mem_of_mem_head? stop))
  obtain ⟨next, failflag, -, -, call⟩ := base64Decode_octets st table text low
  exact ⟨next, _, call⟩

/-- **Streaming.** A call on letters and blanks followed by text below 0x80 writes what
the letters and blanks write in a call of their own, followed by what the text writes in
the next call. It reports the failure flag of that call, and leaves the same storage. -/
theorem base64Decode_streams (st : Base64) (reachable : st.Reachable) (s1 s2 : List UInt8)
    (plain : ∀ char ∈ s1, isLetter char ∨ isBlank char) (ascii : ∀ char ∈ s2, char < 0x80) :
    ∃ middle last first second,
      base64Decode st s1 = some (middle, ⟨first, false⟩) ∧
      base64Decode middle s2 = some (last, second) ∧
      base64Decode st (s1 ++ s2) = some (last, ⟨first ++ second.output, second.failflag⟩) := by
  obtain ⟨middle, table, -, run⟩ := base64Decode_takes st reachable.table s1 plain
  obtain ⟨last, second, later⟩ := base64Decode_ascii middle table s2 ascii
  have front := run []
  have whole := run s2
  rw [List.append_nil] at front
  rw [later] at whole
  refine ⟨middle, last, _, second, ?_, later, whole⟩
  rw [front, base64Decode, Option.map_some, List.append_nil]

theorem base64Decode_streams_cut :
    ∃ middle last first second,
      base64Decode (base64Init base64Static) (CString.ascii "QU\n") =
        some (middle, ⟨first, false⟩) ∧
      base64Decode middle (CString.ascii "I=*") = some (last, second) ∧
      base64Decode (base64Init base64Static) (CString.ascii "QU\n" ++ CString.ascii "I=*") =
        some (last, ⟨first ++ second.output, second.failflag⟩) :=
  base64Decode_streams _ (.init base64Static) _ _ (by decide +kernel) (by decide +kernel)

end Hackterm
