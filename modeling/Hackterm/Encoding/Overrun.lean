import Hackterm.Encoding.Utf8
import Mathlib.Data.List.TakeWhile

/-! # The array of `on_text`

`on_text` has an array with a cell for each byte of the read that is left. It writes outside
the array exactly when a sequence was pending, no byte continues it or any other sequence,
and no sequence is pending at the end of the read (`Hackterm.Encodings.Overruns`,
`Hackterm.decodeText_eq_none_iff`). Decoders that are idle do not, and ASCII leaves them idle
(`Hackterm.Encodings.Idle.decodeBytes`).
-/

namespace Hackterm

open Codec Streaming BitFields

/-- The other decoders make one code point of each byte. -/
theorem VTermEncoding.run_length {enc : VTermEncoding} (plain : enc ≠ .utf8)
    (data : UTF8DecoderData) (bytes : List UInt8) :
    (enc.machine.run data bytes).2.length = bytes.length := by
  induction bytes generalizing data with
  | nil => rfl
  | cons c rest ih =>
      have here : (enc.machine.step data c).2.length = 1 := by
        cases enc with
        | utf8 => exact absurd rfl plain
        | usascii | decDrawing | uk => rfl
      rw [enc.machine.run_cons, List.length_append, here, ih, List.length_cons, Nat.add_comm]

theorem openCount_sequence (data : UTF8DecoderData) :
    Code.openCount data.sequence = if data.bytesRemaining = 0 then 0 else 1 := by
  unfold UTF8DecoderData.sequence Code.openCount
  split_ifs <;> simp_all

/-- How many code points `decode_utf8` makes of bytes. -/
theorem decodeUtf8_length (data : UTF8DecoderData) (bytes : List UInt8) :
    (VTermEncoding.utf8.machine.run data bytes).2.length + utf8Code.taken data.sequence bytes +
        Code.openCount (VTermEncoding.utf8.machine.run data bytes).1.sequence =
      bytes.length + Code.openCount data.sequence := by
  obtain ⟨reached, emitted⟩ := decodeUtf8_run data bytes
  rw [reached, emitted]
  exact Code.run_length bytes data.sequence

/-- An idle decoder never makes more code points than it reads bytes. -/
theorem decodeUtf8_fits (data : UTF8DecoderData) (idle : data.bytesRemaining = 0)
    (bytes : List UInt8) :
    (VTermEncoding.utf8.machine.run data bytes).2.length ≤ bytes.length := by
  have count := decodeUtf8_length data bytes
  rw [openCount_sequence data, if_pos idle] at count
  omega

/-- An idle UTF-8 decoder makes ASCII of ASCII. -/
theorem run_utf8_ascii (data : UTF8DecoderData) (idle : data.bytesRemaining = 0)
    (bytes : List UInt8) (ascii : ∀ c ∈ bytes, c < 0x80) :
    VTermEncoding.utf8.machine.run data bytes = (data, bytes.map UInt8.toNat) := by
  induction bytes with
  | nil => rfl
  | cons c rest ih =>
      obtain ⟨first, others⟩ := List.forall_mem_cons.mp ascii
      have step : VTermEncoding.utf8.machine.step data c = (data, [c.toNat]) := by
        show decodeUtf8 data c = _
        rw [decodeUtf8, if_pos first, cutOff, if_pos idle, ← idle]
        rfl
      rw [VTermEncoding.utf8.machine.run_cons, step, ih others]
      rfl

/-- The other decoders keep nothing. -/
theorem VTermEncoding.run_data {enc : VTermEncoding} (plain : enc ≠ .utf8)
    (data : UTF8DecoderData) (bytes : List UInt8) : (enc.machine.run data bytes).1 = data := by
  induction bytes generalizing data with
  | nil => rfl
  | cons c rest ih =>
      have here : (enc.machine.step data c).1 = data := by
        cases enc with
        | utf8 => exact absurd rfl plain
        | usascii | decDrawing | uk => rfl
      rw [enc.machine.run_cons, here]
      exact ih data

/-- An idle decoder stays idle over ASCII. -/
theorem VTermEncoding.run_idle (enc : VTermEncoding) (data : UTF8DecoderData)
    (idle : data.bytesRemaining = 0) (bytes : List UInt8) (ascii : ∀ c ∈ bytes, c < 0x80) :
    (enc.machine.run data bytes).1.bytesRemaining = 0 := by
  by_cases utf8 : enc = .utf8
  · rw [utf8, run_utf8_ascii data idle bytes ascii]
    exact idle
  · rw [VTermEncoding.run_data utf8]
    exact idle

/-- A sequence is pending in the decoder of the text, the text goes to the end of the read, no
byte is taken into a sequence, and no sequence is pending at the end. -/
def Encodings.Overruns (encodings : Encodings) (bytes : List UInt8) : Prop :=
  (encodings.used bytes).enc = .utf8 ∧ (encodings.used bytes).data.bytesRemaining ≠ 0 ∧
    (∀ c ∈ bytes, 0x20 ≤ c) ∧
    utf8Code.taken (encodings.used bytes).data.sequence bytes = 0 ∧
    (VTermEncoding.utf8.machine.run (encodings.used bytes).data bytes).1.bytesRemaining = 0

instance (encodings : Encodings) (bytes : List UInt8) : Decidable (encodings.Overruns bytes) :=
  inferInstanceAs (Decidable (_ ∧ _))

theorem decodeText_eq_none {encodings : Encodings} {bytes : List UInt8} :
    decodeText encodings bytes = none ↔
      bytes.length < (decodeBytes encodings bytes).2.1.length := by
  unfold decodeText
  dsimp only
  split_ifs with more <;> simp [more]

/-- More code points than bytes are made where the array is overrun, and then by one. -/
theorem overruns_iff (encodings : Encodings) (bytes : List UInt8) :
    (bytes.length < (decodeBytes encodings bytes).2.1.length ↔ encodings.Overruns bytes) ∧
      (decodeBytes encodings bytes).2.1.length ≤ bytes.length + 1 := by
  rw [decodeBytes_codepoints]
  unfold Encodings.Overruns
  generalize encodings.used bytes = used
  obtain ⟨enc, data⟩ := used
  dsimp only
  by_cases utf8 : enc = .utf8
  · subst utf8
    have shorter := (bytes.takeWhile_prefix VTermEncoding.utf8.takes).length_le
    have count := decodeUtf8_length data (bytes.takeWhile VTermEncoding.utf8.takes)
    rw [openCount_sequence, openCount_sequence] at count
    refine ⟨⟨fun more => ?_, ?_⟩, by split_ifs at count <;> omega⟩
    · have pending : data.bytesRemaining ≠ 0 := by
        intro idle
        rw [if_pos idle] at count
        omega
      rw [if_neg pending] at count
      have whole : bytes.takeWhile VTermEncoding.utf8.takes = bytes :=
        (bytes.takeWhile_prefix _).eq_of_length (by omega)
      rw [whole] at count more
      refine ⟨rfl, pending, ?_, by omega, ?_⟩
      · intro c member
        have all := List.takeWhile_eq_self_iff.mp whole c member
        exact of_decide_eq_true all
      · by_contra later
        rw [if_neg later] at count
        omega
    · rintro ⟨-, pending, printable, untaken, idle⟩
      have whole : bytes.takeWhile VTermEncoding.utf8.takes = bytes :=
        List.takeWhile_eq_self_iff.mpr fun c member => decide_eq_true (printable c member)
      rw [whole, untaken, if_neg pending, if_pos idle] at count
      rw [whole]
      omega
  · have plain := VTermEncoding.run_length utf8 data (bytes.takeWhile enc.takes)
    have shorter := (bytes.takeWhile_prefix enc.takes).length_le
    refine ⟨⟨fun more => by omega, ?_⟩, by omega⟩
    rintro ⟨same, -⟩
    exact absurd same utf8

/-- What `on_text` decodes where its array is not overrun. -/
theorem decodeText_of_not_overruns {encodings : Encodings} {bytes : List UInt8}
    (fits : ¬ encodings.Overruns bytes) :
    decodeText encodings bytes = some (decodeBytes encodings bytes) := by
  rw [decodeText_eq_some_iff]
  refine ⟨rfl, Nat.not_lt.mp fun more => fits ?_⟩
  exact (overruns_iff encodings bytes).1.mp more

/-- **When `on_text` writes outside its array.** It does so exactly where a sequence was
pending, the text goes to the end of the read, no byte is taken into a sequence, and no
sequence is pending at the end; and then it writes one code point too many. -/
theorem decodeText_eq_none_iff (encodings : Encodings) (bytes : List UInt8) :
    (decodeText encodings bytes = none ↔
      (encodings.used bytes).enc = .utf8 ∧ (encodings.used bytes).data.bytesRemaining ≠ 0 ∧
        (∀ c ∈ bytes, 0x20 ≤ c) ∧
        utf8Code.taken (encodings.used bytes).data.sequence bytes = 0 ∧
        (VTermEncoding.utf8.machine.run (encodings.used bytes).data bytes).1.bytesRemaining = 0) ∧
      (decodeText encodings bytes = none →
        (decodeBytes encodings bytes).2.1.length = bytes.length + 1) := by
  obtain ⟨overruns, bound⟩ := overruns_iff encodings bytes
  rw [decodeText_eq_none]
  exact ⟨overruns, fun more => Nat.le_antisymm bound more⟩

/-- Behind E2, which begins a sequence, the bytes C3 and 41 come out as three code points. -/
example :
    decodeText { encodingsStart with encodingUtf8 := (decodeUtf8 ⟨0, 0, 0⟩ 0xE2).1 } [0xC3, 0x41] =
      none := by
  decide

namespace Encodings

/-- No sequence is pending in any decoder. -/
structure Idle (encodings : Encodings) : Prop where
  sets : ∀ set, (encodings.encoding set).data.bytesRemaining = 0
  utf8 : encodings.encodingUtf8.bytesRemaining = 0

theorem idle_start : encodingsStart.Idle := ⟨fun _ => rfl, rfl⟩

variable {encodings : Encodings} (idle : encodings.Idle)

include idle

theorem Idle.used (bytes : List UInt8) : (encodings.used bytes).data.bytesRemaining = 0 := by
  unfold Encodings.used
  split_ifs
  · exact idle.sets encodings.glSet
  · exact idle.utf8

theorem Idle.not_overruns (bytes : List UInt8) : ¬ encodings.Overruns bytes :=
  fun overruns => overruns.2.1 (idle.used bytes)

theorem Idle.setGl (set : Fin 4) : (encodings.setGl set).Idle := ⟨idle.sets, idle.utf8⟩

theorem Idle.control (c : UInt8) : (encodings.control c).Idle := by
  unfold Encodings.control
  split_ifs
  · exact idle.setGl 1
  · exact idle.setGl 0
  · exact idle

theorem Idle.setEncoding (set : Fin 4) (enc : VTermEncoding) :
    (encodings.setEncoding set enc).Idle := by
  refine ⟨fun other => ?_, idle.utf8⟩
  unfold Encodings.setEncoding
  dsimp only
  split_ifs
  · rfl
  · exact idle.sets other
  · exact idle.sets other

theorem Idle.designate (set : Fin 4) (designation : UInt8) :
    (encodings.designate set designation).Idle := by
  unfold Encodings.designate
  cases vtermLookupEncoding designation with
  | none => exact idle
  | some newenc => exact idle.setEncoding set newenc

theorem Idle.reset (defaultEnc : VTermEncoding) : (encodings.reset defaultEnc).Idle := by
  refine ⟨fun set => ?_, idle.utf8⟩
  unfold Encodings.reset
  dsimp only
  split_ifs
  · rfl
  · exact idle.sets set

theorem Idle.escape (bytes : List UInt8) : (encodings.escape bytes).Idle := by
  cases bytes with
  | nil => exact idle
  | cons first rest =>
      unfold Encodings.escape
      dsimp only
      split_ifs
      · split
        · exact idle.designate _ _
        · exact idle
      · exact idle.reset .utf8
      · exact idle.setGl 2
      · exact idle.setGl 3
      · exact idle

/-- Idle decoders stay idle over ASCII. -/
theorem Idle.decodeBytes (bytes : List UInt8)
    (ascii : ∀ c ∈ bytes.takeWhile (encodings.used bytes).enc.takes, c < 0x80) :
    (decodeBytes encodings bytes).1.Idle := by
  have stays := (encodings.used bytes).enc.run_idle _ (idle.used bytes) _ ascii
  unfold Encodings.used at stays
  unfold Hackterm.decodeBytes
  split_ifs at stays ⊢
  · refine ⟨fun set => ?_, idle.utf8⟩
    dsimp only at stays ⊢
    rw [VTermEncoding.decode_eq]
    unfold Encodings.setData
    dsimp only
    split_ifs
    · exact stays
    · exact idle.sets set
  · refine ⟨idle.sets, ?_⟩
    dsimp only at stays ⊢
    rw [VTermEncoding.decode_eq]
    exact stays

end Encodings

end Hackterm
