import Hackterm.Base64.RoundTrip
import Mathlib.Algebra.Ring.Int.Defs

/-! # How much a call of the decoder writes

A byte from 0x80 on reads the table before its start. Whatever lies there
(`Hackterm.base64DecodeStray`), a call writes one byte for every eight bits of the
characters it takes (`Hackterm.base64DecodeStray_length`).
-/

namespace Hackterm

open Streaming

/-- The entry read for a byte, `stray` being what lies before the table. -/
def strayEntry (lookup stray : UInt8 → Int) (c : UInt8) : Int :=
  if 0x80 ≤ c then stray c else lookup c

/-- `base64_decode` with the memory before the table given. -/
def base64DecodeStray (stray : UInt8 → Int) (st : Base64) : List UInt8 → Base64 × Decoded
  | [] => (st, ⟨[], false⟩)
  | c :: input =>
      if c = 0x0A ∨ c = 0x0D ∨ c = 0x20 then base64DecodeStray stray st input
      else if c = 0x3D then ({ st with bitPos := ⟨0, Nat.succ_pos 7⟩ }, ⟨[], false⟩)
      else
        let current := strayEntry st.lookup stray c
        if current = -1 then ({ st with bitPos := ⟨0, Nat.succ_pos 7⟩ }, ⟨[], true⟩)
        else
          let pushed := base64PushBit.run st (BitString.spell 6 (current % 2 ^ 6).toNat)
          let rest := base64DecodeStray stray pushed.1 input
          (rest.1, { rest.2 with output := pushed.2 ++ rest.2.output })

/-- The call goes on behind this byte. -/
def goesOn (lookup stray : UInt8 → Int) (c : UInt8) : Bool :=
  isBlank c || (c ≠ 0x3D && strayEntry lookup stray c ≠ -1)

/-- The characters a call takes six bits of. -/
def sixBitChars (lookup stray : UInt8 → Int) (text : List UInt8) : Nat :=
  (text.takeWhile (goesOn lookup stray)).countP (!isBlank ·)

theorem sixBitChars_le_length (lookup stray : UInt8 → Int) (text : List UInt8) :
    sixBitChars lookup stray text ≤ text.length :=
  List.countP_le_length.trans (List.takeWhile_prefix _).length_le

theorem sixBitChars_blank {lookup stray : UInt8 → Int} {c : UInt8} (input : List UInt8)
    (blank : isBlank c = true) :
    sixBitChars lookup stray (c :: input) = sixBitChars lookup stray input := by
  simp [sixBitChars, goesOn, blank]

theorem sixBitChars_stop {lookup stray : UInt8 → Int} {c : UInt8} (input : List UInt8)
    (stops : goesOn lookup stray c = false) : sixBitChars lookup stray (c :: input) = 0 := by
  simp [sixBitChars, stops]

theorem sixBitChars_take {lookup stray : UInt8 → Int} {c : UInt8} (input : List UInt8)
    (counts : isBlank c = false) (taken : goesOn lookup stray c = true) :
    sixBitChars lookup stray (c :: input) = sixBitChars lookup stray input + 1 := by
  simp [sixBitChars, taken, counts]

/-- Bits pushed are written or stay pending, and the table stays as it is. -/
theorem base64PushBit_counted (st : Base64) (bits : List Bool) :
    8 * (base64PushBit.run st bits).2.length + (base64PushBit.run st bits).1.bitPos =
        st.bitPos + bits.length ∧
      (base64PushBit.run st bits).1.lookup = st.lookup := by
  obtain ⟨reached, emitted, kept⟩ := base64PushBit_run st bits
  have counted := BitString.regroup_run_length 8 st.pending bits
  refine ⟨?_, kept⟩
  rw [← reached, length_pending, length_pending] at counted
  rw [emitted, List.length_map]
  exact counted

/-- **A byte for every eight bits.** -/
theorem base64DecodeStray_length (stray : UInt8 → Int) (st : Base64) (text : List UInt8) :
    (base64DecodeStray stray st text).2.output.length =
      (st.bitPos + 6 * sixBitChars st.lookup stray text) / 8 := by
  induction text generalizing st with
  | nil =>
      have inside := st.bitPos.isLt
      simp only [base64DecodeStray, sixBitChars, List.takeWhile_nil, List.countP_nil,
        List.length_nil]
      omega
  | cons c input ih =>
      have inside := st.bitPos.isLt
      rw [base64DecodeStray]
      by_cases blank : c = 0x0A ∨ c = 0x0D ∨ c = 0x20
      · rw [if_pos blank, ih st, sixBitChars_blank input (by simpa [isBlank] using blank)]
      · have counts : isBlank c = false := by simpa [isBlank] using blank
        rw [if_neg blank]
        by_cases pad : c = 0x3D
        · subst pad
          rw [if_pos rfl, sixBitChars_stop input rfl, List.length_nil]
          omega
        · rw [if_neg pad]
          by_cases unknown : strayEntry st.lookup stray c = -1
          · rw [sixBitChars_stop input (by simp [goesOn, counts, unknown])]
            simp only [unknown, ↓reduceIte, List.length_nil]
            omega
          · obtain ⟨counted, kept⟩ := base64PushBit_counted st
              (BitString.spell 6 (strayEntry st.lookup stray c % 2 ^ 6).toNat)
            rw [BitString.length_spell] at counted
            simp only [unknown, ↓reduceIte, List.length_append, ih, kept]
            rw [sixBitChars_take input counts (by simp [goesOn, pad, unknown])]
            omega

/-- Where the call is defined, it does not depend on the memory before the table. -/
theorem base64DecodeStray_eq (stray : UInt8 → Int) (st : Base64) (table : st.lookup = base64Table)
    (text : List UInt8) (result : Base64 × Decoded) (call : base64Decode st text = some result) :
    base64DecodeStray stray st text = result := by
  induction text generalizing st result with
  | nil => exact Option.some.inj call
  | cons c input ih =>
      rw [base64Decode] at call
      rw [base64DecodeStray]
      split_ifs at call ⊢ with blank pad high
      · exact ih st table result call
      · exact Option.some.inj call
      · have entry : strayEntry st.lookup stray c = st.lookup c := if_neg high
        have low : (st.lookup c % 2 ^ 6).toNat = (st.lookup c).toNat % 2 ^ 6 ∨ st.lookup c = -1 := by
          rw [table, base64Table_eq c high]
          cases Rfc4648.value? c with
          | none => exact .inr (if_neg pad)
          | some sextet => exact .inl (Int.toNat_emod (Int.natCast_nonneg sextet) (by decide))
        dsimp only at call ⊢
        rw [entry]
        split_ifs at call ⊢ with unknown
        · exact Option.some.inj call
        · obtain ⟨⟨last, rest⟩, later, rfl⟩ := Option.map_eq_some_iff.mp call
          have kept := (base64PushBit_counted st
            (BitString.spell 6 (st.lookup c).toNat)).2.trans table
          rw [low.resolve_right unknown, BitString.spell_mod, ih _ kept _ later]

end Hackterm
