import Hackterm.Recents.RoundTrip
import Mathlib.Data.Fin.Basic

/-! # Fingerprints

The fingerprint of a host key survives the file (`Hackterm.fingerprintStr_storable`),
is not the text for an empty one, and tells the keys apart
(`Hackterm.fingerprintStr_injective`).
-/

namespace Hackterm

theorem hexDigit_range (digit : Fin 16) : 0x30 ≤ hexDigit digit ∧ hexDigit digit ≤ 0x46 := by
  revert digit
  decide

theorem hexDigit_injective : Function.Injective hexDigit := by
  intro first second
  revert first second
  decide

theorem hexByte_injective : Function.Injective hexByte := by
  intro first second same
  obtain ⟨high, low⟩ := List.cons.inj same
  obtain ⟨low, -⟩ := List.cons.inj low
  have high := congrArg Fin.val (hexDigit_injective high)
  have low := congrArg Fin.val (hexDigit_injective low)
  have first_small := first.toNat_lt
  have second_small := second.toNat_lt
  simp only [Fin.val_ofNat] at high low
  apply UInt8.toNat_inj.mp
  omega

theorem fingerprintStr_length (fingerprint : Fin 20 → UInt8) :
    (fingerprintStr fingerprint).length = 59 := by
  have lengths : (fun i => (hexByte (fingerprint i) ++ if i ≠ 19 then [0x3A] else []).length) =
      fun i : Fin 20 => if i ≠ 19 then 3 else 2 := by
    funext i
    split_ifs
    · rfl
    · rfl
  rw [fingerprintStr, List.length_flatMap, lengths]
  decide

theorem mem_fingerprintStr {fingerprint : Fin 20 → UInt8} {char : UInt8}
    (member : char ∈ fingerprintStr fingerprint) : 0x30 ≤ char ∧ char ≤ 0x46 := by
  obtain ⟨i, -, member⟩ := List.mem_flatMap.mp member
  rw [List.mem_append] at member
  cases member with
  | inl member =>
      simp only [hexByte, List.mem_cons, List.not_mem_nil, or_false] at member
      obtain rfl | rfl := member
      · exact hexDigit_range _
      · exact hexDigit_range _
  | inr member =>
      split_ifs at member
      · obtain rfl := List.mem_singleton.mp member
        decide
      · cases member

/-- **Fingerprints survive the file.** -/
theorem fingerprintStr_storable (fingerprint : Fin 20 → UInt8) :
    StorableString (fingerprintStr fingerprint) := by
  refine ⟨?_, fun member => ?_, fun member => ?_⟩
  · rw [fingerprintStr_length]
    decide
  · exact absurd (mem_fingerprintStr member).1 (by decide)
  · exact absurd (mem_fingerprintStr member).1 (by decide)

theorem fingerprintStr_ne (fingerprint : Fin 20 → UInt8) {string : List UInt8}
    (short : string.length < 59) : fingerprintStr fingerprint ≠ string := by
  intro same
  rw [← same, fingerprintStr_length] at short
  exact absurd short (Nat.lt_irrefl 59)

/-- Blocks of the same lengths that join to the same list are the same. -/
theorem flatMap_blocks_injective {α β : Type} (list : List α) (first second : α → List β)
    (lengths : ∀ item, (first item).length = (second item).length)
    (same : list.flatMap first = list.flatMap second) : ∀ item ∈ list, first item = second item := by
  induction list with
  | nil => simp
  | cons item list ih =>
      rw [List.flatMap_cons, List.flatMap_cons] at same
      obtain ⟨here, later⟩ := List.append_inj same (lengths item)
      exact List.forall_mem_cons.mpr ⟨here, ih later⟩

/-- **Fingerprints tell keys apart.** -/
theorem fingerprintStr_injective : Function.Injective fingerprintStr := by
  intro first second same
  funext i
  have parts := flatMap_blocks_injective (List.finRange 20) _ _ (fun _ => by simp [hexByte]) same i
    (List.mem_finRange i)
  exact hexByte_injective (List.append_cancel_right parts)

end Hackterm
