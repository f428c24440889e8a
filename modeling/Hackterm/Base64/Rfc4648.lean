import Hackterm.Streaming.BitString
import Mathlib.Data.List.FinRange
import Mathlib.Tactic.IntervalCases

/-! # The base64 encoding of RFC 4648

The encoding of an octet string as a text: the bits of the octets in order, cut
into sextets, each spelled by a letter of the alphabet, with zero bits completing
the last sextet and `=` completing the last group of four letters
(`Rfc4648.encode`). The text decodes by regrouping the bits of its letters into
octets, the unfinished octet being dropped at the padding
(`Rfc4648.decoder_run_encode`).
-/

namespace Rfc4648

open Streaming

/-- The padding character `=`. -/
def pad : UInt8 := 0x3D

/-- The letter of a sextet: `A`-`Z`, `a`-`z`, `0`-`9`, `+`, `/`. -/
def letter (sextet : Nat) : UInt8 :=
  UInt8.ofNat (if sextet < 26 then 65 + sextet
    else if sextet < 52 then 97 + (sextet - 26)
    else if sextet < 62 then 48 + (sextet - 52)
    else if sextet = 62 then 43 else 47)

/-- The sextet a letter spells. -/
def value? (char : UInt8) : Option Nat :=
  if 65 ≤ char ∧ char ≤ 90 then some (char.toNat - 65)
  else if 97 ≤ char ∧ char ≤ 122 then some (char.toNat - 97 + 26)
  else if 48 ≤ char ∧ char ≤ 57 then some (char.toNat - 48 + 52)
  else if char = 43 then some 62
  else if char = 47 then some 63 else none

/-- The sextets of an octet string, the last one completed by zero bits. -/
def sextets : List UInt8 → List Nat
  | [] => []
  | [a] =>
      let bits := a.toNat * 2 ^ 4
      [bits / 2 ^ 6, bits % 2 ^ 6]
  | [a, b] =>
      let bits := a.toNat * 2 ^ 10 + b.toNat * 2 ^ 2
      [bits / 2 ^ 12, bits / 2 ^ 6 % 2 ^ 6, bits % 2 ^ 6]
  | a :: b :: c :: octets =>
      let bits := a.toNat * 2 ^ 16 + b.toNat * 2 ^ 8 + c.toNat
      bits / 2 ^ 18 :: bits / 2 ^ 12 % 2 ^ 6 :: bits / 2 ^ 6 % 2 ^ 6 :: bits % 2 ^ 6 ::
        sextets octets

/-- The number of padding characters after the letters. -/
def padding (octets : List UInt8) : Nat := (3 - octets.length % 3) % 3

/-- The base64 text of an octet string. -/
def encode (octets : List UInt8) : List UInt8 :=
  (sextets octets).map letter ++ List.replicate (padding octets) pad

/-- The octet of a full group of bits. -/
def octet (bits : List Bool) : UInt8 := UInt8.ofNat (BitString.value bits)

/-- Decoding as a transducer on characters: a letter adds its six bits, the
padding character drops the unfinished octet, and anything else is skipped. -/
def decoder : Transducer (List Bool) UInt8 UInt8 where
  step pending char :=
    match value? char with
    | some sextet =>
        let grouped := (BitString.regroup 8).run pending (BitString.spell 6 sextet)
        (grouped.1, grouped.2.map octet)
    | none => if char = pad then ([], []) else (pending, [])

theorem value?_letter : ∀ sextet < 64, value? (letter sextet) = some sextet := by decide

theorem value?_pad : value? pad = none := by decide

/-- The four letters of three octets. -/
private theorem spell_triple (a b c : UInt8) (bits : Nat)
    (spelled : bits = a.toNat * 2 ^ 16 + b.toNat * 2 ^ 8 + c.toNat) :
    BitString.spell 6 (bits / 2 ^ 18) ++ (BitString.spell 6 (bits / 2 ^ 12 % 2 ^ 6) ++
      (BitString.spell 6 (bits / 2 ^ 6 % 2 ^ 6) ++ BitString.spell 6 (bits % 2 ^ 6))) =
      BitString.spell 8 a.toNat ++ (BitString.spell 8 b.toNat ++ BitString.spell 8 c.toNat) := by
  have second := b.toNat_lt
  have third := c.toNat_lt
  rw [BitString.spell_mod, BitString.spell_mod, BitString.spell_mod,
    ← BitString.spell_add 6 6 bits, ← BitString.spell_add 6 12 bits,
    ← BitString.spell_add 6 18 bits, BitString.spell_add 8 16 bits, BitString.spell_add 8 8 bits,
    show bits / 2 ^ 16 = a.toNat by omega, ← BitString.spell_mod 8 (bits / 2 ^ 8),
    ← BitString.spell_mod 8 bits, show bits / 2 ^ 8 % 2 ^ 8 = b.toNat by omega,
    show bits % 2 ^ 8 = c.toNat by omega]

/-- The letters spell the octets, followed by the completing zero bits. -/
theorem sextets_bits (octets : List UInt8) :
    (sextets octets).flatMap (BitString.spell 6) =
      octets.flatMap (fun byte => BitString.spell 8 byte.toNat) ++
        List.replicate (2 * padding octets) false := by
  fun_induction sextets octets with
  | case1 => rfl
  | case2 a bits =>
      have low : BitString.spell 4 bits = List.replicate 4 false := by
        rw [← BitString.spell_mod, show bits % 2 ^ 4 = 0 by omega]
        rfl
      have high : bits / 2 ^ 4 = a.toNat := by omega
      simp only [List.flatMap_cons, List.flatMap_nil, List.append_nil]
      rw [BitString.spell_mod, ← BitString.spell_add 6 6, BitString.spell_add 8 4, high, low]
      rfl
  | case3 a b bits =>
      have second := b.toNat_lt
      have low : BitString.spell 2 bits = List.replicate 2 false := by
        rw [← BitString.spell_mod, show bits % 2 ^ 2 = 0 by omega]
        rfl
      have middle : BitString.spell 8 (bits / 2 ^ 2) = BitString.spell 8 b.toNat := by
        rw [← BitString.spell_mod, show bits / 2 ^ 2 % 2 ^ 8 = b.toNat by omega]
      have high : bits / 2 ^ 10 = a.toNat := by omega
      simp only [List.flatMap_cons, List.flatMap_nil, List.append_nil]
      rw [BitString.spell_mod, BitString.spell_mod, ← BitString.spell_add 6 6,
        ← BitString.spell_add 6 12, BitString.spell_add 8 10, BitString.spell_add 8 2, high, middle,
        low, ← List.append_assoc]
      rfl
  | case4 a b c octets bits ih =>
      have more : padding (a :: b :: c :: octets) = padding octets := by
        simp only [padding, List.length_cons]
        omega
      have group := congrArg (· ++ (octets.flatMap (fun byte => BitString.spell 8 byte.toNat) ++
        List.replicate (2 * padding octets) false)) (spell_triple a b c bits rfl)
      simpa only [List.flatMap_cons, ih, more, List.append_assoc] using group

theorem sextets_lt (octets : List UInt8) : ∀ sextet ∈ sextets octets, sextet < 64 := by
  fun_induction sextets octets with
  | case1 => simp
  | case2 a bits =>
      have first := a.toNat_lt
      simp only [List.mem_cons, List.not_mem_nil, or_false, forall_eq_or_imp, forall_eq]
      omega
  | case3 a b bits =>
      have first := a.toNat_lt
      have second := b.toNat_lt
      simp only [List.mem_cons, List.not_mem_nil, or_false, forall_eq_or_imp, forall_eq]
      omega
  | case4 a b c octets bits ih =>
      have first := a.toNat_lt
      have second := b.toNat_lt
      have third := c.toNat_lt
      simp only [List.mem_cons, forall_eq_or_imp]
      exact ⟨by omega, by omega, by omega, by omega, ih⟩

/-- Four letters for three octets, rounded up. -/
theorem length_sextets (octets : List UInt8) :
    (sextets octets).length = (4 * octets.length + 2) / 3 := by
  fun_induction sextets octets with
  | case1 => rfl
  | case2 a bits => simp
  | case3 a b bits => simp
  | case4 a b c octets bits ih =>
      simp only [List.length_cons, ih]
      omega

theorem decoder_step_letter (pending : List Bool) (sextet : Nat) (small : sextet < 64) :
    decoder.step pending (letter sextet) =
      (((BitString.regroup 8).run pending (BitString.spell 6 sextet)).1,
        ((BitString.regroup 8).run pending (BitString.spell 6 sextet)).2.map octet) := by
  simp only [decoder, value?_letter sextet small]

theorem decoder_step_pad (pending : List Bool) : decoder.step pending pad = ([], []) := by
  simp only [decoder, value?_pad, ↓reduceIte]

/-- Decoding letters is regrouping the bits they spell. -/
theorem decoder_run_letters (pending : List Bool) (values : List Nat)
    (small : ∀ sextet ∈ values, sextet < 64) :
    decoder.run pending (values.map letter) =
      (((BitString.regroup 8).run pending (values.flatMap (BitString.spell 6))).1,
        ((BitString.regroup 8).run pending (values.flatMap (BitString.spell 6))).2.map octet) := by
  induction values generalizing pending with
  | nil => rfl
  | cons sextet values ih =>
      rw [List.map_cons, Transducer.run_cons, decoder_step_letter _ _ (small _ List.mem_cons_self),
        ih _ (fun other member => small other (List.mem_cons_of_mem _ member)),
        List.flatMap_cons, Transducer.run_append, List.map_append]

theorem decoder_run_pads (pending : List Bool) (count : Nat) :
    (decoder.run pending (List.replicate count pad)).2 = [] := by
  induction count generalizing pending with
  | zero => rfl
  | succ count ih => rw [List.replicate_succ, Transducer.run_cons, decoder_step_pad, ih]; rfl

/-- The bits of octets regroup into those octets. -/
theorem regroup_octets (octets : List UInt8) :
    (BitString.regroup 8).run [] (octets.flatMap fun byte => BitString.spell 8 byte.toNat) =
      ([], octets.map fun byte => BitString.spell 8 byte.toNat) := by
  induction octets with
  | nil => rfl
  | cons byte octets ih =>
      rw [List.flatMap_cons, Transducer.run_append,
        BitString.regroup_run_group 8 (by omega) _ (BitString.length_spell _ _), ih]
      rfl

theorem octet_spell (byte : UInt8) : octet (BitString.spell 8 byte.toNat) = byte := by
  rw [octet, BitString.value_spell, Nat.mod_eq_of_lt byte.toNat_lt, UInt8.ofNat_toNat]

/-- The letters of a text decode to its octets, and leave less than an octet. -/
theorem decoder_run_sextets (octets : List UInt8) :
    decoder.run [] ((sextets octets).map letter) =
      (List.replicate (2 * padding octets) false, octets) := by
  have short : 2 * padding octets < 8 := by
    simp only [padding]
    omega
  have reread : (octet ∘ fun byte : UInt8 => BitString.spell 8 byte.toNat) = id :=
    funext octet_spell
  rw [decoder_run_letters _ _ (sextets_lt octets), sextets_bits, Transducer.run_append,
    regroup_octets, BitString.regroup_run_short 8 _ _ (by simpa using short), List.append_nil,
    List.map_map, reread, List.map_id]
  rfl

/-- **Decoding inverts encoding.** -/
theorem decoder_run_encode (octets : List UInt8) :
    decoder.run [] (encode octets) = ([], octets) := by
  rw [encode, Transducer.run_append, decoder_run_sextets, decoder_run_pads, List.append_nil]
  cases count : padding octets with
  | zero => rfl
  | succ count =>
      have dropped : ∀ (amount : Nat) (pending : List Bool),
          (decoder.run pending (List.replicate (amount + 1) pad)).1 = [] := by
        intro amount
        induction amount with
        | zero => intro pending; simp [Transducer.run_cons, decoder_step_pad]
        | succ amount ih =>
            intro pending
            rw [List.replicate_succ, Transducer.run_cons, ih]
      rw [dropped]

/-- The octets decoded from letters, counted. -/
theorem decoder_run_letters_length (pending : List Bool) (values : List Nat)
    (small : ∀ sextet ∈ values, sextet < 64) :
    8 * (decoder.run pending (values.map letter)).2.length +
        (decoder.run pending (values.map letter)).1.length =
      pending.length + 6 * values.length := by
  have counted := BitString.regroup_run_length 8 pending (values.flatMap (BitString.spell 6))
  rw [decoder_run_letters pending values small, List.length_map, counted, List.length_flatMap]
  simp [Nat.mul_comm]

/-- A prefix of a text decodes to a prefix of its octets. -/
theorem decoder_run_prefix (octets taken rest : List UInt8)
    (split : encode octets = taken ++ rest) :
    octets = (decoder.run [] taken).2 ++ (decoder.run (decoder.run [] taken).1 rest).2 := by
  have whole := decoder_run_encode octets
  rw [split, Transducer.run_append] at whole
  exact (congrArg Prod.snd whole).symm

/-- The octets decoded from a prefix without all the letters, counted. -/
theorem decoder_run_prefix_length (octets taken rest : List UInt8)
    (split : encode octets = taken ++ rest) (early : taken.length < (sextets octets).length) :
    8 * (decoder.run [] taken).2.length ≤ 6 * taken.length ∧
      6 * taken.length < 8 * (decoder.run [] taken).2.length + 8 := by
  have spelled : taken = ((sextets octets).take taken.length).map letter := by
    have cut := congrArg (List.take taken.length) split
    rw [List.take_left, encode, List.take_append_of_le_length (by rw [List.length_map]; omega)]
      at cut
    rw [List.map_take, cut]
  have small : ∀ sextet ∈ (sextets octets).take taken.length, sextet < 64 :=
    fun sextet member => sextets_lt octets sextet (List.mem_of_mem_take member)
  have counted := decoder_run_letters_length [] _ small
  have unfinished := BitString.regroup_run_pending 8 []
    (((sextets octets).take taken.length).flatMap (BitString.spell 6)) (by simp)
  rw [decoder_run_letters _ _ small, ← decoder_run_letters _ _ small, ← spelled,
    List.length_take_of_le early.le, List.length_nil, Nat.zero_add] at counted
  rw [show ((BitString.regroup 8).run [] (((sextets octets).take taken.length).flatMap
      (BitString.spell 6))).1 = (decoder.run [] taken).1 by
    conv_rhs => rw [spelled, decoder_run_letters _ _ small]] at unfinished
  omega

/-- Behind all the letters only padding is left. -/
theorem decoder_run_prefix_whole (octets taken rest : List UInt8)
    (split : encode octets = taken ++ rest) (late : (sextets octets).length ≤ taken.length) :
    (decoder.run [] taken).2 = octets ∧ rest.length ≤ 2 := by
  have spelled := congrArg (List.drop taken.length) split
  rw [List.drop_left, encode, List.drop_append, List.drop_eq_nil_of_le (by simpa using late),
    List.nil_append, List.drop_replicate] at spelled
  have whole := decoder_run_prefix octets taken rest split
  rw [← spelled, decoder_run_pads, List.append_nil] at whole
  refine ⟨whole.symm, ?_⟩
  rw [← spelled, List.length_replicate, padding]
  omega

/-- Once all octets are decoded, at most two characters of the text are left. -/
theorem decoder_run_prefix_eq (octets taken rest : List UInt8)
    (split : encode octets = taken ++ rest) (whole : (decoder.run [] taken).2 = octets) :
    rest.length ≤ 2 := by
  by_cases early : taken.length < (sextets octets).length
  · obtain ⟨counted, _⟩ := decoder_run_prefix_length octets taken rest split early
    rw [whole] at counted
    rw [length_sextets] at early
    omega
  · exact (decoder_run_prefix_whole octets taken rest split (by omega)).2

end Rfc4648
