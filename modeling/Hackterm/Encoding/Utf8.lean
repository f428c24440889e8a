import Hackterm.Encoding.Decode
import Mathlib.Data.List.Induction
import Mathlib.Tactic.IntervalCases

/-! # UTF-8 in the terminal

`decode_utf8` decodes the code whose symbols are bytes and whose sequences are those of UTF-8
up to six bytes (`Hackterm.utf8Code`, `Hackterm.decodeUtf8_run`). It puts out what
`fill_utf8` encodes (`Hackterm.fillUtf8_spells`), and nothing but that and replacements
(`Hackterm.spells_fillUtf8`). So text is decoded as it is, behind whatever bytes
(`Hackterm.decodeUtf8_text`), and every code point that is put out stands encoded in the
bytes (`Hackterm.decodeUtf8_sound`).
-/

namespace Hackterm

open Codec

/-- `utf8_seqlen`. -/
def utf8Seqlen (codepoint : Nat) : Nat :=
  if codepoint < 0x80 then 1
  else if codepoint < 0x800 then 2
  else if codepoint < 0x10000 then 3
  else if codepoint < 0x200000 then 4
  else if codepoint < 0x4000000 then 5
  else 6

/-- The loop of `fill_utf8`, from the last byte backwards. -/
def fillContinuations : Nat → Nat → List UInt8
  | 0, _ => []
  | count + 1, codepoint =>
      fillContinuations count (codepoint >>> 6) ++ [UInt8.ofNat (0x80 ||| (codepoint &&& 0x3F))]

/-- The `switch` of `fill_utf8`. -/
def fillFirst (nbytes codepoint : Nat) : UInt8 :=
  UInt8.ofNat <| match nbytes with
    | 1 => codepoint &&& 0x7F
    | 2 => 0xC0 ||| (codepoint &&& 0x1F)
    | 3 => 0xE0 ||| (codepoint &&& 0x0F)
    | 4 => 0xF0 ||| (codepoint &&& 0x07)
    | 5 => 0xF8 ||| (codepoint &&& 0x03)
    | _ => 0xFC ||| (codepoint &&& 0x01)

/-- `fill_utf8`, without the NUL behind the bytes. -/
def fillUtf8 (codepoint : Nat) : List UInt8 :=
  let nbytes := utf8Seqlen codepoint
  fillFirst nbytes (codepoint >>> (6 * (nbytes - 1))) :: fillContinuations (nbytes - 1) codepoint

/-- The part a byte plays. -/
def utf8Role (c : UInt8) : Role Nat :=
  if c < 0x80 then .single c.toNat
  else if c < 0xC0 then .continuation (c.toNat % 64)
  else if c < 0xE0 then .lead 1 (c.toNat % 32)
  else if c < 0xF0 then .lead 2 (c.toNat % 16)
  else if c < 0xF8 then .lead 3 (c.toNat % 8)
  else if c < 0xFC then .lead 4 (c.toNat % 4)
  else if c < 0xFE then .lead 5 (c.toNat % 2)
  else .stray

/-- UTF-8 with sequences of up to six bytes. -/
def utf8Code : Code UInt8 Nat where
  role := utf8Role
  radix := 64
  character following value := checkedCp (following + 1) value
  replacement := unicodeInvalid

/-- The sequence a decoder has open. -/
def UTF8DecoderData.sequence (data : UTF8DecoderData) : Option Sequence :=
  if data.bytesRemaining = 0 then none
  else some ⟨data.bytesRemaining, data.bytesTotal - 1, data.thisCp⟩

theorem shift_or_eq (value : Nat) (c : UInt8) :
    value <<< 6 ||| (c.toNat &&& 0x3F) = value * 64 + c.toNat % 64 := by
  have low : c.toNat &&& 0x3F = c.toNat % 64 := Nat.and_two_pow_sub_one_eq_mod c.toNat 6
  rw [low, ← Nat.shiftLeft_add_eq_or_of_lt (Nat.mod_lt _ (by decide)), Nat.shiftLeft_eq]

/-- A byte in the decoder of the terminal and in the machine for the code. -/
theorem decodeUtf8_simulates (data : UTF8DecoderData) (c : UInt8) :
    (decodeUtf8 data c).1.sequence = (utf8Code.decoder.step data.sequence c).1 ∧
      (decodeUtf8 data c).2 = (utf8Code.decoder.step data.sequence c).2.map id := by
  have cut : cutOff data = utf8Code.interrupted data.sequence := by
    unfold cutOff UTF8DecoderData.sequence
    split_ifs <;> rfl
  have masks : c.toNat &&& 0x1F = c.toNat % 32 ∧ c.toNat &&& 0x0F = c.toNat % 16 ∧
      c.toNat &&& 0x07 = c.toNat % 8 ∧ c.toNat &&& 0x03 = c.toNat % 4 ∧
      c.toNat &&& 0x01 = c.toNat % 2 :=
    ⟨Nat.and_two_pow_sub_one_eq_mod _ 5, Nat.and_two_pow_sub_one_eq_mod _ 4,
      Nat.and_two_pow_sub_one_eq_mod _ 3, Nat.and_two_pow_sub_one_eq_mod _ 2,
      Nat.and_two_pow_sub_one_eq_mod _ 1⟩
  obtain ⟨mask5, mask4, mask3, mask2, mask1⟩ := masks
  rw [List.map_id]
  unfold decodeUtf8 introduce
  rw [mask5, mask4, mask3, mask2, mask1, cut, shift_or_eq]
  by_cases single : c < 0x80
  · have role : utf8Code.role c = .single c.toNat := if_pos single
    rw [if_pos single, Code.step_single role]
    exact ⟨rfl, rfl⟩
  by_cases continuation : c < 0xC0
  · have role : utf8Code.role c = .continuation (c.toNat % 64) := by
      simp [utf8Code, utf8Role, single, continuation]
    rw [if_neg single, if_pos continuation]
    by_cases idle : data.bytesRemaining = 0
    · have none_open : data.sequence = none := if_pos idle
      rw [if_pos idle]
      dsimp only
      rw [none_open, Code.step_idle role]
      exact ⟨rfl, rfl⟩
    · have opened : data.sequence =
          some ⟨data.bytesRemaining, data.bytesTotal - 1, data.thisCp⟩ := if_neg idle
      rw [if_neg idle, opened, Code.step_continuation role, Code.extend]
      have total : checkedCp data.bytesTotal = checkedCp (data.bytesTotal - 1 + 1) := by
        rcases Nat.eq_zero_or_pos data.bytesTotal with zero | positive
        · rw [zero]
          rfl
        · rw [Nat.sub_add_cancel positive]
      by_cases last : data.bytesRemaining - 1 = 0
      · rw [if_pos last, if_pos (by dsimp only; omega), total]
        exact ⟨rfl, rfl⟩
      · rw [if_neg last, if_neg (by dsimp only; omega)]
        exact ⟨if_neg last, rfl⟩
  rw [if_neg single, if_neg continuation]
  have role : utf8Code.role c =
      if c < 0xE0 then .lead 1 (c.toNat % 32) else if c < 0xF0 then .lead 2 (c.toNat % 16)
      else if c < 0xF8 then .lead 3 (c.toNat % 8) else if c < 0xFC then .lead 4 (c.toNat % 4)
      else if c < 0xFE then .lead 5 (c.toNat % 2) else .stray := by
    simp [utf8Code, utf8Role, single, continuation]
  split_ifs at role ⊢
  case neg =>
    rw [Code.step_stray role]
    exact ⟨rfl, rfl⟩
  all_goals
    rw [Code.step_lead role]
    exact ⟨rfl, rfl⟩

/-- **The decoder is the machine for the code.** -/
theorem decodeUtf8_run (data : UTF8DecoderData) (bytes : List UInt8) :
    (VTermEncoding.utf8.machine.run data bytes).1.sequence =
        (utf8Code.decoder.run data.sequence bytes).1 ∧
      (VTermEncoding.utf8.machine.run data bytes).2 =
        (utf8Code.decoder.run data.sequence bytes).2 := by
  have simulated := VTermEncoding.utf8.machine.run_eq_of_simulates utf8Code.decoder
    UTF8DecoderData.sequence id decodeUtf8_simulates data bytes
  rwa [List.map_id] at simulated

/-- The digits of a code point behind its first byte. -/
def continuationDigits : Nat → Nat → List Nat
  | 0, _ => []
  | count + 1, codepoint => continuationDigits count (codepoint / 64) ++ [codepoint % 64]

theorem length_continuationDigits (count codepoint : Nat) :
    (continuationDigits count codepoint).length = count := by
  induction count generalizing codepoint with
  | zero => rfl
  | succ count ih => rw [continuationDigits, List.length_append, ih, List.length_singleton]

theorem utf8Role_continuation (codepoint : Nat) :
    utf8Role (UInt8.ofNat (0x80 ||| (codepoint &&& 0x3F))) = .continuation (codepoint % 64) := by
  have digits : ∀ digit : Fin 64, ¬ UInt8.ofNat (0x80 ||| digit.val) < 0x80 ∧
      UInt8.ofNat (0x80 ||| digit.val) < 0xC0 ∧
      (UInt8.ofNat (0x80 ||| digit.val)).toNat % 64 = digit.val := by
    decide +kernel
  have low : codepoint &&& 0x3F = codepoint % 64 := Nat.and_two_pow_sub_one_eq_mod codepoint 6
  obtain ⟨high, below, value⟩ := digits ⟨codepoint % 64, Nat.mod_lt _ (by decide)⟩
  rw [low, utf8Role, if_neg high, if_pos below, value]

theorem map_role_fillContinuations (count codepoint : Nat) :
    (fillContinuations count codepoint).map utf8Code.role =
      (continuationDigits count codepoint).map .continuation := by
  induction count generalizing codepoint with
  | zero => rfl
  | succ count ih =>
      rw [fillContinuations, continuationDigits, List.map_append, List.map_append, ih,
        Nat.shiftRight_eq_div_pow, List.map_singleton, List.map_singleton]
      exact congrArg _ (congrArg ([·]) (utf8Role_continuation codepoint))

/-- The digits behind a first value make up the code point. -/
theorem valueOf_continuationDigits (count codepoint value : Nat) :
    utf8Code.valueOf value (continuationDigits count codepoint) =
      value * 64 ^ count + codepoint % 64 ^ count := by
  induction count generalizing codepoint with
  | zero => simp [continuationDigits, Code.valueOf, Nat.mod_one]
  | succ count ih =>
      have radix : utf8Code.radix = 64 := rfl
      have before := ih (codepoint / 64)
      unfold Code.valueOf at before ⊢
      rw [continuationDigits, List.foldl_append, before, List.foldl_cons, List.foldl_nil, radix,
        pow_succ', Nat.mod_mul, Nat.add_mul, mul_assoc, mul_comm (64 ^ count) 64]
      omega

/-- The first byte of a sequence. -/
theorem utf8Role_fillFirst {nbytes bits : Nat} (several : 2 ≤ nbytes) (atMost : nbytes ≤ 6)
    (small : bits < 2 ^ (7 - nbytes)) :
    utf8Role (fillFirst nbytes bits) = .lead (nbytes - 1) bits := by
  have leads :
      (∀ bits : Fin 32, utf8Role (fillFirst 2 bits) = .lead 1 bits) ∧
      (∀ bits : Fin 16, utf8Role (fillFirst 3 bits) = .lead 2 bits) ∧
      (∀ bits : Fin 8, utf8Role (fillFirst 4 bits) = .lead 3 bits) ∧
      (∀ bits : Fin 4, utf8Role (fillFirst 5 bits) = .lead 4 bits) ∧
      ∀ bits : Fin 2, utf8Role (fillFirst 6 bits) = .lead 5 bits := by
    decide +kernel
  obtain ⟨two, three, four, five, six⟩ := leads
  interval_cases nbytes
  · exact two ⟨bits, small⟩
  · exact three ⟨bits, small⟩
  · exact four ⟨bits, small⟩
  · exact five ⟨bits, small⟩
  · exact six ⟨bits, small⟩

/-- Code points that `decode_utf8` does not replace: 31 bits, no surrogate, and neither
U+FFFE nor U+FFFF. -/
structure IsDecodable (codepoint : Nat) : Prop where
  bits : codepoint < 2 ^ 31
  surrogate : ¬ (0xD800 ≤ codepoint ∧ codepoint ≤ 0xDFFF)
  fffe : codepoint ≠ 0xFFFE
  ffff : codepoint ≠ 0xFFFF

/-- The least code point that takes so many bytes. -/
def leastCodepoint : Nat → Nat
  | 2 => 0x80
  | 3 => 0x800
  | 4 => 0x10000
  | 5 => 0x200000
  | 6 => 0x4000000
  | _ => 0

/-- The checks replace what is overlong or invalid. -/
theorem checkedCp_eq (bytesTotal thisCp : Nat) :
    checkedCp bytesTotal thisCp =
      if leastCodepoint bytesTotal ≤ thisCp ∧ ¬ (0xD800 ≤ thisCp ∧ thisCp ≤ 0xDFFF) ∧
        thisCp ≠ 0xFFFE ∧ thisCp ≠ 0xFFFF then thisCp else unicodeInvalid := by
  have checks : checkedCp bytesTotal thisCp =
      let thisCp := if thisCp < leastCodepoint bytesTotal then unicodeInvalid else thisCp
      if 0xD800 ≤ thisCp ∧ thisCp ≤ 0xDFFF ∨ thisCp = 0xFFFE ∨ thisCp = 0xFFFF then unicodeInvalid
      else thisCp := by
    unfold checkedCp leastCodepoint
    split <;> simp
  rw [checks]
  dsimp only
  split_ifs <;> first | rfl | (exfalso; simp only [unicodeInvalid] at *; omega)

theorem leastCodepoint_utf8Seqlen (codepoint : Nat) :
    leastCodepoint (utf8Seqlen codepoint) ≤ codepoint := by
  unfold utf8Seqlen
  split_ifs <;> simp only [leastCodepoint] <;> omega

/-- The shortest encoding passes the checks. -/
theorem IsDecodable.checkedCp {codepoint : Nat} (decodable : IsDecodable codepoint) :
    checkedCp (utf8Seqlen codepoint) codepoint = codepoint := by
  rw [checkedCp_eq]
  exact if_pos ⟨leastCodepoint_utf8Seqlen codepoint, decodable.surrogate, decodable.fffe,
    decodable.ffff⟩

theorem utf8Seqlen_bounds {codepoint : Nat} (bits : codepoint < 2 ^ 31) :
    1 ≤ utf8Seqlen codepoint ∧ utf8Seqlen codepoint ≤ 6 ∧
      (2 ≤ utf8Seqlen codepoint →
        codepoint / 64 ^ (utf8Seqlen codepoint - 1) < 2 ^ (7 - utf8Seqlen codepoint)) := by
  unfold utf8Seqlen
  split_ifs <;> refine ⟨by decide, by decide, fun several => ?_⟩
  · exact absurd several (by decide)
  all_goals
    norm_num
    omega

/-- **The encoder of the terminal spells.** -/
theorem fillUtf8_spells {codepoint : Nat} (decodable : IsDecodable codepoint) :
    utf8Code.Spells (fillUtf8 codepoint) codepoint := by
  obtain ⟨one, atMost, first⟩ := utf8Seqlen_bounds decodable.bits
  have shift : ∀ count, codepoint >>> (6 * count) = codepoint / 64 ^ count := by
    intro count
    rw [Nat.shiftRight_eq_div_pow, pow_mul, show (2 : Nat) ^ 6 = 64 from rfl]
  unfold fillUtf8
  dsimp only
  rw [shift]
  by_cases several : 2 ≤ utf8Seqlen codepoint
  · have opens := utf8Role_fillFirst several atMost (first several)
    have spells := @Code.Spells.sequence _ _ utf8Code _ _ _ _ _ opens (by omega)
      (map_role_fillContinuations (utf8Seqlen codepoint - 1) codepoint)
      (length_continuationDigits _ _)
    have whole : utf8Code.character (utf8Seqlen codepoint - 1)
        (utf8Code.valueOf (codepoint / 64 ^ (utf8Seqlen codepoint - 1))
          (continuationDigits (utf8Seqlen codepoint - 1) codepoint)) = codepoint := by
      rw [valueOf_continuationDigits, Nat.div_add_mod']
      show Hackterm.checkedCp (utf8Seqlen codepoint - 1 + 1) codepoint = codepoint
      rw [Nat.sub_add_cancel one, decodable.checkedCp]
    rwa [whole] at spells
  · have single : utf8Seqlen codepoint = 1 := by omega
    have low : codepoint < 0x80 := by
      by_contra high
      unfold utf8Seqlen at single
      rw [if_neg high] at single
      split_ifs at single <;> omega
    have bytes : ∀ byte : Fin 128, utf8Role (fillFirst 1 byte) = .single byte := by decide +kernel
    rw [single, Nat.sub_self, pow_zero, Nat.div_one]
    exact .single (bytes ⟨codepoint, low⟩)

/-- A byte that begins a sequence is the first one of `fill_utf8`. -/
theorem eq_fillFirst {c : UInt8} {following value : Nat}
    (role : utf8Role c = .lead following value) :
    c = fillFirst (following + 1) value ∧ 0 < following ∧ following ≤ 5 ∧
      value < 2 ^ (6 - following) := by
  have bounds : 0 < following ∧ following < 6 ∧ value = c.toNat % 2 ^ (6 - following) := by
    unfold utf8Role at role
    split_ifs at role <;> cases role <;> exact ⟨by decide, by decide, rfl⟩
  have leads : ∀ c : Fin 256, ∀ following : Fin 6,
      utf8Role (UInt8.ofFin c) = .lead following (c.val % 2 ^ (6 - following.val)) →
        UInt8.ofFin c = fillFirst (following + 1) (c.val % 2 ^ (6 - following.val)) := by
    decide +kernel
  obtain ⟨positive, atMost, rfl⟩ := bounds
  exact ⟨leads c.toFin ⟨following, atMost⟩ role, positive, Nat.le_of_lt_succ atMost,
    Nat.mod_lt _ (Nat.two_pow_pos _)⟩

theorem eq_continuation {c : UInt8} {value : Nat} (role : utf8Role c = .continuation value) :
    c = UInt8.ofNat (0x80 ||| value) ∧ value < 64 := by
  have bytes : ∀ c : Fin 256, ¬ UInt8.ofFin c < 0x80 → UInt8.ofFin c < 0xC0 →
      UInt8.ofFin c = UInt8.ofNat (0x80 ||| (UInt8.ofFin c).toNat % 64) := by
    decide +kernel
  unfold utf8Role at role
  split_ifs at role with single continuation
  cases role
  exact ⟨bytes c.toFin single continuation, Nat.mod_lt _ (by decide)⟩

/-- The bytes behind the first one are those of the loop of `fill_utf8`. -/
theorem eq_fillContinuations (rest : List UInt8) (values : List Nat) (first : Nat)
    (continues : rest.map utf8Code.role = values.map .continuation) :
    rest = fillContinuations values.length (utf8Code.valueOf first values) ∧
      utf8Code.valueOf first values / 64 ^ values.length = first := by
  induction values using List.reverseRecOn generalizing rest with
  | nil =>
      obtain rfl : rest = [] := by simpa using continues
      exact ⟨rfl, by rw [List.length_nil, pow_zero, Nat.div_one]; rfl⟩
  | append_singleton values digit ih =>
      rw [List.map_append, List.map_singleton] at continues
      obtain ⟨front, tail, rfl, front_eq, tail_eq⟩ := List.map_eq_append_iff.mp continues
      obtain ⟨c, rfl, role⟩ := List.map_eq_singleton_iff.mp tail_eq
      obtain ⟨rfl, small⟩ := eq_continuation role
      obtain ⟨same, quotient⟩ := ih front front_eq
      have total : utf8Code.valueOf first (values ++ [digit]) =
          utf8Code.valueOf first values * 64 + digit := by
        rw [Code.valueOf, List.foldl_append]
        rfl
      have upper : (utf8Code.valueOf first values * 64 + digit) / 64 =
          utf8Code.valueOf first values := by omega
      have lower : (utf8Code.valueOf first values * 64 + digit) &&& 0x3F = digit := by
        have low := Nat.and_two_pow_sub_one_eq_mod (utf8Code.valueOf first values * 64 + digit) 6
        rw [show (0x3F : Nat) = 2 ^ 6 - 1 from rfl, low]
        omega
      rw [List.length_append, List.length_singleton, total]
      constructor
      · rw [fillContinuations, Nat.shiftRight_eq_div_pow, show (2 : Nat) ^ 6 = 64 from rfl, upper,
          lower, ← same]
      · rw [pow_succ', ← Nat.div_div_eq_div_mul, upper, quotient]

/-- The value of a sequence that is not overlong takes as many bytes as the sequence has. -/
theorem utf8Seqlen_eq {following value total : Nat} (positive : 0 < following)
    (atMost : following ≤ 5) (small : value < 2 ^ (6 - following))
    (leading : total / 64 ^ following = value) (least : leastCodepoint (following + 1) ≤ total) :
    utf8Seqlen total = following + 1 := by
  have bound : total < 2 ^ (6 - following) * 64 ^ following := by
    rw [← leading] at small
    exact (Nat.div_lt_iff_lt_mul (by positivity)).mp small
  unfold utf8Seqlen
  interval_cases following <;> simp only [leastCodepoint] at least <;> norm_num at bound <;>
    split_ifs <;> omega

/-- **Only what the encoder makes is spelled**, apart from the replacement. -/
theorem spells_fillUtf8 {bytes : List UInt8} {codepoint : Nat}
    (spells : utf8Code.Spells bytes codepoint) (valid : codepoint ≠ unicodeInvalid) :
    bytes = fillUtf8 codepoint := by
  cases spells with
  | @single c character plain =>
      have bytes : ∀ c : Fin 256, UInt8.ofFin c < 0x80 →
          [UInt8.ofFin c] = fillUtf8 (UInt8.ofFin c).toNat := by
        decide +kernel
      have role : utf8Role c = .single codepoint := plain
      unfold utf8Role at role
      split_ifs at role with low
      cases role
      exact bytes c.toFin low
  | @sequence lead following value rest values opens positive continues length =>
      obtain ⟨first, -, atMost, small⟩ := eq_fillFirst opens
      obtain ⟨behind, leading⟩ := eq_fillContinuations rest values value continues
      rw [length] at behind leading
      have character : utf8Code.character following (utf8Code.valueOf value values) =
          checkedCp (following + 1) (utf8Code.valueOf value values) := rfl
      rw [character, checkedCp_eq] at valid ⊢
      split_ifs at valid ⊢ with checks
      · have size := utf8Seqlen_eq positive atMost small leading checks.1
        rw [fillUtf8, size, Nat.add_sub_cancel, Nat.shiftRight_eq_div_pow, pow_mul,
          show (2 : Nat) ^ 6 = 64 from rfl, leading, ← first, ← behind]
      · exact absurd rfl valid

/-- Every sequence that is begun announces bytes. -/
theorem utf8Code_announces (c : UInt8) (following value : Nat)
    (role : utf8Code.role c = .lead following value) : 0 < following :=
  (eq_fillFirst role).2.1

/-- What `decode_utf8` has of a sequence that is not complete: the bytes it has read of it. -/
def UTF8DecoderData.Holds (data : UTF8DecoderData) (held : List UInt8) : Prop :=
  Code.Opened utf8Code data.sequence held

/-- **Text is decoded as it is**, from any state. The replacement in front stands for a
sequence that was cut off. -/
theorem decodeUtf8_text (data : UTF8DecoderData) (codepoints : List Nat)
    (decodable : ∀ codepoint ∈ codepoints, IsDecodable codepoint) (present : codepoints ≠ []) :
    (VTermEncoding.utf8.machine.run data (codepoints.flatMap fillUtf8)).2 =
        cutOff data ++ codepoints ∧
      (VTermEncoding.utf8.machine.run data (codepoints.flatMap fillUtf8)).1.bytesRemaining = 0 := by
  have spelled : ∀ part ∈ codepoints.map fun codepoint => (fillUtf8 codepoint, codepoint),
      utf8Code.Spells part.1 part.2 := by
    intro part member
    obtain ⟨codepoint, inside, rfl⟩ := List.mem_map.mp member
    exact fillUtf8_spells (decodable codepoint inside)
  have text := Code.run_text _ spelled (by simpa using present) data.sequence
  rw [List.map_map, List.map_map] at text
  have bytes : (codepoints.map (Prod.fst ∘
        fun codepoint => (fillUtf8 codepoint, codepoint))).flatten =
      codepoints.flatMap fillUtf8 := rfl
  have same : codepoints.map (Prod.snd ∘ fun codepoint => (fillUtf8 codepoint, codepoint)) =
      codepoints := List.map_id codepoints
  obtain ⟨reached, emitted⟩ := decodeUtf8_run data (codepoints.flatMap fillUtf8)
  rw [bytes, same] at text
  rw [text] at reached emitted
  constructor
  · rw [emitted]
    unfold cutOff UTF8DecoderData.sequence
    split_ifs <;> rfl
  · by_contra pending
    rw [UTF8DecoderData.sequence, if_neg pending] at reached
    exact Option.some_ne_none _ reached

/-- **Nothing is made up.** The code points that are put out, apart from replacements, stand
encoded in the bytes held before and the bytes read, in their order and side by side or with
other bytes between them. -/
theorem decodeUtf8_sound (data : UTF8DecoderData) (held bytes : List UInt8)
    (holds : data.Holds held) :
    (((VTermEncoding.utf8.machine.run data bytes).2.filter (· ≠ unicodeInvalid)).flatMap
      fillUtf8).Sublist (held ++ bytes) := by
  obtain ⟨parts, spelled, characters, inside⟩ :=
    Code.run_sound bytes utf8Code_announces data.sequence held holds
  rw [← (decodeUtf8_run data bytes).2] at characters
  have replaced : utf8Code.replacement = unicodeInvalid := rfl
  rw [replaced] at characters
  have encoded : parts.map Prod.fst = (parts.map Prod.snd).map fillUtf8 := by
    rw [List.map_map]
    apply List.map_congr_left
    intro part member
    have valid : part.2 ≠ unicodeInvalid := by
      have among : part.2 ∈ parts.map Prod.snd := List.mem_map_of_mem member
      rw [characters] at among
      simpa using List.of_mem_filter among
    exact spells_fillUtf8 (spelled part member) valid
  rw [← characters, List.flatMap_def, ← encoded]
  exact inside

end Hackterm
