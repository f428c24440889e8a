import Hackterm.State.Basic
import Hackterm.Unicode.Width

/-! # Glyphs

Code points are put on the screen glyph by glyph, each with the combining code points behind
it (`Hackterm.onTextState`). The last glyph of a text is kept, so that combining code points at
the beginning of the next text can be added to it. The array it is kept in has sixteen
cells; it is replaced by one of 32, into which the first sixteen are copied, each time a cell
behind them is written, so of the glyph its first sixteen code points are kept, and with 32
of them the array is overrun (`Hackterm.storeCombine_eq`).
-/

namespace Hackterm

/-- `combine_chars_size`, which is never changed. -/
def combineCharsSize : Nat := 16

/-- `grow_combine_buffer`, in memory that was zero. -/
def growCombineBuffer (chars : List Nat) : List Nat :=
  chars.take combineCharsSize ++ List.replicate combineCharsSize 0

/-- A cell of `combine_chars` is written. A cell outside the array is undefined. -/
def putCombineChar (chars : List Nat) (index char : Nat) : Option (List Nat) :=
  let chars := if combineCharsSize ≤ index then growCombineBuffer chars else chars
  if index < chars.length then some (chars.set index char) else none

/-- The loops that write code points and a zero behind them. -/
def storeCombine : List Nat → Nat → List Nat → Option (List Nat)
  | chars, index, [] => putCombineChar chars index 0
  | chars, index, char :: rest =>
      (putCombineChar chars index char).bind fun chars => storeCombine chars (index + 1) rest

/-- The code points in front of the zero. -/
def combineString (chars : List Nat) : List Nat := chars.takeWhile (· ≠ 0)

/-- The columns of a glyph. -/
def columnsOf (chars : List Nat) : Int := (chars.map vtermUnicodeWidth).sum

/-- The glyphs of a text: code points with the combining ones behind them. -/
def glyphsOf (codepoints : List Nat) : List (List Nat) :=
  codepoints.splitBy fun _ next => vtermUnicodeIsCombining next

namespace VTermState

/-- A glyph in the phantom column goes to the next row. -/
def wrap (state : VTermState) : Reaction :=
  if state.atPhantom then
    let reaction := linefeed state
    ({ reaction.1.setCol 0 with atPhantom := false }, reaction.2)
  else (state, [])

/-- The glyph is kept for combining code points in the next text. -/
def keepGlyph (chars : List Nat) (width : Int) (state : VTermState) : Option VTermState :=
  (storeCombine state.combineChars 0 chars).map fun stored =>
    { state with combineChars := stored, combineWidth := width, combinePos := state.pos }

/-- The cursor goes behind a glyph, or to the phantom column. -/
def advance (width : Int) (state : VTermState) : VTermState :=
  if state.cols ≤ state.pos.col + width then
    if state.mode.autowrap then { state with atPhantom := true } else state
  else state.setCol (state.pos.col + width)

/-- A glyph is put, and kept if it is the last one. -/
def putGlyph (chars : List Nat) (isLast : Bool) (state : VTermState) : Option Reaction :=
  let width := columnsOf chars
  let wrapped := state.wrap
  let state := wrapped.1
  let inserted := if state.mode.insert then scroll state.rowFromCursor 0 (-1) else []
  (if isLast then state.keepGlyph chars width else some state).map fun kept =>
    (kept.advance width, wrapped.2 ++ inserted ++ [.putglyph chars width state.pos])

/-- The loop over the glyphs. -/
def putGlyphs : List (List Nat) → VTermState → Option Reaction
  | [], state => some (state, [])
  | chars :: rest, state =>
      (state.putGlyph chars rest.isEmpty).bind fun first =>
        (putGlyphs rest first.1).map fun later => (later.1, first.2 ++ later.2)

/-- Combining code points in front go to the last glyph, if the cursor is still behind it.
The code points that are left are returned. -/
def putCombined (codepoints : List Nat) (state : VTermState) : Option (Reaction × List Nat) :=
  if vtermUnicodeIsCombining (codepoints.headD 0) ∧ state.pos.row = state.combinePos.row ∧
      state.pos.col = state.combinePos.col + state.combineWidth then
    if 0 ∈ state.combineChars then
      (storeCombine state.combineChars (combineString state.combineChars).length
          (codepoints.takeWhile vtermUnicodeIsCombining)).map fun stored =>
        (({ state with combineChars := stored },
            [.putglyph (combineString stored) state.combineWidth state.combinePos]),
          codepoints.dropWhile vtermUnicodeIsCombining)
    else none
  else some ((state, []), codepoints)

/-- `on_text` on its code points. -/
def putCodepoints (codepoints : List Nat) (state : VTermState) : Option Reaction :=
  (state.putCombined codepoints).bind fun (first, rest) =>
    (putGlyphs (glyphsOf rest) first.1).map fun later => (later.1, first.2 ++ later.2)

/-- `on_text`. -/
def onText (bytes : List UInt8) (state : VTermState) : Option Reaction :=
  (decodeText state.encodings bytes).bind fun (encodings, codepoints, _) =>
    { state with encodings := encodings }.putCodepoints codepoints

end VTermState

theorem combineCharsSize_eq : combineCharsSize = 16 := rfl

/-- The array has one of its two sizes and begins with the first code points of a glyph. -/
structure CombineHolds (chars glyph : List Nat) : Prop where
  size : chars.length = combineCharsSize ∨ chars.length = 2 * combineCharsSize
  begins : glyph.take combineCharsSize <+: chars

section Combine

variable {chars glyph : List Nat}

theorem CombineHolds.le (held : CombineHolds chars glyph) : combineCharsSize ≤ chars.length := by
  rcases held.size with small | large <;> omega

/-- The array after a cell is written behind the ones that are known. -/
theorem putCombineChar_large (held : CombineHolds chars glyph) {index : Nat}
    (large : combineCharsSize ≤ index) (char : Nat) :
    putCombineChar chars index char =
      if index < 2 * combineCharsSize then
        some ((chars.take combineCharsSize ++ List.replicate combineCharsSize 0).set index char)
      else none := by
  have length : (growCombineBuffer chars).length = 2 * combineCharsSize := by
    rw [growCombineBuffer, List.length_append, List.length_take, List.length_replicate,
      min_eq_left held.le]
    omega
  unfold putCombineChar
  dsimp only
  rw [if_pos large, length]
  rfl

/-- A code point of the glyph is written behind those before it. -/
theorem CombineHolds.put (held : CombineHolds chars glyph)
    (room : glyph.length < 2 * combineCharsSize) (char : Nat) :
    ∃ stored, putCombineChar chars glyph.length char = some stored ∧
      CombineHolds stored (glyph ++ [char]) := by
  rcases Nat.lt_or_ge glyph.length combineCharsSize with small | large
  · refine ⟨chars.set glyph.length char, ?_, by rw [List.length_set]; exact held.size, ?_⟩
    · have inside := held.le
      unfold putCombineChar
      dsimp only
      rw [if_neg (Nat.not_le.mpr small), if_pos (Nat.lt_of_lt_of_le small inside)]
    · obtain ⟨rest, same⟩ := held.begins
      rw [List.take_of_length_le small.le] at same
      rw [List.take_of_length_le (by rw [List.length_append, List.length_singleton]; omega)]
      rw [← same]
      have inside := held.le
      rw [← same, List.length_append] at inside
      cases rest with
      | nil =>
          rw [List.length_nil] at inside
          omega
      | cons first rest =>
          refine ⟨rest, ?_⟩
          rw [List.set_append_right _ _ (Nat.le_refl _), Nat.sub_self, List.set_cons_zero,
            List.append_assoc]
          rfl
  · have begins : glyph.take combineCharsSize = chars.take combineCharsSize := by
      have same := List.prefix_iff_eq_take.mp held.begins
      rwa [List.length_take, min_eq_left large] at same
    refine ⟨_, (putCombineChar_large held large char).trans (if_pos room), .inr ?_, ?_⟩
    · rw [List.length_set, List.length_append, List.length_take, List.length_replicate,
        min_eq_left held.le]
      omega
    · rw [List.take_append_of_le_length large, begins, List.set_append_right]
      · exact List.prefix_append _ _
      · rw [List.length_take]
        omega

/-- The zero behind the glyph. -/
theorem CombineHolds.finish (held : CombineHolds chars glyph) (nonzero : ∀ char ∈ glyph, char ≠ 0)
    (room : glyph.length < 2 * combineCharsSize) :
    ∃ stored, putCombineChar chars glyph.length 0 = some stored ∧
      CombineHolds stored (glyph.take combineCharsSize) ∧ 0 ∈ stored ∧
      combineString stored = glyph.take combineCharsSize := by
  have first : ∀ char ∈ glyph.take combineCharsSize, decide (char ≠ 0) = true :=
    fun char member => decide_eq_true (nonzero char (List.mem_of_mem_take member))
  obtain ⟨stored, wrote, held'⟩ := held.put room 0
  have zero : ∃ rest, stored = glyph.take combineCharsSize ++ 0 :: rest := by
    rcases Nat.lt_or_ge glyph.length combineCharsSize with small | large
    · obtain ⟨rest, same⟩ := held'.begins
      rw [List.take_of_length_le (by rw [List.length_append, List.length_singleton]; omega)] at same
      refine ⟨rest, ?_⟩
      rw [← same, List.take_of_length_le small.le, List.append_assoc]
      rfl
    · have begins : glyph.take combineCharsSize = chars.take combineCharsSize := by
        have same := List.prefix_iff_eq_take.mp held.begins
        rwa [List.length_take, min_eq_left large] at same
      rw [putCombineChar_large held large, if_pos room] at wrote
      have same := Option.some.inj wrote
      have here : (chars.take combineCharsSize).length = combineCharsSize := by
        rw [List.length_take, min_eq_left held.le]
      rw [List.set_append_right _ _ (by omega), here] at same
      have zeros : (List.replicate combineCharsSize 0).set (glyph.length - combineCharsSize) 0 =
          0 :: List.replicate (combineCharsSize - 1) 0 := by
        rw [List.set_replicate_self]
        rfl
      exact ⟨_, by rw [← same, zeros, begins]⟩
  obtain ⟨rest, same⟩ := zero
  refine ⟨stored, wrote, ⟨held'.size, ?_⟩, ?_, ?_⟩
  · rw [List.take_take, min_self, same]
    exact List.prefix_append _ _
  · rw [same]
    exact List.mem_append_right _ List.mem_cons_self
  · rw [combineString, same, List.takeWhile_append_of_pos first,
      List.takeWhile_cons_of_neg (by simp), List.append_nil]

/-- **Code points are kept up to the sixteenth.** Writing them behind a glyph overruns the
array when there are 32 of them together, or more; otherwise the first sixteen are kept. -/
theorem storeCombine_eq (held : CombineHolds chars glyph) (new : List Nat)
    (nonzero : ∀ char ∈ glyph ++ new, char ≠ 0) :
    (storeCombine chars glyph.length new = none ↔ 2 * combineCharsSize ≤ (glyph ++ new).length) ∧
      ∀ stored, storeCombine chars glyph.length new = some stored →
        CombineHolds stored (combineString stored) ∧ 0 ∈ stored ∧
          combineString stored = (glyph ++ new).take combineCharsSize := by
  induction new generalizing chars glyph with
  | nil =>
      rw [List.append_nil] at nonzero ⊢
      rw [storeCombine]
      rcases Nat.lt_or_ge glyph.length (2 * combineCharsSize) with room | full
      · obtain ⟨stored, wrote, held', ended, string⟩ := held.finish nonzero room
        rw [wrote]
        refine ⟨⟨nofun, fun full => absurd room (Nat.not_lt.mpr full)⟩, fun other same => ?_⟩
        obtain rfl := Option.some.inj same
        rw [string]
        exact ⟨held', ended, rfl⟩
      · have none_ : putCombineChar chars glyph.length 0 = none := by
          rw [putCombineChar_large held (by omega), if_neg (by omega)]
        rw [none_]
        exact ⟨⟨fun _ => full, fun _ => rfl⟩, nofun⟩
  | cons char new ih =>
      rw [storeCombine]
      have whole : glyph ++ char :: new = (glyph ++ [char]) ++ new := by simp
      rcases Nat.lt_or_ge glyph.length (2 * combineCharsSize) with room | full
      · obtain ⟨next, wrote, held'⟩ := held.put room char
        rw [whole] at nonzero ⊢
        rw [wrote, Option.bind_some]
        have later := ih held' nonzero
        rwa [List.length_append, List.length_singleton] at later
      · have none_ : putCombineChar chars glyph.length char = none := by
          rw [putCombineChar_large held (by omega), if_neg (by omega)]
        rw [none_, Option.bind_none]
        refine ⟨⟨fun _ => ?_, fun _ => rfl⟩, nofun⟩
        rw [List.length_append]
        omega

end Combine

end Hackterm
