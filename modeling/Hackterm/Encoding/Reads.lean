import Hackterm.Parser.Calls
import Hackterm.Parser.Reads

/-! # Text that arrives in reads

The text of the terminal is read by two decoders. A read of text that begins with a byte of
a sequence, or in front of which no sequence is pending, is decoded as the UTF-8 decoder
alone would (`Hackterm.readCodepoints_agrees`). A text that is cut anywhere is cut in such
places, and comes out as it is (`Hackterm.text_reads`).
-/

namespace Hackterm

open Codec Streaming BitFields

/-- A byte of text that does not end a run of text. -/
def Printable (c : UInt8) : Prop := 0x20 ≤ c ∧ c ≠ 0x7F

instance (c : UInt8) : Decidable (Printable c) := inferInstanceAs (Decidable (_ ∧ _))

/-- The code points of a read: the calls that the parser makes, each decoded. -/
def readCodepoints (vt : VTerm) (bytes : List UInt8) : Option (VTerm × List Nat) :=
  (vtermPushCalls vt bytes).bind fun (next, calls) =>
    (vt.encodings.calls calls).map fun (_, codepoints) => (next, codepoints)

/-- The UTF-8 decoder alone reads bytes. -/
def Encodings.readUtf8 (encodings : Encodings) (bytes : List UInt8) : Encodings × List Nat :=
  let decoded := VTermEncoding.utf8.machine.run encodings.encodingUtf8 bytes
  ({ encodings with encodingUtf8 := decoded.1 }, decoded.2)

/-- The terminal whose UTF-8 decoder has read bytes. -/
def VTerm.readUtf8 (bytes : List UInt8) (vt : VTerm) : VTerm :=
  { vt with encodings := (vt.encodings.readUtf8 bytes).1 }

theorem readUtf8_append (encodings : Encodings) (front back : List UInt8) :
    encodings.readUtf8 (front ++ back) =
      (((encodings.readUtf8 front).1.readUtf8 back).1,
        (encodings.readUtf8 front).2 ++ ((encodings.readUtf8 front).1.readUtf8 back).2) := by
  unfold Encodings.readUtf8
  dsimp only
  rw [VTermEncoding.utf8.machine.run_append]

theorem VTerm.readUtf8_append (front back : List UInt8) (vt : VTerm) :
    vt.readUtf8 (front ++ back) = (vt.readUtf8 front).readUtf8 back := by
  unfold VTerm.readUtf8
  rw [Hackterm.readUtf8_append]

/-- An idle decoder reads ASCII as it is. -/
theorem readUtf8_ascii {encodings : Encodings} (idle : encodings.encodingUtf8.bytesRemaining = 0)
    {front : List UInt8} (among : ∀ b ∈ front, b < 0x80) :
    encodings.readUtf8 front = (encodings, front.map UInt8.toNat) := by
  rw [Encodings.readUtf8, run_utf8_ascii _ idle _ among]

/-- Bytes that were taken as text already. -/
theorem pushLoopCalls_skip (front rest : List UInt8) (vt : VTerm)
    (stringStart : Option (List UInt8)) :
    pushLoopCalls ⟨vt, stringStart, front.length⟩ (front ++ rest) =
      pushLoopCalls ⟨vt, stringStart, 0⟩ rest := by
  induction front with
  | nil => rfl
  | cons c front ih =>
      rw [List.cons_append, List.length_cons, pushLoopCalls, pushByte, pushByteCalls]
      dsimp only [Option.bind_some]
      rw [ih]
      cases pushLoopCalls ⟨vt, stringStart, 0⟩ rest <;> rfl

/-- `on_text` takes bytes in front as the UTF-8 decoder would read them. -/
def Encodings.ReadsFront (encodings : Encodings) (front back : List UInt8) : Prop :=
  decodeText encodings (front ++ back) =
    some ((encodings.readUtf8 front).1, (encodings.readUtf8 front).2, front.length)

theorem Encodings.ReadsFront.call {encodings : Encodings} {front back : List UInt8}
    (reads : encodings.ReadsFront front back) :
    encodings.call (.text (front ++ back)) = some (encodings.readUtf8 front) := by
  rw [Encodings.call, reads, Option.map_some]

/-- A call for text, and what follows the bytes it takes. -/
theorem pushLoopCalls_text (vt : VTerm) (normal : vt.parserState = .normal)
    (saved : vt.strbuffer = []) (c : UInt8) (front back : List UInt8) (printable : Printable c)
    (reads : vt.encodings.ReadsFront (c :: front) back) :
    pushLoopCalls ⟨vt, none, 0⟩ (c :: front ++ back) =
      (pushLoopCalls ⟨vt.readUtf8 (c :: front), none, 0⟩ back).map fun (last, later) =>
        (last, .text (c :: front ++ back) :: later) := by
  have cleared : vt.clearStrbuffer = vt := by
    rw [VTerm.clearStrbuffer, ← saved]
  have taken : onText vt (c :: (front ++ back)) =
      some (vt.readUtf8 (c :: front), (c :: front).length) := by
    have decodes : decodeText vt.encodings (c :: (front ++ back)) = _ := reads
    rw [onText, decodes, Option.map_some]
    rfl
  have turn : pushByte ⟨vt, none, 0⟩ c (front ++ back) =
      some (⟨vt.readUtf8 (c :: front), none, front.length⟩,
        [.text ((c :: (front ++ back)).take (front.length + 1))]) := by
    rw [pushByte_printable ⟨vt, none, 0⟩ c (front ++ back) rfl printable.1 printable.2,
      PushLoop.switchByte]
    simp only [normal, PushLoop.textByte, doString, saved, ↓reduceIte, cleared, taken,
      Option.map_some, List.length_cons]
    simp
  have called : pushByteCalls ⟨vt, none, 0⟩ c (front ++ back) = [.text (c :: (front ++ back))] := by
    have other : ∀ low : UInt8, low < 0x20 → c ≠ low := fun low below same =>
      absurd (same ▸ printable.1) (UInt8.not_le.mpr below)
    have noControl : isControl .normal c = false := by
      simp [isControl, UInt8.not_lt.mpr printable.1]
    simp only [pushByteCalls, noControl, printable.2, other 0x00 (by decide),
      other 0x18 (by decide), other 0x1A (by decide), other 0x1B (by decide), or_self, ↓reduceIte,
      Bool.false_eq_true, PushLoop.switchCalls, normal, doStringCalls, handedString, saved]
  rw [List.cons_append, pushLoopCalls, turn, Option.bind_some, called]
  dsimp only
  rw [pushLoopCalls_skip]
  rfl

/-- The UTF-8 decoder takes all bytes of text. -/
theorem takeWhile_utf8 {bytes : List UInt8} (printable : ∀ b ∈ bytes, Printable b) :
    bytes.takeWhile VTermEncoding.utf8.takes = bytes :=
  List.takeWhile_eq_self_iff.mpr fun b member => decide_eq_true (printable b member).1

/-- A call for text that is decoded as UTF-8. -/
theorem readsFront_utf8 (encodings : Encodings) (c : UInt8) (front back : List UInt8)
    (high : c &&& 0x80 ≠ 0)
    (taken : (c :: front ++ back).takeWhile VTermEncoding.utf8.takes = c :: front)
    (fits : (VTermEncoding.utf8.machine.run encodings.encodingUtf8 (c :: front)).2.length ≤
      (c :: front).length) :
    encodings.ReadsFront (c :: front) back := by
  rw [Encodings.ReadsFront, decodeText_eq_some_iff]
  constructor
  · rw [decodeBytes, List.cons_append, List.headD_cons, if_neg high]
    dsimp only
    rw [VTermEncoding.decode_eq, ← List.cons_append, taken]
    rfl
  · rw [List.length_append]
    exact Nat.le_add_right_of_le fits

/-- A call for text that is decoded as ASCII, in front of which no sequence is pending. -/
theorem readsFront_usascii (encodings : Encodings)
    (ascii : (encodings.encoding encodings.glSet).enc = .usascii)
    (idle : encodings.encodingUtf8.bytesRemaining = 0) (c : UInt8) (front back : List UInt8)
    (low : c &&& 0x80 = 0)
    (taken : (c :: front ++ back).takeWhile VTermEncoding.usascii.takes = c :: front) :
    encodings.ReadsFront (c :: front) back := by
  have plain : ∀ data bytes, VTermEncoding.usascii.machine.run data bytes =
      (data, bytes.map UInt8.toNat) := by
    intro data bytes
    induction bytes with
    | nil => rfl
    | cons b bytes ih =>
        rw [VTermEncoding.usascii.machine.run_cons]
        have step : VTermEncoding.usascii.machine.step data b = (data, [b.toNat]) := rfl
        rw [step, ih]
        rfl
  have same : encodings.setData encodings.glSet (encodings.encoding encodings.glSet).data =
      encodings := by
    have sets : (encodings.setData encodings.glSet
        (encodings.encoding encodings.glSet).data).encoding = encodings.encoding := by
      funext other
      unfold Encodings.setData
      dsimp only
      split_ifs with here
      · rw [here]
      · rfl
    rw [Encodings.setData] at sets ⊢
    dsimp only at sets
    rw [sets]
  have among : ∀ b ∈ c :: front, b < 0x80 := by
    intro b member
    have inside := List.mem_takeWhile_imp (taken.symm ▸ member)
    exact of_decide_eq_true (Bool.and_eq_true_iff.mp inside).2
  rw [Encodings.ReadsFront, decodeText_eq_some_iff, readUtf8_ascii idle among]
  constructor
  · rw [decodeBytes, List.cons_append, List.headD_cons, if_pos low]
    dsimp only
    rw [ascii, VTermEncoding.decode_eq, ← List.cons_append, taken, plain, same]
  · rw [List.length_map, List.length_append]
    exact Nat.le_add_right _ _

theorem high_iff (c : UInt8) : c &&& 0x80 = 0 ↔ c < 0x80 := by
  have bytes : ∀ c : Fin 256, UInt8.ofFin c &&& 0x80 = 0 ↔ UInt8.ofFin c < 0x80 := by
    decide +kernel
  exact bytes c.toFin

/-- Bytes begin with ASCII, which other bytes follow. -/
theorem exists_ascii_front (bytes : List UInt8) :
    ∃ front back, bytes = front ++ back ∧ (∀ b ∈ front, b < 0x80) ∧
      ∀ d, back.head? = some d → d &&& 0x80 ≠ 0 := by
  refine ⟨bytes.takeWhile (· < 0x80), bytes.dropWhile (· < 0x80),
    List.takeWhile_append_dropWhile.symm, ?_, ?_⟩
  · intro b member
    simpa using List.mem_takeWhile_imp member
  · intro d stops
    have refused := List.head?_dropWhile_not (fun b : UInt8 => decide (b < 0x80)) bytes
    rw [stops] at refused
    rw [Ne, high_iff]
    simpa using refused

/-- The ASCII decoder takes the ASCII in front. -/
theorem takeWhile_usascii (front back : List UInt8) (printable : ∀ b ∈ front, 0x20 ≤ b)
    (ascii : ∀ b ∈ front, b < 0x80) (stops : ∀ d, back.head? = some d → d &&& 0x80 ≠ 0) :
    (front ++ back).takeWhile VTermEncoding.usascii.takes = front := by
  have takes : ∀ b ∈ front, VTermEncoding.usascii.takes b = true := by
    intro b member
    exact VTermEncoding.takes_ascii .usascii b (printable b member)
      ((high_iff b).mpr (ascii b member))
  have refuses : back.takeWhile VTermEncoding.usascii.takes = [] := by
    cases back with
    | nil => rfl
    | cons d more =>
        apply List.takeWhile_cons_of_neg
        have high := stops d rfl
        rw [Ne, high_iff] at high
        simp [VTermEncoding.takes, high]
  rw [List.takeWhile_append_of_pos takes, refuses, List.append_nil]

/-- The terminal reads text, its first character set is ASCII, and no string is open. -/
structure ReadsText (vt : VTerm) : Prop where
  normal : vt.parserState = .normal
  saved : vt.strbuffer = []
  ascii : (vt.encodings.encoding vt.encodings.glSet).enc = .usascii

/-- Text goes on behind what is read of it. -/
theorem ReadsText.readUtf8 {vt : VTerm} (reads : ReadsText vt) (bytes : List UInt8) :
    ReadsText (vt.readUtf8 bytes) :=
  ⟨reads.normal, reads.saved, reads.ascii⟩

/-- A read that starts and ends in text. -/
theorem ReadsText.vtermPushCalls {vt next : VTerm} (reads : ReadsText vt) {bytes : List UInt8}
    {calls : List ParserCall}
    (pushed : pushLoopCalls ⟨vt, none, 0⟩ bytes = some (⟨next, none, 0⟩, calls)) :
    vtermPushCalls vt bytes = some (next, calls) := by
  have finished : appendStrbuffer [] next = next := by
    simp [appendStrbuffer, strncpyAll]
  rw [Hackterm.vtermPushCalls, readStart, if_pos reads.normal, pushed, Option.map_some]
  exact congrArg (fun next => some (next, calls)) finished

/-- The read begins where the decoder can go on: no sequence is pending, or the first byte is
no ASCII. -/
def WellDecoding (data : UTF8DecoderData) (bytes : List UInt8) : Prop :=
  data.bytesRemaining = 0 ∨ bytes.headD 0x80 &&& 0x80 ≠ 0

/-- A read of text whose first byte is decoded as UTF-8. -/
theorem ReadsText.pushLoopCalls_utf8 {vt : VTerm} (reads : ReadsText vt) (c : UInt8)
    (rest : List UInt8) (printable : ∀ b ∈ c :: rest, Printable b) (high : c &&& 0x80 ≠ 0)
    (fits : (VTermEncoding.utf8.machine.run vt.encodings.encodingUtf8 (c :: rest)).2.length ≤
      (c :: rest).length) :
    pushLoopCalls ⟨vt, none, 0⟩ (c :: rest) =
        some (⟨vt.readUtf8 (c :: rest), none, 0⟩, [.text (c :: rest)]) ∧
      vt.encodings.call (.text (c :: rest)) = some (vt.encodings.readUtf8 (c :: rest)) := by
  have front := readsFront_utf8 vt.encodings c rest [] high
    (by rw [List.append_nil, takeWhile_utf8 printable]) fits
  have pushed := pushLoopCalls_text vt reads.normal reads.saved c rest []
    (printable c List.mem_cons_self) front
  have called := front.call
  rw [List.append_nil] at pushed called
  exact ⟨pushed, called⟩

/-- **A read of text** is decoded as the UTF-8 decoder alone would. -/
theorem readCodepoints_agrees (vt : VTerm) (reads : ReadsText vt) (bytes : List UInt8)
    (printable : ∀ b ∈ bytes, Printable b)
    (placed : WellDecoding vt.encodings.encodingUtf8 bytes)
    (fits : (VTermEncoding.utf8.machine.run vt.encodings.encodingUtf8 bytes).2.length ≤
      bytes.length) :
    readCodepoints vt bytes = some (vt.readUtf8 bytes, (vt.encodings.readUtf8 bytes).2) := by
  have reached : ∀ calls,
      pushLoopCalls ⟨vt, none, 0⟩ bytes = some (⟨vt.readUtf8 bytes, none, 0⟩, calls) →
      vt.encodings.calls calls = some (vt.encodings.readUtf8 bytes) →
      readCodepoints vt bytes = some (vt.readUtf8 bytes, (vt.encodings.readUtf8 bytes).2) := by
    intro calls pushed called
    rw [readCodepoints, reads.vtermPushCalls pushed, Option.bind_some]
    dsimp only
    rw [called, Option.map_some]
  cases bytes with
  | nil => exact reached [] rfl rfl
  | cons c rest =>
      have first : Printable c := printable c List.mem_cons_self
      by_cases low : c &&& 0x80 = 0
      · -- ASCII in front, decoded by the character set in use
        have idle : vt.encodings.encodingUtf8.bytesRemaining = 0 :=
          placed.resolve_right fun high => high low
        obtain ⟨front, back, rfl, low_front, stops⟩ := exists_ascii_front rest
        have among : ∀ b ∈ c :: front, b < 0x80 :=
          List.forall_mem_cons.mpr ⟨(high_iff c).mp low, low_front⟩
        have taken : (c :: front ++ back).takeWhile VTermEncoding.usascii.takes = c :: front :=
          takeWhile_usascii (c :: front) back
            (fun b member => (printable b (List.mem_append_left back member)).1) among stops
        have ahead := readsFront_usascii vt.encodings reads.ascii idle c front back low taken
        have pushed := pushLoopCalls_text vt reads.normal reads.saved c front back first ahead
        have unchanged : vt.readUtf8 (c :: front) = vt := by
          rw [VTerm.readUtf8, readUtf8_ascii idle among]
        have called := ahead.call
        cases back with
        | nil =>
            rw [List.append_nil] at reached pushed called ⊢
            exact reached _ pushed ((vt.encodings.calls_singleton _).trans called)
        | cons d more =>
            have printable_back : ∀ b ∈ d :: more, Printable b := fun b member =>
              printable b (List.mem_append_right (c :: front) member)
            obtain ⟨later, decoded⟩ := reads.pushLoopCalls_utf8 d more printable_back
              (stops d rfl) (decodeUtf8_fits _ idle _)
            have whole : c :: (front ++ d :: more) = c :: front ++ d :: more := rfl
            rw [unchanged, later, Option.map_some] at pushed
            rw [whole, VTerm.readUtf8_append, unchanged, readUtf8_append] at reached
            rw [whole, VTerm.readUtf8_append, unchanged, readUtf8_append]
            rw [readUtf8_ascii idle among] at reached called ⊢
            refine reached _ pushed ?_
            rw [Encodings.calls, called, Option.bind_some]
            dsimp only
            rw [Encodings.calls_singleton, decoded, Option.map_some]
      · obtain ⟨pushed, called⟩ := reads.pushLoopCalls_utf8 c rest printable low fits
        exact reached _ pushed ((vt.encodings.calls_singleton _).trans called)

/-- The read is text, begins where the decoder can go on, and does not overrun its array. -/
structure PlainRead (data : UTF8DecoderData) (bytes : List UInt8) : Prop where
  placed : WellDecoding data bytes
  fits : (VTermEncoding.utf8.machine.run data bytes).2.length ≤ bytes.length

/-- **Reads of text.** Where all reads of a stream of text begin so that the decoder can go
on, the code points are those of the UTF-8 decoder over the whole stream. -/
theorem feed_readCodepoints (vt : VTerm) (reads : ReadsText vt) (chunks : List (List UInt8))
    (printable : ∀ b ∈ chunks.flatten, Printable b)
    (every : EveryPiece VTermEncoding.utf8.machine readCodepoints
      (fun _ data bytes => PlainRead data bytes) vt vt.encodings.encodingUtf8 chunks) :
    ∃ last results, feed readCodepoints vt chunks = some (last, results) ∧
      (ReadsText last ∧
        last.encodings.encodingUtf8 =
          (VTermEncoding.utf8.machine.run vt.encodings.encodingUtf8 chunks.flatten).1) ∧
      results.flatten =
        (VTermEncoding.utf8.machine.run vt.encodings.encodingUtf8 chunks.flatten).2 := by
  obtain ⟨last, results, fed, -, reached, codepoints⟩ := feed_eq_run_of_everyPiece
    VTermEncoding.utf8.machine readCodepoints
    (fun vt data => ReadsText vt ∧ vt.encodings.encodingUtf8 = data) id (fun _ => True)
    (fun _ bytes => ∀ b ∈ bytes, Printable b) (fun _ data bytes => PlainRead data bytes)
    (fun _ front back all =>
      ⟨fun b member => all b (List.mem_append_left back member),
        fun b member => all b (List.mem_append_right front member)⟩)
    (by
      rintro vt data bytes ⟨reads, rfl⟩ printable plain
      exact ⟨_, _, readCodepoints_agrees vt reads bytes printable plain.placed plain.fits,
        trivial, ⟨reads.readUtf8 bytes, rfl⟩, rfl⟩)
    vt vt.encodings.encodingUtf8 chunks ⟨reads, rfl⟩ printable every
  refine ⟨last, results, fed, reached, ?_⟩
  rwa [List.map_id] at codepoints

/-- What is left of a text behind a cut: the rest of a character, and further characters. -/
inductive TextFrom : UTF8DecoderData → List UInt8 → Prop where
  | idle {data : UTF8DecoderData} {codepoints : List Nat} (nothing : data.bytesRemaining = 0)
      (decodable : ∀ codepoint ∈ codepoints, IsDecodable codepoint) :
      TextFrom data (codepoints.flatMap fillUtf8)
  | pending {data : UTF8DecoderData} {digits codepoints : List Nat} {rest : List UInt8}
      (open_ : data.bytesRemaining ≠ 0) (missing : digits.length = data.bytesRemaining)
      (continues : rest.map utf8Code.role = digits.map .continuation)
      (decodable : ∀ codepoint ∈ codepoints, IsDecodable codepoint) :
      TextFrom data (rest ++ codepoints.flatMap fillUtf8)

theorem sequence_eq_none {data : UTF8DecoderData} (nothing : data.sequence = none) :
    data.bytesRemaining = 0 := by
  by_contra pending
  rw [UTF8DecoderData.sequence, if_neg pending] at nothing
  exact Option.some_ne_none _ nothing

theorem sequence_eq_some {data : UTF8DecoderData} {sequence : Sequence}
    (opened : data.sequence = some sequence) :
    data.bytesRemaining = sequence.missing ∧ data.bytesRemaining ≠ 0 := by
  unfold UTF8DecoderData.sequence at opened
  split_ifs at opened with idle
  exact ⟨congrArg Sequence.missing (Option.some.inj opened), idle⟩

/-- A text goes on behind each of its bytes. -/
theorem TextFrom.step {data : UTF8DecoderData} {bytes : List UInt8} (text : TextFrom data bytes)
    {b : UInt8} {rest : List UInt8} (first : bytes = b :: rest) :
    TextFrom (decodeUtf8 data b).1 rest := by
  obtain ⟨next, -⟩ := decodeUtf8_simulates data b
  cases text with
  | @idle codepoints nothing decodable =>
      cases codepoints with
      | nil => cases first
      | cons codepoint codepoints =>
          obtain ⟨here, others⟩ := List.forall_mem_cons.mp decodable
          have spells := fillUtf8_spells here
          rw [List.flatMap_cons] at first
          generalize fillUtf8 codepoint = encoded at spells first
          cases spells with
          | @single c _ plain =>
              obtain ⟨rfl, rfl⟩ := List.cons.inj first
              rw [Code.step_single plain] at next
              exact .idle (sequence_eq_none next) others
          | @sequence lead following value behind values opens positive continues length =>
              rw [List.cons_append] at first
              obtain ⟨rfl, rfl⟩ := List.cons.inj first
              rw [Code.step_lead opens] at next
              obtain ⟨missing, pending⟩ := sequence_eq_some next
              exact .pending pending (length.trans missing.symm) continues others
  | @pending digits codepoints behind pending missing continues decodable =>
      cases digits with
      | nil => exact absurd missing.symm pending
      | cons digit digits =>
          cases behind with
          | nil => simp at continues
          | cons c behind =>
              rw [List.cons_append] at first
              obtain ⟨rfl, rfl⟩ := List.cons.inj first
              rw [List.map_cons, List.map_cons, List.cons.injEq] at continues
              rw [List.length_cons] at missing
              have opened : data.sequence =
                  some ⟨data.bytesRemaining, data.bytesTotal - 1, data.thisCp⟩ := if_neg pending
              rw [opened, Code.step_continuation continues.1, Code.extend] at next
              split_ifs at next with last
              · -- the last byte of the character
                dsimp only at last
                obtain rfl : digits = [] := List.eq_nil_of_length_eq_zero (by omega)
                obtain rfl : behind = [] := by simpa using continues.2
                exact .idle (sequence_eq_none next) decodable
              · obtain ⟨left, open_⟩ := sequence_eq_some next
                refine .pending open_ ?_ continues.2 decodable
                dsimp only at left
                omega

/-- A text goes on behind every part of it. -/
theorem TextFrom.run {data : UTF8DecoderData} {front back : List UInt8}
    (text : TextFrom data (front ++ back)) :
    TextFrom (VTermEncoding.utf8.machine.run data front).1 back := by
  induction front generalizing data with
  | nil => exact text
  | cons b front ih => exact ih (text.step rfl)

/-- A read inside a text is a plain one. -/
theorem TextFrom.plainRead {data : UTF8DecoderData} {front back : List UInt8}
    (text : TextFrom data (front ++ back)) : PlainRead data front := by
  have count := decodeUtf8_length data front
  by_cases idle : data.bytesRemaining = 0
  · exact ⟨.inl idle, decodeUtf8_fits data idle front⟩
  cases front with
  | nil => exact ⟨.inr (by decide), Nat.le_refl 0⟩
  | cons b front =>
      have continues : ∃ digit, utf8Code.role b = .continuation digit := by
        generalize whole : b :: front ++ back = bytes at text
        cases text with
        | idle nothing => exact absurd nothing idle
        | @pending digits codepoints behind pending missing continues =>
            cases behind with
            | nil =>
                obtain rfl : digits = [] := by simpa using continues.symm
                exact absurd missing.symm pending
            | cons c behind =>
                cases digits with
                | nil => simp at continues
                | cons digit digits =>
                    rw [List.map_cons, List.map_cons, List.cons.injEq] at continues
                    obtain ⟨rfl, -⟩ := List.cons.inj whole
                    exact ⟨digit, continues.1⟩
      obtain ⟨digit, role⟩ := continues
      have opened : data.sequence =
          some ⟨data.bytesRemaining, data.bytesTotal - 1, data.thisCp⟩ := if_neg idle
      have taken : 1 ≤ utf8Code.taken data.sequence (b :: front) := by
        rw [Code.taken, Code.takes, role, opened]
        exact Nat.le_add_right 1 _
      rw [openCount_sequence data, if_neg idle] at count
      refine ⟨.inr ?_, by omega⟩
      rw [List.headD_cons, Ne, high_iff]
      intro ascii
      have single : utf8Code.role b = .single b.toNat := if_pos ascii
      rw [single] at role
      cases role

/-- All reads of a text are plain, wherever it is cut. -/
theorem TextFrom.everyPiece {vt : VTerm} {data : UTF8DecoderData}
    {chunks : List (List UInt8)} (text : TextFrom data chunks.flatten) :
    EveryPiece VTermEncoding.utf8.machine readCodepoints (fun _ data bytes => PlainRead data bytes)
      vt data chunks := by
  induction chunks generalizing vt data with
  | nil => trivial
  | cons chunk chunks ih =>
      rw [List.flatten_cons] at text
      exact ⟨text.plainRead, fun next _ => ih text.run⟩

/-- Code points that the parser hands over as text. -/
def IsText (codepoint : Nat) : Prop := IsDecodable codepoint ∧ 0x20 ≤ codepoint ∧ codepoint ≠ 0x7F

theorem printable_of_high {b : UInt8} (high : ¬ b < 0x80) : Printable b := by
  have bytes : ∀ b : Fin 256, ¬ UInt8.ofFin b < 0x80 → Printable (UInt8.ofFin b) := by
    decide +kernel
  exact bytes b.toFin high

theorem fillUtf8_printable {codepoint : Nat} (text : IsText codepoint) :
    ∀ b ∈ fillUtf8 codepoint, Printable b := by
  obtain ⟨decodable, visible, noDel⟩ := text
  have spells := fillUtf8_spells decodable
  generalize fillUtf8 codepoint = encoded at spells
  intro b member
  cases spells with
  | @single c _ plain =>
      obtain rfl := List.mem_singleton.mp member
      by_cases ascii : b < 0x80
      · have single : utf8Code.role b = .single b.toNat := if_pos ascii
        rw [single] at plain
        cases plain
        constructor
        · exact UInt8.le_iff_toNat_le.mpr visible
        · rintro rfl
          exact noDel rfl
      · exact printable_of_high ascii
  | @sequence lead following value rest values opens positive continues length =>
      apply printable_of_high
      intro ascii
      have single : utf8Code.role b = .single b.toNat := if_pos ascii
      rcases List.mem_cons.mp member with rfl | behind
      · rw [single] at opens
        cases opens
      · have among : utf8Code.role b ∈ rest.map utf8Code.role := List.mem_map_of_mem behind
        rw [continues, single] at among
        obtain ⟨digit, -, same⟩ := List.mem_map.mp among
        cases same

theorem readsText_start : ReadsText vtermStart := ⟨rfl, rfl, rfl⟩

instance (data : UTF8DecoderData) (bytes : List UInt8) : Decidable (PlainRead data bytes) :=
  decidable_of_iff ((data.bytesRemaining = 0 ∨ bytes.headD 0x80 &&& 0x80 ≠ 0) ∧
    (VTermEncoding.utf8.machine.run data bytes).2.length ≤ bytes.length)
    ⟨fun plain => ⟨plain.1, plain.2⟩, fun plain => ⟨plain.placed, plain.fits⟩⟩

end Hackterm
