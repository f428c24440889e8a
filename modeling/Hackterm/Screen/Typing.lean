import Hackterm.Encoding.Reads
import Hackterm.Screen.Document

/-! # Documents that arrive in reads

The bytes of a document, plain text in UTF-8 whose lines are joined by a carriage return and a
line feed, go through the parser in reads that may cut them anywhere (`Hackterm.readTerminal`).
Each read becomes calls of the document (`Hackterm.pushLoopCalls_document`), and in the end the
terminal shows the rows that the lines are wrapped into (`Hackterm.document_shown`).
-/

namespace Hackterm

open Codec Streaming BitFields Planes Layout

/-- Calls of a document, one after the other. -/
inductive DocumentCalls : Encodings → List ParserCall → Encodings → List Nat → Prop where
  | nil (encodings : Encodings) : DocumentCalls encodings [] encodings []
  | cons {encodings middle after : Encodings} {call : ParserCall} {calls : List ParserCall}
      {codes more : List Nat} (first : DocumentCall encodings call middle codes)
      (others : DocumentCalls middle calls after more) :
      DocumentCalls encodings (call :: calls) after (codes ++ more)

/-- A code point of a document. -/
def IsDocumentCode (codepoint : Nat) : Prop :=
  IsPlain codepoint ∨ codepoint = 0x0D ∨ codepoint = 0x0A

/-- A sequence that was begun has from two to six bytes. -/
def UTF8DecoderData.Begun (data : UTF8DecoderData) : Prop :=
  data.bytesRemaining = 0 ∨ 2 ≤ data.bytesTotal ∧ data.bytesTotal ≤ 6

section Decoder

variable {data : UTF8DecoderData}

theorem le_checkedCp {bytesTotal : Nat} (several : 2 ≤ bytesTotal ∧ bytesTotal ≤ 6)
    (thisCp : Nat) : 0x20 ≤ checkedCp bytesTotal thisCp := by
  obtain ⟨two, six⟩ := several
  have least : 0x20 ≤ leastCodepoint bytesTotal := by
    interval_cases bytesTotal <;> decide
  rw [checkedCp_eq]
  split_ifs with checks
  · exact least.trans checks.1
  · decide

/-- A byte that is no control makes no control. -/
theorem UTF8DecoderData.Begun.decodeUtf8 (begun : data.Begun) {c : UInt8} (visible : 0x20 ≤ c) :
    (Hackterm.decodeUtf8 data c).1.Begun ∧
      ∀ code ∈ (Hackterm.decodeUtf8 data c).2, 0x20 ≤ code := by
  have cut : ∀ code ∈ cutOff data, 0x20 ≤ code := by
    unfold cutOff
    split_ifs <;> simp [unicodeInvalid]
  have introduced : ∀ total value, 2 ≤ total ∧ total ≤ 6 →
      (introduce total value data).1.Begun ∧
        ∀ code ∈ (introduce total value data).2, 0x20 ≤ code :=
    fun total value several => ⟨.inr several, cut⟩
  have replaced : ∀ code ∈ [unicodeInvalid], 0x20 ≤ code := by decide
  unfold Hackterm.decodeUtf8
  dsimp only
  split_ifs with ascii continues idle last
  · refine ⟨.inl rfl, fun code member => ?_⟩
    rcases List.mem_append.mp member with front | here
    · exact cut code front
    · rw [List.mem_singleton.mp here]
      exact UInt8.le_iff_toNat_le.mp visible
  · exact ⟨begun, replaced⟩
  · refine ⟨.inl rfl, fun code member => ?_⟩
    rw [List.mem_singleton.mp member]
    exact le_checkedCp (begun.resolve_left idle) _
  · exact ⟨.inr (begun.resolve_left idle), fun code member => absurd member List.not_mem_nil⟩
  · exact introduced _ _ (by decide)
  · exact introduced _ _ (by decide)
  · exact introduced _ _ (by decide)
  · exact introduced _ _ (by decide)
  · exact introduced _ _ (by decide)
  · exact ⟨begun, replaced⟩

/-- Bytes that are no controls make no controls. -/
theorem UTF8DecoderData.Begun.run (begun : data.Begun) {bytes : List UInt8}
    (visible : ∀ b ∈ bytes, 0x20 ≤ b) :
    (VTermEncoding.utf8.machine.run data bytes).1.Begun ∧
      ∀ code ∈ (VTermEncoding.utf8.machine.run data bytes).2, 0x20 ≤ code := by
  induction bytes generalizing data with
  | nil => exact ⟨begun, fun code member => absurd member List.not_mem_nil⟩
  | cons b bytes ih =>
      obtain ⟨first, others⟩ := List.forall_mem_cons.mp visible
      obtain ⟨next, here⟩ := begun.decodeUtf8 first
      obtain ⟨last, later⟩ := ih next others
      rw [VTermEncoding.utf8.machine.run_cons]
      exact ⟨last, fun code member => (List.mem_append.mp member).elim (here code) (later code)⟩

end Decoder

/-- A code point of a document that is no control is plain. -/
theorem IsDocumentCode.plain {codepoint : Nat} (code : IsDocumentCode codepoint)
    (visible : 0x20 ≤ codepoint) : IsPlain codepoint := by
  rcases code with plain | rfl | rfl
  · exact plain
  · exact absurd visible (by decide)
  · exact absurd visible (by decide)

/-- An ASCII byte of a document that is no control is printable. -/
theorem IsDocumentCode.printable {c : UInt8} (code : IsDocumentCode c.toNat)
    (noControl : ¬ (c = 0x0D ∨ c = 0x0A)) : Printable c := by
  rcases code with plain | carriageReturn | lineFeed
  · refine ⟨UInt8.le_iff_toNat_le.mpr (Nat.not_lt.mp fun low => plain.visible.2 (.inl low)), ?_⟩
    rintro rfl
    exact plain.visible.2 (.inr ⟨by decide, by decide⟩)
  · exact absurd (.inl (UInt8.toNat_inj.mp carriageReturn)) noControl
  · exact absurd (.inr (UInt8.toNat_inj.mp lineFeed)) noControl

section Calls

variable {vt : VTerm}

/-- A carriage return or a line feed in the stream. -/
theorem pushLoopCalls_control (normal : vt.parserState = .normal) {c : UInt8}
    (control : c = 0x0D ∨ c = 0x0A) (rest : List UInt8) :
    pushLoopCalls ⟨vt, none, 0⟩ (c :: rest) =
      (pushLoopCalls ⟨vt, none, 0⟩ rest).map fun (last, later) => (last, .control c :: later) := by
  have turn : pushByte ⟨vt, none, 0⟩ c rest = some (⟨vt, none, 0⟩, []) ∧
      pushByteCalls ⟨vt, none, 0⟩ c rest = [.control c] := by
    obtain ⟨parserState, strbuffer, encodings⟩ := vt
    obtain rfl : parserState = .normal := normal
    rcases control with rfl | rfl <;>
      simp [pushByte, pushByteCalls, isControl, PushLoop.save, doControl, Encodings.control]
  rw [pushLoopCalls, turn.1, Option.bind_some, turn.2]
  rfl

/-- The first call of a read takes the bytes in front. -/
structure FirstCall (vt : VTerm) (bytes front back : List UInt8) (call : ParserCall) : Prop where
  split : bytes = front ++ back
  present : front ≠ []
  pushed : pushLoopCalls ⟨vt, none, 0⟩ bytes =
    (pushLoopCalls ⟨vt.readUtf8 front, none, 0⟩ back).map fun (last, later) => (last, call :: later)
  document : DocumentCall vt.encodings call (vt.encodings.readUtf8 front).1
    (vt.encodings.readUtf8 front).2
  begun : (vt.encodings.readUtf8 front).1.encodingUtf8.Begun

variable {c : UInt8} {rest later : List UInt8}

/-- The code points of bytes in front that are no controls are plain. -/
theorem plain_front {encodings : Encodings} (begun : encodings.encodingUtf8.Begun)
    {front back : List UInt8}
    (codes : ∀ code ∈ (encodings.readUtf8 (front ++ back)).2, IsDocumentCode code)
    (visible : ∀ b ∈ front, 0x20 ≤ b) : ∀ code ∈ (encodings.readUtf8 front).2, IsPlain code := by
  intro code member
  rw [readUtf8_append] at codes
  exact (codes code (List.mem_append_left _ member)).plain ((begun.run visible).2 code member)

/-- A call for text takes the bytes that the decoder in use takes. -/
theorem firstCall_text (reads : ReadsText vt) (begun : vt.encodings.encodingUtf8.Begun)
    (codes : ∀ code ∈ (vt.encodings.readUtf8 (c :: rest)).2, IsDocumentCode code)
    (printable : Printable c) {enc : VTermEncoding} (first : enc.takes c = true)
    (decodes : ∀ front back, rest = front ++ back →
      (c :: front ++ back).takeWhile enc.takes = c :: front →
      vt.encodings.ReadsFront (c :: front) back) :
    ∃ front back call, FirstCall vt (c :: rest) front back call := by
  have split : c :: rest = c :: rest.takeWhile enc.takes ++ rest.dropWhile enc.takes := by
    rw [List.cons_append, List.takeWhile_append_dropWhile]
  have taken : (c :: rest.takeWhile enc.takes ++ rest.dropWhile enc.takes).takeWhile enc.takes =
      c :: rest.takeWhile enc.takes := by
    rw [← split, List.takeWhile_cons_of_pos first]
  have visible : ∀ b ∈ c :: rest.takeWhile enc.takes, 0x20 ≤ b := by
    rw [← taken]
    exact fun b member => VTermEncoding.visible_of_takes (List.mem_takeWhile_imp member)
  have ahead := decodes _ _ List.takeWhile_append_dropWhile.symm taken
  rw [split] at codes ⊢
  exact ⟨_, _, _, rfl, List.cons_ne_nil _ _,
    pushLoopCalls_text vt reads.normal reads.saved c _ _ printable ahead,
    .text ahead.call (plain_front begun codes visible), (begun.run visible).1⟩

/-- **A read of a document has a first call.** -/
theorem exists_firstCall (reads : ReadsText vt) (begun : vt.encodings.encodingUtf8.Begun)
    (text : TextFrom vt.encodings.encodingUtf8 (c :: rest ++ later))
    (codes : ∀ code ∈ (vt.encodings.readUtf8 (c :: rest)).2, IsDocumentCode code) :
    ∃ front back call, FirstCall vt (c :: rest) front back call := by
  by_cases low : c &&& 0x80 = 0
  · -- the decoder is idle in front of ASCII
    have idle : vt.encodings.encodingUtf8.bytesRemaining = 0 :=
      text.plainRead.placed.resolve_right fun high => high low
    have single : vt.encodings.readUtf8 [c] = (vt.encodings, [c.toNat]) :=
      readUtf8_ascii idle (by simpa using (high_iff c).mp low)
    by_cases control : c = 0x0D ∨ c = 0x0A
    · have same : vt.readUtf8 [c] = vt := by
        rw [VTerm.readUtf8, single]
      refine ⟨[c], rest, .control c, rfl, List.cons_ne_nil _ _, ?_, ?_, ?_⟩
      · rw [same]
        exact pushLoopCalls_control reads.normal control rest
      · rw [single]
        rcases control with rfl | rfl
        · exact .carriageReturn
        · exact .lineFeed
      · rw [single]
        exact begun
    · have here : IsDocumentCode c.toNat := by
        apply codes
        rw [← List.singleton_append, readUtf8_append, single]
        exact List.mem_append_left _ (List.mem_singleton_self _)
      have printable : Printable c := here.printable control
      exact firstCall_text reads begun codes printable
        (VTermEncoding.takes_ascii .usascii c printable.1 low) fun front back _ taken =>
          readsFront_usascii vt.encodings reads.ascii idle c front back low taken
  · have printable : Printable c := printable_of_high fun ascii => low ((high_iff c).mpr ascii)
    have first : VTermEncoding.utf8.takes c = true := decide_eq_true printable.1
    refine firstCall_text reads begun codes printable first
      fun front back split taken => ?_
    rw [split, ← List.cons_append, List.append_assoc] at text
    exact readsFront_utf8 vt.encodings c front back low taken text.plainRead.fits

/-- **A read of a document becomes calls of the document.** -/
theorem pushLoopCalls_document (reads : ReadsText vt) (begun : vt.encodings.encodingUtf8.Begun)
    (bytes : List UInt8) (text : TextFrom vt.encodings.encodingUtf8 (bytes ++ later))
    (codes : ∀ code ∈ (vt.encodings.readUtf8 bytes).2, IsDocumentCode code) :
    ∃ calls, pushLoopCalls ⟨vt, none, 0⟩ bytes = some (⟨vt.readUtf8 bytes, none, 0⟩, calls) ∧
      DocumentCalls vt.encodings calls (vt.encodings.readUtf8 bytes).1
        (vt.encodings.readUtf8 bytes).2 ∧
      (vt.encodings.readUtf8 bytes).1.encodingUtf8.Begun := by
  induction size : bytes.length using Nat.strong_induction_on generalizing vt bytes with
  | _ count ih =>
  cases bytes with
  | nil => exact ⟨[], rfl, .nil vt.encodings, begun⟩
  | cons c rest =>
  obtain ⟨front, back, call, split, present, pushed, document, goes⟩ :=
    exists_firstCall reads begun text codes
  rw [pushed]
  rw [split, readUtf8_append] at codes
  rw [split, readUtf8_append, VTerm.readUtf8_append]
  rw [split, List.append_assoc] at text
  have shorter : back.length < count := by
    rw [← size, split, List.length_append]
    exact Nat.lt_add_of_pos_left (List.length_pos_of_ne_nil present)
  obtain ⟨calls, behind, documents, ends⟩ := @ih _ shorter (vt.readUtf8 front)
    (reads.readUtf8 front) goes back text.run
    (fun code member => codes code (List.mem_append_right _ member)) rfl
  rw [behind]
  exact ⟨call :: calls, rfl, .cons document documents, ends⟩

end Calls

/-- A read goes through the parser, whose calls the terminal takes. -/
def readTerminal {rows cols : Nat} (terminal : VTerm × Terminal rows cols) (bytes : List UInt8) :
    Option (VTerm × Terminal rows cols) :=
  (vtermPushCalls terminal.1 bytes).bind fun (vt, calls) =>
    (terminal.2.pushAll calls).map fun next => (vt, next)

section Terminals

variable {rows cols : Nat} {base : Display} {typing next : TypedPage}

/-- Calls of a document are carried out. -/
theorem Terminal.Types.pushAll {terminal : Terminal rows cols} {calls : List ParserCall}
    {encodings after : Encodings} {codes : List Nat} (isBase : IsBase base)
    (types : terminal.Types base typing) (sets : terminal.state.encodings = encodings)
    (documents : DocumentCalls encodings calls after codes)
    (typed : codes.foldlM (TypedPage.code base.cols) typing = some next) :
    ∃ last, terminal.pushAll calls = some last ∧ last.Types base next ∧
      last.state.encodings = after := by
  induction documents generalizing terminal typing with
  | nil encodings =>
      obtain rfl := Option.some.inj typed
      exact ⟨terminal, rfl, types, sets⟩
  | cons first others ih =>
      rw [List.foldlM_append] at typed
      obtain ⟨middle, here, behind⟩ := Option.bind_eq_some_iff.mp typed
      rw [← sets] at first
      obtain ⟨one, pushed, held, reached⟩ := types.push isBase first here
      obtain ⟨last, rest, ends, final⟩ := ih held reached behind
      refine ⟨last, ?_, ends, final⟩
      rw [Terminal.pushAll_cons, pushed]
      exact rest

/-- The parser and the terminal are inside a document. -/
structure ReadsDocument (vt : VTerm) (terminal : Terminal rows cols) (base : Display)
    (typing : TypedPage) : Prop where
  reads : ReadsText vt
  sets : terminal.state.encodings = vt.encodings
  begun : vt.encodings.encodingUtf8.Begun
  types : terminal.Types base typing

/-- **A read of a document** goes on with what is typed. -/
theorem ReadsDocument.read {vt : VTerm} {terminal : Terminal rows cols} (isBase : IsBase base)
    (document : ReadsDocument vt terminal base typing) (bytes later : List UInt8)
    (text : TextFrom vt.encodings.encodingUtf8 (bytes ++ later))
    (codes : ∀ code ∈ (vt.encodings.readUtf8 bytes).2, IsDocumentCode code)
    (typed : (vt.encodings.readUtf8 bytes).2.foldlM (TypedPage.code base.cols) typing =
      some next) :
    ∃ last, readTerminal (vt, terminal) bytes = some (vt.readUtf8 bytes, last) ∧
      ReadsDocument (vt.readUtf8 bytes) last base next := by
  obtain ⟨reads, sets, begun, types⟩ := document
  obtain ⟨calls, pushed, documents, ends⟩ := pushLoopCalls_document reads begun bytes text codes
  obtain ⟨last, done, held, reached⟩ := types.pushAll isBase sets documents typed
  refine ⟨last, ?_, reads.readUtf8 bytes, reached, ends, held⟩
  rw [readTerminal, reads.vtermPushCalls pushed, Option.bind_some]
  dsimp only
  rw [done, Option.map_some]

/-- Reads of a document go on with what is typed, wherever they cut it. -/
theorem ReadsDocument.readAll {vt : VTerm} {terminal : Terminal rows cols} (isBase : IsBase base)
    (document : ReadsDocument vt terminal base typing) (chunks : List (List UInt8))
    (text : TextFrom vt.encodings.encodingUtf8 chunks.flatten)
    (codes : ∀ code ∈ (vt.encodings.readUtf8 chunks.flatten).2, IsDocumentCode code)
    (typed : (vt.encodings.readUtf8 chunks.flatten).2.foldlM (TypedPage.code base.cols)
      typing = some next) :
    ∃ last, chunks.foldlM readTerminal (vt, terminal) =
        some (vt.readUtf8 chunks.flatten, last) ∧
      last.Types base next := by
  induction chunks generalizing vt terminal typing with
  | nil =>
      obtain rfl := Option.some.inj typed
      exact ⟨terminal, rfl, document.types⟩
  | cons chunk chunks ih =>
      rw [List.flatten_cons] at text codes typed ⊢
      rw [readUtf8_append] at codes typed
      rw [List.foldlM_append] at typed
      rw [VTerm.readUtf8_append]
      obtain ⟨middle, here, behind⟩ := Option.bind_eq_some_iff.mp typed
      obtain ⟨one, read, held⟩ := document.read isBase chunk _ text
        (fun code member => codes code (List.mem_append_left _ member)) here
      obtain ⟨last, done, ends⟩ := ih held text.run
        (fun code member => codes code (List.mem_append_right _ member)) behind
      refine ⟨last, ?_, ends⟩
      rw [List.foldlM_cons, read]
      exact done

end Terminals

/-- The code points of a document: its lines, with a carriage return and a line feed between
them. -/
def documentCodes (lines : List (List Nat)) : List Nat := List.intercalate [0x0D, 0x0A] lines

section Documents

variable {first : List Nat} {more : List (List Nat)}

theorem documentCodes_cons_cons (first next : List Nat) (more : List (List Nat)) :
    documentCodes (first :: next :: more) =
      first ++ ([0x0D, 0x0A] ++ documentCodes (next :: more)) := rfl

theorem documentCodes_singleton (line : List Nat) : documentCodes [line] = line :=
  List.append_nil line

theorem isDocumentCode_of_mem (plain : ∀ line ∈ first :: more, ∀ code ∈ line, IsPlain code) :
    ∀ code ∈ documentCodes (first :: more), IsDocumentCode code := by
  obtain ⟨here, others⟩ := List.forall_mem_cons.mp plain
  induction more generalizing first with
  | nil =>
      intro code member
      rw [documentCodes_singleton] at member
      exact .inl (here code member)
  | cons next more ih =>
      intro code member
      obtain ⟨second, rest⟩ := List.forall_mem_cons.mp others
      rw [documentCodes_cons_cons, List.mem_append, List.mem_append] at member
      rcases member with line | lineBreak | behind
      · exact .inl (here code line)
      · rw [List.mem_cons, List.mem_singleton] at lineBreak
        exact .inr lineBreak
      · exact ih others second rest code behind

/-- The code points of a document can be encoded. -/
theorem IsDocumentCode.decodable {codepoint : Nat} (code : IsDocumentCode codepoint) :
    IsDecodable codepoint := by
  rcases code with plain | rfl | rfl
  · exact plain.decodable
  · exact ⟨by decide, by decide, by decide, by decide⟩
  · exact ⟨by decide, by decide, by decide, by decide⟩

/-- The lines of a document are typed. -/
theorem foldlM_code_document (columns : Nat) (page : Page Nat)
    (plain : ∀ line ∈ first :: more, ∀ code ∈ line, IsPlain code) :
    (documentCodes (first :: more)).foldlM (TypedPage.code columns) ⟨page, false⟩ =
      some ⟨page.typeLines codeColumns columns first more, false⟩ := by
  induction more generalizing first page with
  | nil =>
      rw [documentCodes_singleton]
      exact foldlM_code_plain columns page (plain first List.mem_cons_self)
  | cons next more ih =>
      obtain ⟨here, others⟩ := List.forall_mem_cons.mp plain
      have lineBreak : ∀ (page : Page Nat) codes,
          ([0x0D, 0x0A] ++ codes).foldlM (TypedPage.code columns) ⟨page, false⟩ =
            codes.foldlM (TypedPage.code columns) ⟨page.newline, false⟩ := fun page codes => rfl
      rw [documentCodes_cons_cons, List.foldlM_append, foldlM_code_plain columns page here]
      exact (lineBreak _ _).trans (ih _ others)

variable {rows cols : Nat} {chunks : List (List UInt8)}

/-- The reads of a document type its lines. -/
theorem readTerminal_document (size : UsualSize rows cols) (high : 2 ≤ rows) (wide : 3 ≤ cols)
    (plain : ∀ line ∈ first :: more, ∀ code ∈ line, IsPlain code)
    (cut : chunks.flatten = (documentCodes (first :: more)).flatMap fillUtf8) :
    ∃ (terminal : Terminal rows cols) (last : Terminal rows cols),
      Terminal.start rows cols = some terminal ∧
      chunks.foldlM readTerminal (vtermStart, terminal) =
        some (vtermStart.readUtf8 chunks.flatten, last) ∧
      last.Types (startDisplay rows cols)
        ⟨Page.blank.typeLines codeColumns cols first more, false⟩ := by
  obtain ⟨terminal, started, types, sets⟩ := Terminal.start_types size high wide
  have idle : vtermStart.encodings.encodingUtf8.bytesRemaining = 0 := rfl
  have decodable : ∀ code ∈ documentCodes (first :: more), IsDecodable code :=
    fun code member => (isDocumentCode_of_mem plain code member).decodable
  have text : TextFrom vtermStart.encodings.encodingUtf8 chunks.flatten := by
    rw [cut]
    exact .idle idle decodable
  have decoded : (vtermStart.encodings.readUtf8 chunks.flatten).2 =
      documentCodes (first :: more) := by
    rw [cut, Encodings.readUtf8]
    by_cases empty : documentCodes (first :: more) = []
    · rw [empty]
      rfl
    · have spelled := (decodeUtf8_text vtermStart.encodings.encodingUtf8 _ decodable empty).1
      rw [cutOff, if_pos idle, List.nil_append] at spelled
      exact spelled
  obtain ⟨last, done, ends⟩ := ReadsDocument.readAll (isBase_startDisplay high wide)
    ⟨readsText_start, sets, .inl idle, types⟩ chunks text
    (by rw [decoded]; exact isDocumentCode_of_mem plain)
    (by rw [decoded]; exact foldlM_code_document cols Page.blank plain)
  exact ⟨terminal, last, started, done, ends⟩

end Documents

/-- **A document is shown as it is wrapped**, wherever the reads cut it: the last rows that its
lines are wrapped into are on the screen, and those before them in the scrollback. -/
theorem document_shown (rows cols : Nat) (size : UsualSize rows cols) (high : 2 ≤ rows)
    (wide : 3 ≤ cols) (first : List Nat) (more : List (List Nat))
    (plain : ∀ line ∈ first :: more, ∀ code ∈ line, IsPlain code) (chunks : List (List UInt8))
    (cut : chunks.flatten = (documentCodes (first :: more)).flatMap fillUtf8) :
    ∃ terminal last page, Terminal.start rows cols = some terminal ∧
      chunks.foldlM readTerminal (vtermStart, terminal) =
        some (vtermStart.readUtf8 chunks.flatten, last) ∧
      page.rows = (first :: more).flatMap (wrap codeColumns cols) ∧
      last.Shows (pageDisplay (startDisplay rows cols) page) := by
  obtain ⟨terminal, last, started, done, types⟩ := readTerminal_document size high wide plain cut
  obtain ⟨-, display, carries, writes⟩ := types
  refine ⟨terminal, last, _, started, done, Page.rows_typeLines _ _ Page.blank first more, ?_⟩
  rw [← writes.display]
  exact carries.shows

theorem isPlain_sample : ∀ line ∈ [[0x41, 0xE9], [0x4E2D]], ∀ code ∈ line, IsPlain code := by
  simp only [List.mem_cons, List.not_mem_nil, or_false, forall_eq_or_imp, forall_eq]
  exact ⟨⟨⟨⟨by decide, by decide, by decide, by decide⟩, by decide, by decide +kernel⟩,
    ⟨by decide, by decide, by decide, by decide⟩, by decide, by decide +kernel⟩,
    ⟨by decide, by decide, by decide, by decide⟩, by decide, by decide +kernel⟩

/-- An A and an é, which is cut, and on the next line a wide character. -/
theorem document_shown_cut :
    ∃ terminal last page, Terminal.start 24 80 = some terminal ∧
      [[0x41, 0xC3], [0xA9, 0x0D], [0x0A, 0xE4, 0xB8, 0xAD]].foldlM readTerminal
          (vtermStart, terminal) =
        some (vtermStart.readUtf8 [0x41, 0xC3, 0xA9, 0x0D, 0x0A, 0xE4, 0xB8, 0xAD], last) ∧
      page.rows = [[0x41, 0xE9], [0x4E2D]].flatMap (wrap codeColumns 80) ∧
      last.Shows (pageDisplay (startDisplay 24 80) page) :=
  document_shown 24 80 usualSize_common (by decide) (by decide) [0x41, 0xE9] [[0x4E2D]]
    isPlain_sample [[0x41, 0xC3], [0xA9, 0x0D], [0x0A, 0xE4, 0xB8, 0xAD]] (by decide)

end Hackterm
