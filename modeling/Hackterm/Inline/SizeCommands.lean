import Hackterm.Inline.CellSize
import Hackterm.Inline.Metering
import Hackterm.Streaming.Run

/-! # The last size command

Text that is received while no image is should leave the cell size that its last
complete size command names. After every chunk it does so exactly where the command
that is obeyed is the last one of the buffer, and where no command that changes the
size is missed (`Hackterm.sizeInForce_iff`).
-/

namespace Hackterm

open Streaming

/-- The two size commands. -/
inductive SizeCommand where
  | normal
  | double
deriving DecidableEq

/-- The text of a command. -/
def SizeCommand.word : SizeCommand → List UInt8
  | .normal => CString.ascii "HTERMFNORMAL"
  | .double => CString.ascii "HTERMFDOUBLE"

/-- The cell that a command names. -/
def SizeCommand.cell : SizeCommand → Int × Int
  | .normal => (8, 16)
  | .double => (16, 32)

/-- The cell of a font. -/
def Nunifont.cell (font : Nunifont) : Int × Int := (font.width, font.height)

/-- The command stands at an offset of the text, with another byte behind it. -/
def SizeCommand.CompleteAt (command : SizeCommand) (text : List UInt8) (offset : Nat) : Prop :=
  offset + command.word.length < text.length ∧ OccursAt command.word text offset

instance (command : SizeCommand) (text : List UInt8) (offset : Nat) :
    Decidable (command.CompleteAt text offset) :=
  inferInstanceAs (Decidable (_ ∧ _))

/-- The complete command at an offset of the text. -/
def commandAt (text : List UInt8) (offset : Nat) : Option SizeCommand :=
  if SizeCommand.normal.CompleteAt text offset then some .normal
  else if SizeCommand.double.CompleteAt text offset then some .double
  else none

/-- The last complete command of the text. -/
def lastCommand (text : List UInt8) : Option SizeCommand :=
  lastHit (commandAt text) text.length

/-- The cell that the last command of the text names, or the initial one. -/
def sizeInForce (initial : Int × Int) (text : List UInt8) : Int × Int :=
  (lastCommand text).elim initial SizeCommand.cell

/-- A chunk of text while no image is being received, with all the text so far. -/
def textCall (png : Libpng) (st : List UInt8 × InlineData) (data : List UInt8) :
    Option (List UInt8 × InlineData) :=
  if st.2.processingPng then none
  else (inlineDataReceive png st.2 data).map fun received => (st.1 ++ data, received.1)

/-- The first complete occurrence of the command lies behind the first byte of the text. -/
def SizeCommand.BehindFirst (command : SizeCommand) (text : List UInt8) : Prop :=
  ∃ offset, command.CompleteAt text offset ∧
    (∀ earlier, earlier < offset → ¬ command.CompleteAt text earlier) ∧ 0 < offset

/-- A double size behind the first byte of the buffer is its last command. So is a normal size
where no double size is. Where there is neither, the text so far names the same size with the
chunk as without it. -/
structure ObeysLast (initial : Int × Int) (st : List UInt8 × InlineData) (data : List UInt8) :
    Prop where
  double : SizeCommand.double.BehindFirst (st.2.bufferPush data).buffer.contents →
    lastCommand (st.2.bufferPush data).buffer.contents = some .double
  normal : ¬ SizeCommand.double.BehindFirst (st.2.bufferPush data).buffer.contents →
    SizeCommand.normal.BehindFirst (st.2.bufferPush data).buffer.contents →
      lastCommand (st.2.bufferPush data).buffer.contents = some .normal
  neither : ¬ SizeCommand.double.BehindFirst (st.2.bufferPush data).buffer.contents →
    ¬ SizeCommand.normal.BehindFirst (st.2.bufferPush data).buffer.contents →
      sizeInForce initial (st.1 ++ data) = sizeInForce initial st.1

/-- One place has one command. -/
theorem commandAt_eq_some_iff (text : List UInt8) (offset : Nat) (command : SizeCommand) :
    commandAt text offset = some command ↔ command.CompleteAt text offset := by
  have apart : SizeCommand.normal.CompleteAt text offset →
      ¬ SizeCommand.double.CompleteAt text offset := by
    rintro ⟨-, normal⟩ ⟨-, double⟩
    exact absurd (List.prefix_of_prefix_length_le normal double (by decide)) (by decide)
  unfold commandAt
  cases command with
  | normal => split_ifs <;> simp_all
  | double => split_ifs <;> simp_all

/-- A command of the end of a text is one of the text. -/
theorem completeAt_append (command : SizeCommand) (front back : List UInt8) (offset : Nat) :
    command.CompleteAt (front ++ back) (front.length + offset) ↔ command.CompleteAt back offset := by
  unfold SizeCommand.CompleteAt OccursAt
  rw [List.drop_append, List.drop_eq_nil_of_le (by omega), List.nil_append,
    Nat.add_sub_cancel_left, List.length_append, Nat.add_assoc, Nat.add_lt_add_iff_left]

theorem commandAt_append (front back : List UInt8) (offset : Nat) :
    commandAt (front ++ back) (front.length + offset) = commandAt back offset := by
  simp only [commandAt, completeAt_append]

/-- The last command of the end of a text is the last one of the text. -/
theorem lastCommand_of_suffix {text suffix : List UInt8} {command : SizeCommand}
    (ends : suffix <:+ text) (last : lastCommand suffix = some command) :
    lastCommand text = some command := by
  obtain ⟨front, rfl⟩ := ends
  obtain ⟨place, below, found, none_later⟩ := (lastHit_eq_some_iff _ _ _).mp last
  apply (lastHit_eq_some_iff _ _ _).mpr
  refine ⟨front.length + place, by rw [List.length_append]; omega, ?_, ?_⟩
  · rw [commandAt_append, found]
  · intro later inside behind
    obtain ⟨offset, rfl⟩ := Nat.exists_eq_add_of_le (Nat.le_of_add_right_le behind.le)
    rw [List.length_append] at inside
    rw [commandAt_append]
    exact none_later offset (by omega) (by omega)

/-- A command is obeyed where its first complete occurrence lies behind the first byte. -/
theorem obeys_iff (st : InlineData) (command : SizeCommand) :
    st.obeys command.word = true ↔ command.BehindFirst st.buffer.contents := by
  unfold InlineData.obeys SizeCommand.BehindFirst
  rw [Option.any_eq_true]
  constructor
  · rintro ⟨place, found, behind⟩
    obtain ⟨inside, here, first⟩ := (bufferSearch_eq_some_iff _ _ _).mp found
    exact ⟨place, ⟨inside, here⟩, fun earlier below complete => first earlier below complete.2,
      of_decide_eq_true behind⟩
  · rintro ⟨place, ⟨inside, here⟩, first, behind⟩
    refine ⟨place, (bufferSearch_eq_some_iff _ _ _).mpr ⟨inside, here, ?_⟩, decide_eq_true behind⟩
    exact fun earlier below occurs => first earlier below ⟨by omega, occurs⟩

/-- A buffer with a command that is obeyed has a last command. -/
theorem SizeCommand.BehindFirst.lastCommand {command : SizeCommand} {text : List UInt8}
    (behind : command.BehindFirst text) : ∃ last, lastCommand text = some last := by
  obtain ⟨place, complete, -⟩ := behind
  have inside := complete.1
  exact lastHit_isSome (commandAt text) _ place command (by omega)
    ((commandAt_eq_some_iff _ _ _).mpr complete)

/-- The buffer ends the text so far, and the cell is the one in force. -/
structure InForce (initial : Int × Int) (st : List UInt8 × InlineData) : Prop where
  buffered : st.2.buffer.contents <:+ st.1
  cell : st.2.nunifont.cell = sizeInForce initial st.1

/-- The pushed buffer ends the text with the chunk. -/
theorem bufferPush_suffix (st : InlineData) (received data : List UInt8)
    (buffered : st.buffer.contents <:+ received) :
    (st.bufferPush data).buffer.contents <:+ received ++ data := by
  obtain ⟨front, rfl⟩ := buffered
  have pushed : (st.buffer.pushAll data).contents <:+ st.buffer.contents ++ data := by
    rw [Window.pushAll_contents]
    exact rtake_suffix _ _
  rw [List.append_assoc]
  exact pushed.trans (List.suffix_append _ _)

/-- The buffer goes on ending the text. -/
theorem receiveText_suffix (png : Libpng) (st next : InlineData) (received data : List UInt8)
    (code : Nat) (buffered : st.buffer.contents <:+ received)
    (call : receiveText png st data = some (next, code)) :
    next.buffer.contents <:+ received ++ data := by
  obtain ⟨font, same⟩ := receiveText_eq png st data
  rw [same] at call
  dsimp only at call
  split at call
  · obtain ⟨rfl, -⟩ := Prod.mk.inj (Option.some.inj call)
    exact bufferPush_suffix st received data buffered
  · obtain ⟨_, -, drained, -⟩ := openImage_cases png _ next _ code call
    rw [drained, Window.contents_empty]
    exact List.nil_suffix

theorem SizeCommand.cell_inj (first second : SizeCommand) :
    first.cell = second.cell ↔ first = second := by
  cases first <;> cases second <;> decide

/-- A command obeyed in the buffer leaves the cell in force exactly where it is the last
command of the buffer. -/
theorem cell_of_obeyed (initial : Int × Int) {buffer text : List UInt8}
    {command : SizeCommand} (ends : buffer <:+ text) (behind : command.BehindFirst buffer) :
    command.cell = sizeInForce initial text ↔ lastCommand buffer = some command := by
  obtain ⟨last, found⟩ := behind.lastCommand
  rw [sizeInForce, lastCommand_of_suffix ends found, Option.elim_some, SizeCommand.cell_inj, found,
    Option.some_inj]
  exact eq_comm

/-- What a chunk of text commands, in the words of the commands. -/
theorem commandedSize_text (st : InlineData) (data : List UInt8) (idle : st.processingPng = false) :
    commandedSize st data =
      if (st.bufferPush data).obeys SizeCommand.double.word then some 32
      else if (st.bufferPush data).obeys SizeCommand.normal.word then some 16
      else none := by
  rw [commandedSize, idle, if_neg Bool.false_ne_true]
  rfl

/-- The cell a chunk of text leaves is in force as the condition says. -/
theorem commandedFont_inForce (initial : Int × Int) (st : InlineData) (received data : List UInt8)
    (idle : st.processingPng = false) (inForce : InForce initial (received, st)) :
    (commandedFont st.nunifont (commandedSize st data)).cell =
        sizeInForce initial (received ++ data) ↔ ObeysLast initial (received, st) data := by
  have ends := bufferPush_suffix st received data inForce.buffered
  have obeysLast : ObeysLast initial (received, st) data ↔ _ ∧ _ ∧ _ :=
    ⟨fun last => ⟨last.double, last.normal, last.neither⟩, fun ⟨one, two, none_⟩ => ⟨one, two, none_⟩⟩
  rw [commandedSize_text st data idle, obeysLast]
  split_ifs with double normal
  all_goals rw [obeys_iff] at double
  · exact (cell_of_obeyed initial ends double).trans (by simp [double])
  · rw [obeys_iff] at normal
    exact (cell_of_obeyed initial ends normal).trans (by simp [double, normal])
  · rw [obeys_iff] at normal
    have kept : st.nunifont.cell = sizeInForce initial received := inForce.cell
    rw [commandedFont, Option.elim_none, kept]
    exact eq_comm.trans (by simp [double, normal])

/-- **The last size command.** Along a run of chunks received while no image is, from the
initial state with any font, the cell after every chunk is the one that the last complete
command of the text names, exactly where every chunk obeys the last command. -/
theorem sizeInForce_iff (png : Libpng) (font : Nunifont) (chunks : List (List UInt8)) :
    Throughout (textCall png) ([], { inlineStatic with nunifont := font }) chunks
        (fun st => st.2.nunifont.cell = sizeInForce font.cell st.1) ↔
      EveryStep (textCall png) ([], { inlineStatic with nunifont := font }) chunks
        (ObeysLast font.cell) := by
  have step : ∀ before data after, InForce font.cell before →
      textCall png before data = some after →
        after.2.buffer.contents <:+ after.1 ∧
          (after.2.nunifont.cell = sizeInForce font.cell after.1 ↔
            ObeysLast font.cell before data) := by
    rintro ⟨received, st⟩ data after inForce call
    unfold textCall at call
    split at call
    · cases call
    · rename_i idle
      obtain ⟨⟨next, code⟩, stepped, rfl⟩ := Option.map_eq_some_iff.mp call
      have text : receiveText png st data = some (next, code) := by
        rwa [inlineDataReceive, if_neg idle] at stepped
      refine ⟨receiveText_suffix png st next received data code inForce.buffered text, ?_⟩
      dsimp only
      rw [inlineDataReceive_nunifont stepped]
      exact commandedFont_inForce font.cell st received data (Bool.not_eq_true _ ▸ idle) inForce
  apply throughout_iff_everyStep (InForce font.cell)
  · intro st inForce
    exact inForce.cell
  · intro before data after inForce call obeys
    obtain ⟨buffered, named⟩ := step before data after inForce call
    exact ⟨buffered, named.mpr obeys⟩
  · intro before data after inForce call named
    exact (step before data after inForce call).2.mp named
  · exact ⟨List.suffix_refl _, rfl⟩

/-- A normal size behind a double size that is still in the buffer is not obeyed. -/
theorem sizeInForce_overridden :
    ¬ Throughout (textCall ⟨fun _ => true, fun _ _ => none⟩) ([], inlineStatic)
        [CString.ascii " HTERMFDOUBLE ", CString.ascii "HTERMFNORMAL "]
        (fun st => st.2.nunifont.cell = sizeInForce (8, 16) st.1) := by
  intro throughout
  obtain ⟨last, received, cell, named⟩ : ∃ last,
      [CString.ascii " HTERMFDOUBLE ", CString.ascii "HTERMFNORMAL "].foldlM
          (textCall ⟨fun _ => true, fun _ _ => none⟩) ([], inlineStatic) = some last ∧
        last.2.nunifont.cell = (16, 32) ∧ sizeInForce (8, 16) last.1 = (8, 16) :=
    ⟨_, rfl, by decide, by decide⟩
  have inForce := throughout _ last (List.prefix_refl _) received
  dsimp only at inForce
  rw [cell, named] at inForce
  exact absurd inForce (by decide)

end Hackterm
