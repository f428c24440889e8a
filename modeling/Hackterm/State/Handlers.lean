import Hackterm.Parser.Calls
import Hackterm.State.Glyphs
import Hackterm.State.Pen
import Hackterm.State.Tabs

/-! # The handlers of the terminal

The calls of the parser are handled by the state of the terminal
(`Hackterm.VTermState.handle`). A control, an escape sequence and a CSI sequence are first
told apart, and then do what their function is. Where the code would read or write outside
an array or an `int` would overflow, a handler has no result.
-/

namespace Hackterm

open BitFields

/-- The functions of `on_control`. -/
inductive ControlFunction where
  | bel
  | bs
  | ht
  | lf
  | cr
  | ls1
  | ls0
  | ind
  | nel
  | hts
  | ri
deriving DecidableEq

/-- The function of a control. VT and FF are LF. -/
def controlFunction (control : UInt8) : Option ControlFunction :=
  [(0x07, .bel), (0x08, .bs), (0x09, .ht), (0x0A, .lf), (0x0B, .lf), (0x0C, .lf), (0x0D, .cr),
    (0x0E, .ls1), (0x0F, .ls0), (0x84, .ind), (0x85, .nel), (0x88, .hts),
    (0x8D, .ri)].lookup control

/-- The functions of `on_escape`. -/
inductive EscapeFunction where
  | decaln
  | scs (set : Fin 4) (designation : UInt8)
  | decsc
  | decrc
  | deckpam
  | deckpnm
  | ris
  | ls2
  | ls3
deriving DecidableEq

/-- The function of an escape sequence, which is told from its first byte. -/
def escapeFunction : List UInt8 → Option EscapeFunction
  | [] => none
  | first :: rest =>
      if first = 0x23 then if rest = [0x38] then some .decaln else none
      else if 0x28 ≤ first ∧ first ≤ 0x2B then
        match rest with
        | [designation] => some (.scs (Fin.ofNat 4 (first.toNat - 0x28)) designation)
        | _ => none
      else [(0x37, .decsc), (0x38, .decrc), (0x3D, .deckpam), (0x3E, .deckpnm), (0x63, .ris),
        (0x6E, .ls2), (0x6F, .ls3)].lookup first

/-- The functions of `on_csi`. -/
inductive CsiFunction where
  | ich
  | cuu
  | cud
  | cuf
  | cub
  | cnl
  | cpl
  | cha
  | cup
  | cht
  | ed
  | el
  | il
  | dl
  | dch
  | su
  | sd
  | ech
  | cbt
  | hpa
  | hpr
  | da
  | vpa
  | vpr
  | hvp
  | tbc
  | sm
  | decsm
  | hpb
  | vpb
  | rm
  | decrm
  | sgr
  | dsr
  | decscusr
  | decstbm
  | save
  | restore
deriving DecidableEq

/-- The cases of `on_csi`, by the intermediate byte, the leader and the command. DECSTR has an
intermediate byte that is refused before. -/
def csiFunctions : List ((UInt8 × UInt8 × UInt8) × CsiFunction) :=
  [((0, 0, 0x40), .ich), ((0, 0, 0x41), .cuu), ((0, 0, 0x42), .cud), ((0, 0, 0x43), .cuf),
    ((0, 0, 0x44), .cub), ((0, 0, 0x45), .cnl), ((0, 0, 0x46), .cpl), ((0, 0, 0x47), .cha),
    ((0, 0, 0x48), .cup), ((0, 0, 0x49), .cht), ((0, 0, 0x4A), .ed), ((0, 0, 0x4B), .el),
    ((0, 0, 0x4C), .il), ((0, 0, 0x4D), .dl), ((0, 0, 0x50), .dch), ((0, 0, 0x53), .su),
    ((0, 0, 0x54), .sd), ((0, 0, 0x58), .ech), ((0, 0, 0x5A), .cbt), ((0, 0, 0x60), .hpa),
    ((0, 0, 0x61), .hpr), ((0, 0, 0x63), .da), ((0, 0x3E, 0x63), .da), ((0, 0, 0x64), .vpa),
    ((0, 0, 0x65), .vpr), ((0, 0, 0x66), .hvp), ((0, 0, 0x67), .tbc), ((0, 0, 0x68), .sm),
    ((0, 0x3F, 0x68), .decsm), ((0, 0, 0x6A), .hpb), ((0, 0, 0x6B), .vpb), ((0, 0, 0x6C), .rm),
    ((0, 0x3F, 0x6C), .decrm), ((0, 0, 0x6D), .sgr), ((0, 0, 0x6E), .dsr),
    ((0x20, 0, 0x71), .decscusr), ((0, 0, 0x72), .decstbm), ((0, 0, 0x73), .save),
    ((0, 0, 0x75), .restore)]

/-- The leader or the intermediate byte that a case is told by. -/
def csiByte (allowed : List UInt8) : List UInt8 → Option UInt8
  | [] => some 0
  | [byte] => if byte ∈ allowed then some byte else none
  | _ => none

/-- The function of a CSI sequence. -/
def csiFunction (event : CsiEvent) : Option CsiFunction := do
  let leaderByte ← csiByte [0x3F, 0x3E] event.leader
  let intermedByte ← csiByte [0x20] event.intermed
  csiFunctions.lookup (intermedByte, leaderByte, event.command)

/-- A case returns from `on_csi` before the cursor is kept in the screen. -/
def CsiFunction.returnsEarly (function : CsiFunction) (arg : Int) : Bool :=
  match function with
  | .el => ¬ (csiArgIsMissing arg ∨ csiArg arg ≤ 2)
  | .tbc => ¬ csiArgOr arg 0 ≤ 5
  | _ => false

namespace VTermState

/-- A mode is set or reset. -/
def setMode (mode : VTermMode) (state : VTermState) : VTermState := { state with mode := mode }

/-- `savecursor` that saves. -/
def savecursor (state : VTermState) : VTermState :=
  { vtermStateSavepen state with
    saved := ⟨state.pos, state.pen, state.mode.cursorVisible, state.mode.cursorBlink,
      state.mode.cursorShape⟩ }

/-- The calls for the properties of the cursor. -/
def cursorCalls (mode : VTermMode) : List StateCall :=
  [.settermprop (.cursorvisible mode.cursorVisible), .settermprop (.cursorblink mode.cursorBlink),
    .settermprop (.cursorshape mode.cursorShape)]

/-- `savecursor` that restores. -/
def restorecursor (state : VTermState) : Reaction :=
  let oldpos := state.pos
  let mode := { state.mode with
    cursorVisible := state.saved.cursorVisible
    cursorBlink := state.saved.cursorBlink
    cursorShape := state.saved.cursorShape }
  let restored := vtermStateRestorepen { state with pos := state.saved.pos, mode := mode }
  (restored.1.updatecursor oldpos true, cursorCalls mode ++ restored.2)

/-- `altscreen`. The screen has an alternate buffer, so it always switches. -/
def altscreen (alt : Bool) (state : VTermState) : Reaction :=
  (state.setMode { state.mode with altScreen := alt },
    .settermprop (.altscreen alt) :: if alt then [.erase state.fullRect] else [])

/-- `set_mode`. -/
def setAnsiMode (num : Nat) (val : Bool) (state : VTermState) : VTermState :=
  if num = 4 then state.setMode { state.mode with insert := val }
  else if num = 20 then state.setMode { state.mode with newline := val }
  else state

/-- The modes of `set_dec_mode`. The mouse modes are left out. -/
inductive DecMode where
  | cursor
  | reverse
  | origin
  | autowrap
  | cursorBlink
  | cursorVisible
  | altscreen
  | savecursor
  | altscreenSavecursor
deriving DecidableEq

/-- The numbers of `set_dec_mode`. -/
def decMode (num : Nat) : Option DecMode :=
  [(1, DecMode.cursor), (5, .reverse), (6, .origin), (7, .autowrap), (12, .cursorBlink),
    (25, .cursorVisible), (1047, .altscreen), (1048, .savecursor),
    (1049, .altscreenSavecursor)].lookup num

/-- `savecursor`. -/
def saveOrRestore (val : Bool) (state : VTermState) : Reaction :=
  if val then (state.savecursor, []) else state.restorecursor

/-- `set_dec_mode`. -/
def setDecMode (mode : DecMode) (val : Bool) (state : VTermState) : Reaction :=
  match mode with
  | .cursor => (state.setMode { state.mode with cursor := val }, [])
  | .reverse => (state, [.settermprop (.reverse val)])
  | .origin =>
      let moved := (state.setMode { state.mode with origin := val }).setRow
        (if val then state.scrollregionStart else 0)
      ((moved.setCol 0).updatecursor state.pos true, [])
  | .autowrap => (state.setMode { state.mode with autowrap := val }, [])
  | .cursorBlink =>
      (state.setMode { state.mode with cursorBlink := val }, [.settermprop (.cursorblink val)])
  | .cursorVisible =>
      (state.setMode { state.mode with cursorVisible := val }, [.settermprop (.cursorvisible val)])
  | .altscreen => state.altscreen val
  | .savecursor => state.saveOrRestore val
  | .altscreenSavecursor => (state.altscreen val).andThen (saveOrRestore val)

/-- The modes after `vterm_state_reset`. -/
def modeReset : VTermMode where
  keypad := false
  cursor := false
  autowrap := true
  insert := false
  newline := false
  cursorVisible := true
  cursorBlink := true
  cursorShape := cursorshapeBlock
  altScreen := false
  origin := false

/-- `vterm_state_reset` with `hard`. -/
def reset (defaultEnc : VTermEncoding) (state : VTermState) : Option Reaction :=
  (resetTabstops state.tabstops state.cols).map fun tabstops =>
    let drawn := vtermStateResetpen { state with
      scrollregionStart := 0
      scrollregionEnd := -1
      mode := modeReset
      tabstops := tabstops }
    ({ drawn.1 with
        encodings := state.encodings.reset defaultEnc
        pos := ⟨0, 0⟩
        atPhantom := false },
      drawn.2 ++ cursorCalls modeReset ++ [.erase state.fullRect])

/-- The cases of `on_control`. -/
def doControlFunction (state : VTermState) : ControlFunction → Option Reaction
  | .bel => some (state, [.bell])
  | .bs => some (if 0 < state.pos.col then state.setCol (state.pos.col - 1) else state, [])
  | .ht => (tab state.tabstops state.cols 1 1 state.pos.col).map fun col => (state.setCol col, [])
  | .lf => some <| (linefeed state).andThen fun state =>
      (if state.mode.newline then state.setCol 0 else state, [])
  | .cr => some (state.setCol 0, [])
  | .ls1 => some ({ state with encodings := state.encodings.setGl 1 }, [])
  | .ls0 => some ({ state with encodings := state.encodings.setGl 0 }, [])
  | .ind => some (linefeed state)
  | .nel => some <| (linefeed state).andThen fun state => (state.setCol 0, [])
  | .hts => (setColTabstop state.tabstops state.pos.col).map fun tabstops =>
      ({ state with tabstops := tabstops }, [])
  | .ri => some <|
      if state.pos.row = state.scrollregionStart then (state, scroll state.scrollregion (-1) 0)
      else (if 0 < state.pos.row then state.setRow (state.pos.row - 1) else state, [])

/-- `on_control`. -/
def onControl (control : UInt8) (state : VTermState) : Option Reaction :=
  match controlFunction control with
  | none => some (state, [])
  | some function =>
      (state.doControlFunction function).map fun reaction =>
        (reaction.1.updatecursor state.pos true, reaction.2)

/-- The positions of the screen, row by row. -/
def positions (state : VTermState) : List VTermPos :=
  (List.range state.rows).flatMap fun row : Nat =>
    (List.range state.cols).map fun col : Nat => ⟨row, col⟩

/-- The cases of `on_escape`. -/
def doEscapeFunction (state : VTermState) : EscapeFunction → Option Reaction
  | .decaln => some (state, state.positions.map fun pos => .putglyph [0x45] 1 pos)
  | .scs set designation =>
      some ({ state with encodings := state.encodings.designate set designation }, [])
  | .decsc => some (state.savecursor, [])
  | .decrc => some state.restorecursor
  | .deckpam => some (state.setMode { state.mode with keypad := true }, [])
  | .deckpnm => some (state.setMode { state.mode with keypad := false }, [])
  | .ris => state.reset .utf8
  | .ls2 => some ({ state with encodings := state.encodings.setGl 2 }, [])
  | .ls3 => some ({ state with encodings := state.encodings.setGl 3 }, [])

/-- `on_escape`. -/
def onEscape (bytes : List UInt8) (state : VTermState) : Option Reaction :=
  match escapeFunction bytes with
  | none => some (state, [])
  | some function => state.doEscapeFunction function

/-- The cursor is moved and leaves the phantom column. An `int` may overflow. -/
def moveTo (row col : Int) (state : VTermState) : Option Reaction :=
  if IsInt row ∧ IsInt col then some ({ state with pos := ⟨row, col⟩, atPhantom := false }, [])
  else none

/-- The row an argument names, from the scroll region on in origin mode. -/
def rowOf (arg : Int) (state : VTermState) : Int :=
  let row := csiArgOr arg 1 - 1
  if state.mode.origin then row + state.scrollregionStart else row

/-- The second argument as a number, or a default. -/
def secondOr (args : List Int) (default : Int) : Int :=
  match args with
  | _ :: arg :: _ => csiArgOr arg default
  | _ => default

/-- The rectangles of `ED`. -/
def eraseInDisplay (arg : Int) (state : VTermState) : List StateCall :=
  if csiArgIsMissing arg ∨ csiArg arg = 0 then
    (if state.pos.col < state.cols then [.erase state.rowFromCursor] else []) ++
      if state.pos.row + 1 < state.rows then
        [.erase ⟨state.pos.row + 1, state.rows, 0, state.cols⟩]
      else []
  else if csiArg arg = 1 then
    (if 0 < state.cols then [.erase ⟨0, state.pos.row, 0, state.cols⟩] else []) ++
      [.erase ⟨state.pos.row, state.pos.row + 1, 0, state.pos.col + 1⟩]
  else if csiArg arg = 2 then [.erase state.fullRect]
  else []

/-- The rectangle of `EL`. -/
def eraseInLine (arg : Int) (state : VTermState) : List StateCall :=
  let row := state.pos.row
  let rect : VTermRect :=
    if csiArg arg = 1 then ⟨row, row + 1, 0, state.pos.col + 1⟩
    else if csiArg arg = 2 then ⟨row, row + 1, 0, state.cols⟩
    else state.rowFromCursor
  if rect.startCol < rect.endCol then [.erase rect] else []

/-- `TBC`. -/
def clearTabs (arg : Int) (state : VTermState) : Option VTermState :=
  if csiArgOr arg 0 = 0 then
    (clearColTabstop state.tabstops state.pos.col).map fun tabstops =>
      { state with tabstops := tabstops }
  else if csiArgOr arg 0 = 3 ∨ csiArgOr arg 0 = 5 then
    (clearTabstops state.tabstops state.cols).map fun tabstops =>
      { state with tabstops := tabstops }
  else some state

/-- `DECSCUSR`. -/
def setCursorShape (arg : Int) (state : VTermState) : Reaction :=
  let style := csiArgOr arg 1
  let mode :=
    if style = 0 ∨ style = 1 then
      { state.mode with cursorBlink := true, cursorShape := cursorshapeBlock }
    else if style = 2 then { state.mode with cursorBlink := false, cursorShape := cursorshapeBlock }
    else if style = 3 then
      { state.mode with cursorBlink := true, cursorShape := cursorshapeUnderline }
    else if style = 4 then
      { state.mode with cursorBlink := false, cursorShape := cursorshapeUnderline }
    else state.mode
  (state.setMode mode, [.settermprop (.cursorblink mode.cursorBlink),
    .settermprop (.cursorshape mode.cursorShape)])

/-- `DECSTBM`. Nothing is checked. -/
def setScrollregion (args : List Int) (state : VTermState) : VTermState :=
  let start := csiArgOr (args.headD csiArgMissing) 1 - 1
  let bottom := secondOr args (-1)
  { state with
    scrollregionStart := start
    scrollregionEnd := if start = 0 ∧ bottom = state.rows then -1 else bottom }

/-- Modes are set or reset by a first argument that is there. -/
def changeMode (arg : Int) (change : Nat → VTermState → Reaction) (state : VTermState) : Reaction :=
  if csiArgIsMissing arg then (state, []) else change (csiArg arg) state

/-- The cases of `on_csi`. -/
def doCsiFunction (state : VTermState) (args : List Int) : CsiFunction → Option Reaction
  | .ich => some (state, scroll state.rowFromCursor 0 (-count))
  | .cuu | .vpb => state.moveTo (row - count) col
  | .cud | .vpr => state.moveTo (row + count) col
  | .cuf | .hpr => state.moveTo row (col + count)
  | .cub | .hpb => state.moveTo row (col - count)
  | .cnl => state.moveTo (row + count) 0
  | .cpl => state.moveTo (row - count) 0
  | .cha | .hpa => state.moveTo row (csiArgOr arg 1 - 1)
  | .cup | .hvp => state.moveTo (state.rowOf arg) (secondOr args 1 - 1)
  | .vpa => state.moveTo (state.rowOf arg) col
  | .cht => (tab state.tabstops state.cols 1 count.toNat col).map fun col => (state.setCol col, [])
  | .cbt =>
      (tab state.tabstops state.cols (-1) count.toNat col).map fun col => (state.setCol col, [])
  | .ed => some (state, state.eraseInDisplay arg)
  | .el => some (state, state.eraseInLine arg)
  | .il => some (state, scroll ⟨row, state.scrollregionBottom, 0, state.cols⟩ (-count) 0)
  | .dl => some (state, scroll ⟨row, state.scrollregionBottom, 0, state.cols⟩ count 0)
  | .dch => some (state, scroll state.rowFromCursor 0 count)
  | .su => some (state, scroll state.scrollregion count 0)
  | .sd => some (state, scroll state.scrollregion (-count) 0)
  | .ech =>
      if IsInt (col + count) then some (state, [.erase ⟨row, row + 1, col, col + count⟩])
      else none
  | .da | .dsr => some (state, [])
  | .tbc => (state.clearTabs arg).map (·, [])
  | .sm => some (state.changeMode arg fun num state => (state.setAnsiMode num true, []))
  | .rm => some (state.changeMode arg fun num state => (state.setAnsiMode num false, []))
  | .decsm => some (state.changeMode arg fun num state =>
      (decMode num).elim (state, []) (setDecMode · true state))
  | .decrm => some (state.changeMode arg fun num state =>
      (decMode num).elim (state, []) (setDecMode · false state))
  | .sgr => vtermStateSetpen args state
  | .decscusr => some (state.setCursorShape arg)
  | .decstbm => some (state.setScrollregion args, [])
  | .save => some (state.savecursor, [])
  | .restore => some state.restorecursor
where
  row := state.pos.row
  col := state.pos.col
  arg := args.headD csiArgMissing
  count := csiArgCount arg

/-- `LBOUND` and then `UBOUND`. -/
def bounded (low high number : Int) : Int :=
  let number := if number < low then low else number
  if high < number then high else number

/-- The cursor is kept in the screen, or in the scroll region in origin mode. -/
def boundCursor (state : VTermState) : VTermState :=
  let col := bounded 0 (state.cols - 1) state.pos.col
  let row :=
    if state.mode.origin then
      bounded state.scrollregionStart (state.scrollregionEnd - 1) state.pos.row
    else bounded 0 (state.rows - 1) state.pos.row
  { state with pos := ⟨row, col⟩ }

/-- `on_csi`. -/
def onCsi (event : CsiEvent) (state : VTermState) : Option Reaction :=
  match csiFunction event with
  | none => some (state, [])
  | some function =>
      if function.returnsEarly (event.args.headD csiArgMissing) then some (state, [])
      else
        (state.doCsiFunction event.args function).map fun reaction =>
          (reaction.1.boundCursor.updatecursor state.pos true, reaction.2)

/-- `on_resize`. -/
def onResize (rows cols : Nat) (state : VTermState) : Option Reaction :=
  (if cols = state.cols then some state.tabstops
    else resizeTabstops state.tabstops state.cols cols).map fun tabstops =>
      let row := if rows ≤ state.pos.row then (rows : Int) - 1 else state.pos.row
      let col := if cols ≤ state.pos.col then (cols : Int) - 1 else state.pos.col
      let leaves := state.atPhantom = true ∧ col < cols - 1
      let resized := { state with
        tabstops := tabstops
        rows := rows
        cols := cols
        pos := ⟨row, if leaves then col + 1 else col⟩
        atPhantom := if leaves then false else state.atPhantom }
      (resized.updatecursor state.pos true, [.resize rows cols])

/-- A call of the parser. OSC sequences set properties that the screen ignores, and DCS
sequences are answered to the host. -/
def handle (state : VTermState) : ParserCall → Option Reaction
  | .text bytes => state.onText bytes
  | .control control => state.onControl control
  | .escape bytes => state.onEscape bytes
  | .csi event => state.onCsi event
  | .osc _ | .dcs _ => some (state, [])

end VTermState

/-- What happens to the terminal: a call of the parser, or a change of its size. -/
inductive TermEvent where
  | call (call : ParserCall)
  | resize (rows cols : Nat)

/-- The handler of an event. -/
def VTermState.react (state : VTermState) : TermEvent → Option Reaction
  | .call call => state.handle call
  | .resize rows cols => state.onResize rows cols

/-- The state that an event leaves. -/
def VTermState.step (state : VTermState) (event : TermEvent) : Option VTermState :=
  (state.react event).map Prod.fst

/-- `vterm_state_new` and `vterm_obtain_state`, in memory that was zero. -/
def vtermStateNew (rows cols : Nat) : VTermState where
  rows := rows
  cols := cols
  pos := ⟨0, 0⟩
  atPhantom := false
  scrollregionStart := 0
  scrollregionEnd := 0
  tabstops := List.replicate ((cols + 7) / 8) 0
  combineChars := List.replicate combineCharsSize 0
  combineWidth := 0
  combinePos := ⟨0, 0⟩
  mode := ⟨false, false, false, false, false, false, false, 0, false, false⟩
  encodings := ⟨fun _ => ⟨.usascii, ⟨0, 0, 0⟩⟩, ⟨0, 0, 0⟩, 0⟩
  pen := ⟨⟨0, 0, 0⟩, ⟨0, 0, 0⟩, false, 0, false, false, false, false, 0⟩
  defaultFg := ⟨240, 240, 240⟩
  defaultBg := ⟨0, 0, 0⟩
  fgAnsi := 0
  boldIsHighbright := true
  saved :=
    ⟨⟨0, 0⟩, ⟨⟨0, 0, 0⟩, ⟨0, 0, 0⟩, false, 0, false, false, false, false, 0⟩, false, false, 0⟩

/-- The terminal after `vterm_initialisation`, which resets it before the parser is set to
UTF-8. -/
def vtermStateStart (rows cols : Nat) : Option Reaction := (vtermStateNew rows cols).reset .usascii

end Hackterm
