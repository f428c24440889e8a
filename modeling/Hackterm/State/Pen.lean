import Hackterm.State.Basic

/-! # The pen

The terminal keeps the pen in its state and tells the screen of each attribute that it
changes. Selecting a rendition goes through its parameters, some of which take the next ones
as a colour (`Hackterm.vtermStateSetpen`). Whatever is selected, saved or restored, the
screen draws with the pen of the state (`Hackterm.Reaction.SamePen`).
-/

namespace Hackterm

open BitFields

/-- `ansi_colors`. -/
def ansiColors : List VTermColor :=
  [⟨0, 0, 0⟩, ⟨224, 0, 0⟩, ⟨0, 224, 0⟩, ⟨224, 224, 0⟩, ⟨0, 0, 224⟩, ⟨224, 0, 224⟩, ⟨0, 224, 224⟩,
    ⟨224, 224, 224⟩, ⟨128, 128, 128⟩, ⟨255, 64, 64⟩, ⟨64, 255, 64⟩, ⟨255, 255, 64⟩, ⟨64, 64, 255⟩,
    ⟨255, 64, 255⟩, ⟨64, 255, 255⟩, ⟨255, 255, 255⟩]

/-- `ramp6`. -/
def ramp6 : List UInt8 := [0x00, 0x33, 0x66, 0x99, 0xCC, 0xFF]

/-- `ramp24`. -/
def ramp24 : List UInt8 :=
  [0x00, 0x0B, 0x16, 0x21, 0x2C, 0x37, 0x42, 0x4D, 0x58, 0x63, 0x6E, 0x79, 0x85, 0x90, 0x9B, 0xA6,
    0xB1, 0xBC, 0xC7, 0xD2, 0xDD, 0xE8, 0xF3, 0xFF]

/-- `lookup_colour_ansi`. An index outside the table leaves the colour. -/
def lookupColourAnsi (index : Nat) (col : VTermColor) : VTermColor := ansiColors.getD index col

/-- The 256 colours of palette 5. -/
def lookupColourIndexed (index : Nat) (col : VTermColor) : VTermColor :=
  if index < 16 then lookupColourAnsi index col
  else if index < 232 then
    let index := index - 16
    ⟨ramp6.getD (index / 6 / 6 % 6) 0, ramp6.getD (index / 6 % 6) 0, ramp6.getD (index % 6) 0⟩
  else if index < 256 then
    let grey := ramp24.getD (index - 232) 0
    ⟨grey, grey, grey⟩
  else col

/-- `lookup_colour`: the colour, and how many arguments behind the palette it takes. -/
def lookupColour (palette : Nat) (args : List Int) (col : VTermColor) : VTermColor × Nat :=
  match palette, args with
  | 2, red :: green :: blue :: _ =>
      (⟨UInt8.ofNat (csiArg red), UInt8.ofNat (csiArg green), UInt8.ofNat (csiArg blue)⟩, 3)
  | 2, args => (col, args.length)
  | 5, index :: _ =>
      (if csiArgIsMissing index then col else lookupColourIndexed (csiArg index) col, 1)
  | 5, [] => (col, 0)
  | _, _ => (col, 0)

/-- The pen of the state is changed and the screen is told. -/
def setpenattr (pen : ScreenPen) (attr : PenAttr) (state : VTermState) : Reaction :=
  ({ state with pen := pen }, [.setpenattr attr])

/-- `set_pen_col_ansi` for the foreground. -/
def setPenFgAnsi (col : Nat) (state : VTermState) : Reaction :=
  let fg := lookupColourAnsi col state.pen.fg
  setpenattr { state.pen with fg := fg } (.foreground fg) state

/-- `set_pen_col_ansi` for the background. -/
def setPenBgAnsi (col : Nat) (state : VTermState) : Reaction :=
  let bg := lookupColourAnsi col state.pen.bg
  setpenattr { state.pen with bg := bg } (.background bg) state

/-- The calls that tell the screen of a whole pen. -/
def penCalls (pen : ScreenPen) : List StateCall :=
  [.setpenattr (.bold pen.bold), .setpenattr (.underline pen.underline),
    .setpenattr (.italic pen.italic), .setpenattr (.blink pen.blink),
    .setpenattr (.reverse pen.reverse), .setpenattr (.strike pen.strike),
    .setpenattr (.font pen.font), .setpenattr (.foreground pen.fg),
    .setpenattr (.background pen.bg)]

/-- `vterm_state_resetpen`. -/
def vtermStateResetpen (state : VTermState) : Reaction :=
  let pen : ScreenPen := ⟨state.defaultFg, state.defaultBg, false, 0, false, false, false, false, 0⟩
  ({ state with pen := pen, fgAnsi := -1 }, penCalls pen)

/-- `vterm_state_savepen` that saves. -/
def vtermStateSavepen (state : VTermState) : VTermState :=
  { state with saved := { state.saved with pen := state.pen } }

/-- `vterm_state_savepen` that restores. -/
def vtermStateRestorepen (state : VTermState) : Reaction :=
  ({ state with pen := state.saved.pen }, penCalls state.saved.pen)

/-- The cases of `vterm_state_setpen` that take one parameter. -/
inductive SgrParameter where
  | reset
  | boldOn
  | italicOn
  | underlineSingle
  | blinkOn
  | reverseOn
  | strikethroughOn
  | selectFont (number : Nat)
  | underlineDouble
  | boldOff
  | italicOff
  | underlineOff
  | blinkOff
  | reverseOff
  | strikethroughOff
  | foreground (number : Nat)
  | foregroundDefault
  | background (number : Nat)
  | backgroundDefault
  | foregroundHighIntensity (number : Nat)
  | backgroundHighIntensity (number : Nat)

/-- The case of an argument. -/
def sgrParameter (arg : Nat) : Option SgrParameter :=
  if arg = 2 ^ 31 - 1 ∨ arg = 0 then some .reset
  else if arg = 1 then some .boldOn
  else if arg = 3 then some .italicOn
  else if arg = 4 then some .underlineSingle
  else if arg = 5 then some .blinkOn
  else if arg = 7 then some .reverseOn
  else if arg = 9 then some .strikethroughOn
  else if 10 ≤ arg ∧ arg ≤ 19 then some (.selectFont (arg - 10))
  else if arg = 21 then some .underlineDouble
  else if arg = 22 then some .boldOff
  else if arg = 23 then some .italicOff
  else if arg = 24 then some .underlineOff
  else if arg = 25 then some .blinkOff
  else if arg = 27 then some .reverseOff
  else if arg = 29 then some .strikethroughOff
  else if 30 ≤ arg ∧ arg ≤ 37 then some (.foreground (arg - 30))
  else if arg = 39 then some .foregroundDefault
  else if 40 ≤ arg ∧ arg ≤ 47 then some (.background (arg - 40))
  else if arg = 49 then some .backgroundDefault
  else if 90 ≤ arg ∧ arg ≤ 97 then some (.foregroundHighIntensity (arg - 90))
  else if 100 ≤ arg ∧ arg ≤ 107 then some (.backgroundHighIntensity (arg - 100))
  else none

/-- What a parameter selects. -/
def setpenParameter (parameter : SgrParameter) (state : VTermState) : Reaction :=
  let pen := state.pen
  match parameter with
  | .reset => vtermStateResetpen state
  | .boldOn =>
      (setpenattr { pen with bold := true } (.bold true) state).andThen fun state =>
        if -1 < state.fgAnsi ∧ state.boldIsHighbright = true then
          setPenFgAnsi (state.fgAnsi.toNat + if state.pen.bold then 8 else 0) state
        else (state, [])
  | .italicOn => setpenattr { pen with italic := true } (.italic true) state
  | .underlineSingle => setpenattr { pen with underline := 1 } (.underline 1) state
  | .blinkOn => setpenattr { pen with blink := true } (.blink true) state
  | .reverseOn => setpenattr { pen with reverse := true } (.reverse true) state
  | .strikethroughOn => setpenattr { pen with strike := true } (.strike true) state
  | .selectFont number =>
      setpenattr { pen with font := Fin.ofNat 16 number } (.font (Fin.ofNat 16 number)) state
  | .underlineDouble => setpenattr { pen with underline := 2 } (.underline 2) state
  | .boldOff => setpenattr { pen with bold := false } (.bold false) state
  | .italicOff => setpenattr { pen with italic := false } (.italic false) state
  | .underlineOff => setpenattr { pen with underline := 0 } (.underline 0) state
  | .blinkOff => setpenattr { pen with blink := false } (.blink false) state
  | .reverseOff => setpenattr { pen with reverse := false } (.reverse false) state
  | .strikethroughOff => setpenattr { pen with strike := false } (.strike false) state
  | .foreground value =>
      setPenFgAnsi (if pen.bold = true ∧ state.boldIsHighbright = true then value + 8 else value)
        { state with fgAnsi := value }
  | .foregroundDefault =>
      setpenattr { pen with fg := state.defaultFg } (.foreground state.defaultFg)
        { state with fgAnsi := -1 }
  | .background value => setPenBgAnsi value state
  | .backgroundDefault =>
      setpenattr { pen with bg := state.defaultBg } (.background state.defaultBg) state
  | .foregroundHighIntensity value => setPenFgAnsi (value + 8) { state with fgAnsi := -1 }
  | .backgroundHighIntensity value => setPenBgAnsi (value + 8) state

/-- A turn of the loop of `vterm_state_setpen`, and how many of the next arguments it takes.
A palette behind the last argument is read from where no argument is, which is undefined. -/
def setpenStep (arg : Int) (rest : List Int) (state : VTermState) : Option (Reaction × Nat) :=
  if csiArg arg = 38 then
    match rest with
    | [] => none
    | palette :: args =>
        let (fg, count) := lookupColour (csiArg palette) args state.pen.fg
        some (setpenattr { state.pen with fg := fg } (.foreground fg) { state with fgAnsi := -1 },
          1 + count)
  else if csiArg arg = 48 then
    match rest with
    | [] => none
    | palette :: args =>
        let (bg, count) := lookupColour (csiArg palette) args state.pen.bg
        some (setpenattr { state.pen with bg := bg } (.background bg) state, 1 + count)
  else some ((sgrParameter (csiArg arg)).elim (state, []) (setpenParameter · state), 0)

/-- How many arguments go on the first one. The flag of the last argument is followed by no
argument. -/
def moreArgs : List Int → Option Nat
  | [] => none
  | arg :: rest => if csiArgHasMore arg then (moreArgs rest).map (· + 1) else some 0

/-- The loop of `vterm_state_setpen`, behind so many arguments that were taken. -/
def setpenLoop : Nat → List Int → VTermState → Option Reaction
  | _, [], state => some (state, [])
  | skip + 1, _ :: rest, state => setpenLoop skip rest state
  | 0, arg :: rest, state =>
      (setpenStep arg rest state).bind fun (reaction, count) =>
        (moreArgs ((arg :: rest).drop count)).bind fun more =>
          (setpenLoop (count + more) rest reaction.1).map fun later =>
            (later.1, reaction.2 ++ later.2)

/-- `vterm_state_setpen`. -/
def vtermStateSetpen (args : List Int) (state : VTermState) : Option Reaction :=
  setpenLoop 0 args state

/-- The screen follows the pen of the state. -/
def Reaction.SamePen (state : VTermState) (reaction : Reaction) : Prop :=
  penAfter state.pen reaction.2 = reaction.1.pen

theorem penAfter_append (pen : ScreenPen) (front back : List StateCall) :
    penAfter pen (front ++ back) = penAfter (penAfter pen front) back :=
  List.foldl_append

/-- The calls for a whole pen make it the pen of the screen. -/
theorem penAfter_penCalls (pen other : ScreenPen) : penAfter other (penCalls pen) = pen := rfl

namespace Reaction

variable {state : VTermState} {reaction : Reaction}

theorem SamePen.andThen (first : reaction.SamePen state) {second : VTermState → Reaction}
    (later : (second reaction.1).SamePen reaction.1) : (reaction.andThen second).SamePen state := by
  unfold SamePen Reaction.andThen at *
  rw [penAfter_append, first, later]

/-- The screen is told what has changed. -/
theorem samePen_setpenattr {pen : ScreenPen} {attr : PenAttr} {changed : VTermState}
    (same : attr.apply state.pen = pen) : (setpenattr pen attr changed).SamePen state := same

theorem samePen_resetpen : (vtermStateResetpen state).SamePen state := penAfter_penCalls _ _

theorem samePen_setpenParameter (parameter : SgrParameter) :
    (setpenParameter parameter state).SamePen state := by
  cases parameter with
  | reset => exact samePen_resetpen
  | boldOn =>
      have first : (setpenattr { state.pen with bold := true } (.bold true) state).SamePen state :=
        samePen_setpenattr rfl
      exact first.andThen (by split_ifs <;> rfl)
  | _ => rfl

theorem samePen_setpenStep {arg : Int} {rest : List Int} {turn : Reaction × Nat}
    (taken : setpenStep arg rest state = some turn) : turn.1.SamePen state := by
  unfold setpenStep at taken
  split_ifs at taken
  · cases rest with
    | nil => cases taken
    | cons palette args =>
        rw [← Option.some.inj taken]
        exact samePen_setpenattr rfl
  · cases rest with
    | nil => cases taken
    | cons palette args =>
        rw [← Option.some.inj taken]
        exact samePen_setpenattr rfl
  · rw [← Option.some.inj taken]
    cases sgrParameter (csiArg arg) with
    | none => rfl
    | some parameter => exact samePen_setpenParameter parameter

theorem samePen_setpenLoop {skip : Nat} {args : List Int}
    (selected : setpenLoop skip args state = some reaction) : reaction.SamePen state := by
  induction args generalizing skip state reaction with
  | nil =>
      rw [setpenLoop] at selected
      rw [← Option.some.inj selected]
      rfl
  | cons arg rest ih =>
      cases skip with
      | succ skip => exact ih selected
      | zero =>
          obtain ⟨turn, taken, others⟩ := Option.bind_eq_some_iff.mp selected
          obtain ⟨more, -, others⟩ := Option.bind_eq_some_iff.mp others
          obtain ⟨later, looped, rfl⟩ := Option.map_eq_some_iff.mp others
          have first := samePen_setpenStep taken
          have behind := ih looped
          unfold SamePen at *
          rw [penAfter_append, first, behind]

end Reaction

end Hackterm
