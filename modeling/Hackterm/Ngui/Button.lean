import Hackterm.Bits.CInt

/-! # Buttons

A button is pressed in two places: a button with an icon in the square of the icon, and
every button in the rectangle of its text. Each place calls the callback on its own, so an
event that falls into both calls it twice (`Hackterm.nguiReceiveEventButton_calls`). What
all the buttons call is what each calls, in the order of the table
(`Hackterm.nguiReceiveallButton_calls`).
-/

namespace Hackterm

/-- `ngui_button_data`. A callback is known by its name in `κ`. -/
structure NguiButtonData (κ : Type) where
  valid : Bool
  x : Int
  y : Int
  xPadding : Int
  yPadding : Int
  shine : Int
  text : List UInt8
  callback : κ

/-- What the buttons look at in an event. -/
inductive NguiEvent where
  | mouseButtonDown (x y : Int)
  | other

/-- What a button calls: its callback with `"press"`, and `ngui_redraw_required`. -/
inductive NguiCall (κ : Type) where
  | press (callback : κ)
  | redrawRequired

variable {κ : Type}

namespace NguiButtonData

/-- The place lies in the square of the icon. -/
def InIcon (d : NguiButtonData κ) (x y : Int) : Prop :=
  d.x < x ∧ x < d.x + 16 * 6 ∧ d.y < y ∧ y < d.y + 16 * 6

instance (d : NguiButtonData κ) (x y : Int) : Decidable (d.InIcon x y) :=
  inferInstanceAs (Decidable (_ ∧ _))

/-- Where the rectangle of the text ends on the right. -/
def textEnd (d : NguiButtonData κ) : Int := d.x + d.text.length * 8 + d.xPadding

/-- The place lies in the rectangle of the text. As `strlen` is a `size_t`, the right side
is compared as one. -/
def InText (d : NguiButtonData κ) (x y : Int) : Prop :=
  d.x - d.xPadding < x ∧ sizeT x < sizeT d.textEnd ∧ d.y - d.yPadding < y ∧
    y < d.y + 16 + d.yPadding

instance (d : NguiButtonData κ) (x y : Int) : Decidable (d.InText x y) :=
  inferInstanceAs (Decidable (_ ∧ _))

/-- The button has an icon: its text begins with an `I`. -/
def HasIcon (d : NguiButtonData κ) : Prop := d.text.head? = some 0x49

instance (d : NguiButtonData κ) : Decidable d.HasIcon := inferInstanceAs (Decidable (_ = _))

end NguiButtonData

/-- Both branches of `ngui_receive_event_button`. -/
def nguiPressed (d : NguiButtonData κ) : NguiButtonData κ × List (NguiCall κ) :=
  ({ d with shine := 20 }, [.press d.callback, .redrawRequired])

/-- `ngui_receive_event_button`. -/
def nguiReceiveEventButton (event : NguiEvent) (d : NguiButtonData κ) :
    NguiButtonData κ × List (NguiCall κ) :=
  match event with
  | .mouseButtonDown x y =>
      let icon := if d.HasIcon then if d.InIcon x y then nguiPressed d else (d, []) else (d, [])
      let text := if icon.1.InText x y then nguiPressed icon.1 else (icon.1, [])
      (text.1, icon.2 ++ text.2)
  | .other => (d, [])

/-- `ngui_receiveall_button`. -/
def nguiReceiveallButton (event : NguiEvent) :
    List (NguiButtonData κ) → List (NguiButtonData κ) × List (NguiCall κ)
  | [] => ([], [])
  | d :: buttons =>
      let first := if d.valid then nguiReceiveEventButton event d else (d, [])
      let others := nguiReceiveallButton event buttons
      (first.1 :: others.1, first.2 ++ others.2)

/-- `ngui_add_button`: the table and the number of the button. There is room for 50
buttons with texts of 99 characters. -/
def nguiAddButton (x y : Int) (text : List UInt8) (callback : κ)
    (buttons : List (NguiButtonData κ)) : Option (List (NguiButtonData κ) × Nat) :=
  if buttons.length < 50 ∧ text.length < 100 then
    some (buttons ++ [⟨true, x, y, 20, 20, 0, text, callback⟩], buttons.length)
  else none

/-- `ngui_move_button`. -/
def nguiMoveButton (name : List UInt8) (nx ny : Int) (buttons : List (NguiButtonData κ)) :
    List (NguiButtonData κ) :=
  buttons.map fun d => if d.text = name then { d with x := nx, y := ny } else d

/-- The callbacks among the calls. -/
def callbacks (calls : List (NguiCall κ)) : List κ :=
  calls.filterMap fun call => match call with
    | .press callback => some callback
    | .redrawRequired => none

@[simp]
theorem callbacks_append (first second : List (NguiCall κ)) :
    callbacks (first ++ second) = callbacks first ++ callbacks second :=
  List.filterMap_append

namespace NguiButtonData

/-- An event changes nothing of a button but its shine. -/
theorem receive_fst (event : NguiEvent) (d : NguiButtonData κ) :
    ∃ shine, (nguiReceiveEventButton event d).1 = { d with shine := shine } := by
  cases event with
  | other => exact ⟨d.shine, rfl⟩
  | mouseButtonDown x y =>
      unfold nguiReceiveEventButton
      dsimp only
      split_ifs
      · exact ⟨20, rfl⟩
      · exact ⟨20, rfl⟩
      · exact ⟨20, rfl⟩
      · exact ⟨d.shine, rfl⟩
      · exact ⟨20, rfl⟩
      · exact ⟨d.shine, rfl⟩

/-- The callbacks a button calls when the mouse is pressed. -/
def pressed (d : NguiButtonData κ) (x y : Int) : List κ :=
  (if d.HasIcon ∧ d.InIcon x y then [d.callback] else []) ++
    if d.InText x y then [d.callback] else []

end NguiButtonData

/-- **One button.** The two places call the callback independently. -/
theorem nguiReceiveEventButton_calls (x y : Int) (d : NguiButtonData κ) :
    callbacks (nguiReceiveEventButton (.mouseButtonDown x y) d).2 = d.pressed x y := by
  have moved (shine : Int) : ({ d with shine := shine } : NguiButtonData κ).InText x y ↔
      d.InText x y := Iff.rfl
  unfold nguiReceiveEventButton NguiButtonData.pressed
  by_cases icon : d.HasIcon ∧ d.InIcon x y
  · dsimp only
    rw [if_pos icon.1, if_pos icon.2, if_pos icon, nguiPressed]
    dsimp only
    by_cases text : d.InText x y
    · rw [if_pos text, if_pos ((moved 20).mpr text)]
      rfl
    · rw [if_neg text, if_neg (mt (moved 20).mp text)]
      rfl
  · have missed : (if d.HasIcon then if d.InIcon x y then nguiPressed d else (d, []) else (d, [])) =
        (d, []) := by
      rw [← ite_and, if_neg icon]
    dsimp only
    rw [missed, if_neg icon]
    by_cases text : d.InText x y
    · rw [if_pos text, if_pos text]
      rfl
    · rw [if_neg text, if_neg text]
      rfl

/-- **All buttons.** Each valid button calls what it calls. -/
theorem nguiReceiveallButton_calls (x y : Int) (buttons : List (NguiButtonData κ)) :
    callbacks (nguiReceiveallButton (.mouseButtonDown x y) buttons).2 =
      (buttons.filter NguiButtonData.valid).flatMap fun d => d.pressed x y := by
  induction buttons with
  | nil => rfl
  | cons d buttons ih =>
      rw [nguiReceiveallButton, callbacks_append, ih]
      cases valid : d.valid with
      | true =>
          rw [List.filter_cons_of_pos valid, List.flatMap_cons, if_pos rfl,
            nguiReceiveEventButton_calls]
      | false =>
          rw [List.filter_cons_of_neg (Bool.not_eq_true _ ▸ valid), if_neg Bool.false_ne_true]
          rfl

theorem nguiReceiveallButton_buttons (event : NguiEvent) (buttons : List (NguiButtonData κ)) :
    (nguiReceiveallButton event buttons).1 =
      buttons.map fun d => if d.valid then (nguiReceiveEventButton event d).1 else d := by
  induction buttons with
  | nil => rfl
  | cons d buttons ih =>
      rw [nguiReceiveallButton, ih, List.map_cons, apply_ite Prod.fst]

/-- The right side of a text, compared as `size_t`. Left of the window it has no effect. -/
theorem NguiButtonData.inText_iff {d : NguiButtonData κ} {x y : Int} (position : -2 ^ 31 ≤ x)
    (position' : x < 2 ^ 31) (lower : -2 ^ 31 ≤ d.textEnd) (upper : d.textEnd < 2 ^ 31) :
    d.InText x y ↔ (d.x - d.xPadding < x ∧
      (0 ≤ x ∧ (d.textEnd < 0 ∨ x < d.textEnd) ∨ x < 0 ∧ x < d.textEnd ∧ d.textEnd < 0)) ∧
        d.y - d.yPadding < y ∧ y < d.y + 16 + d.yPadding := by
  have compared : sizeT x < sizeT d.textEnd ↔
      0 ≤ x ∧ (d.textEnd < 0 ∨ x < d.textEnd) ∨ x < 0 ∧ x < d.textEnd ∧ d.textEnd < 0 := by
    by_cases right : 0 ≤ x
    · rw [sizeT_of_nonneg right position']
      by_cases behind : 0 ≤ d.textEnd
      · rw [sizeT_of_nonneg behind upper]
        omega
      · rw [sizeT_of_neg lower (Int.not_le.mp behind)]
        omega
    · rw [sizeT_of_neg position (Int.not_le.mp right)]
      by_cases behind : 0 ≤ d.textEnd
      · rw [sizeT_of_nonneg behind upper]
        omega
      · rw [sizeT_of_neg lower (Int.not_le.mp behind)]
        omega
  rw [NguiButtonData.InText, compared, and_assoc]

end Hackterm
