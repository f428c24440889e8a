import Hackterm.CString.Basic
import Hackterm.Geometry.Display
import Hackterm.Ngui.Button
import Mathlib.Logic.Function.Basic
import Mathlib.Logic.Relation

/-! # The virtual keyboard

The keys are buttons, known by their texts. They are added once and then only moved: to
their places around the corner of the display, or out of the window. Whatever happened
before, a keyboard has its eleven keys (`Hackterm.ReachableKeyboard.keyed`), and
`virtual_buttons_reposition` puts each of them at a place that depends on the size of the
display and on the character cell only (`Hackterm.virtualButtonsReposition_keyboard`).
-/

namespace Hackterm

/-- The keys, by the callbacks `virtual_kb_esc` to `virtual_kb_kbshow`. -/
inductive VirtualKey where
  | esc
  | alt
  | ctrl
  | tab
  | up
  | down
  | left
  | right
  | paste
  | close
  | kbshow
deriving DecidableEq

/-- The table of buttons of the virtual keyboard. -/
abbrev Keyboard := List (NguiButtonData VirtualKey)

/-- The calls of `ngui_move_button` with these arguments, one after the other. -/
def nguiMoveButtons (calls : List (String × Int × Int)) (buttons : Keyboard) : Keyboard :=
  calls.foldl (fun buttons call => nguiMoveButton (CString.ascii call.1) call.2.1 call.2.2 buttons)
    buttons

/-- `virtual_buttons_reposition`. It divides by the size of the character cell. -/
def virtualButtonsReposition (st : Geometry) (buttons : Keyboard) : Option Keyboard :=
  let nunifontWidth := st.nunifont.width
  let nunifontHeight := st.nunifont.height
  if nunifontWidth * 2 = 0 ∨ nunifontHeight = 0 then none
  else
    let doublewidth := nunifontWidth * 2
    let dwidth := st.displayWidth - st.displayWidth.tmod (nunifontWidth * 2)
    let dheight := st.displayHeight - st.displayHeight.tmod nunifontHeight
    some (nguiMoveButtons
      [("Iesc", dwidth - doublewidth * 6 * 3, dheight - nunifontHeight * 6 * 3),
        ("Ialt", dwidth - doublewidth * 6 * 3, dheight - nunifontHeight * 6 * 1),
        ("Ictrl", dwidth - doublewidth * 6 * 1, dheight - nunifontHeight * 6 * 3),
        ("Itab", dwidth - doublewidth * 6 * 1, dheight - nunifontHeight * 6 * 1),
        ("Iup", dwidth - doublewidth * 6 * 2, dheight - nunifontHeight * 6 * 3),
        ("Idown", dwidth - doublewidth * 6 * 2, dheight - nunifontHeight * 6 * 1),
        ("Ileft", dwidth - doublewidth * 6 * 3, dheight - nunifontHeight * 6 * 2),
        ("Iright", dwidth - doublewidth * 6 * 1, dheight - nunifontHeight * 6 * 2),
        ("Ipaste", dwidth - doublewidth * 6 * 2, dheight - nunifontHeight * 6 * 2),
        if 80 < st.displayHeight - nunifontHeight * 6 * 3 then
          ("Iclose", dwidth - doublewidth * 6 * 1, 0)
        else ("Iclose", dwidth - doublewidth * 6 * 4, dheight - nunifontHeight * 6 * 3),
        ("Ikbshow", st.displayWidthAbs - doublewidth * 7, st.displayHeightAbs - 5 * nunifontHeight),
        ("Ikbshow", -1000, -1000)] buttons)

/-- The calls of `ngui_add_button` with these arguments, one after the other. -/
def nguiAddButtons (calls : List (Int × Int × String × VirtualKey)) (buttons : Keyboard) :
    Option Keyboard :=
  calls.foldlM (fun buttons call =>
    (nguiAddButton call.1 call.2.1 (CString.ascii call.2.2.1) call.2.2.2 buttons).map Prod.fst) buttons

/-- `virtual_buttons_add` up to the call of `virtual_buttons_reposition`. -/
def addVirtualButtons (st : Geometry) (buttons : Keyboard) : Option Keyboard :=
  let dwidth := st.displayWidth - st.displayWidth.tmod 16
  let dheight := st.displayHeight - st.displayHeight.tmod 16
  nguiAddButtons
    [(dwidth - 16 * 6 * 3, dheight - 16 * 6 * 3, "Iesc", .esc),
      (dwidth - 16 * 6 * 3, dheight - 16 * 6 * 1, "Ialt", .alt),
      (dwidth - 16 * 6 * 1, dheight - 16 * 6 * 3, "Ictrl", .ctrl),
      (dwidth - 16 * 6 * 1, dheight - 16 * 6 * 1, "Itab", .tab),
      (dwidth - 16 * 6 * 2, dheight - 16 * 6 * 3, "Iup", .up),
      (dwidth - 16 * 6 * 2, dheight - 16 * 6 * 1, "Idown", .down),
      (dwidth - 16 * 6 * 3, dheight - 16 * 6 * 2, "Ileft", .left),
      (dwidth - 16 * 6 * 1, dheight - 16 * 6 * 2, "Iright", .right),
      (dwidth - 16 * 6 * 2, dheight - 16 * 6 * 2, "Ipaste", .paste),
      if 80 < st.displayHeight - 16 * 6 * 3 then (dwidth - 16 * 6 * 1, 0, "Iclose", .close)
      else (dwidth - 16 * 6 * 4, dheight - 16 * 6 * 3, "Iclose", .close),
      (st.displayWidthAbs - 16 * 7, st.displayHeightAbs - 5 * 16, "Ikbshow", .kbshow)] buttons

/-- `virtual_buttons_add`. `main` calls it before the font has a size. -/
def virtualButtonsAdd (st : Geometry) (buttons : Keyboard) : Option Keyboard := do
  virtualButtonsReposition st (← addVirtualButtons st buttons)

/-- `virtual_buttons_disable`. -/
def virtualButtonsDisable (buttons : Keyboard) : Keyboard :=
  nguiMoveButtons
    [("Iesc", -1000, -1000), ("Ialt", -1000, -1000), ("Ictrl", -1000, -1000),
      ("Itab", -1000, -1000), ("Iup", -1000, -1000), ("Idown", -1000, -1000),
      ("Ileft", -1000, -1000), ("Iright", -1000, -1000), ("Ipaste", -1000, -1000),
      ("Ikbshow", -1000, -1000)] buttons

/-- What happens to the keyboard. -/
inductive KeyboardStep : Keyboard → Keyboard → Prop where
  | reposition {before after : Keyboard} (st : Geometry)
      (moved : virtualButtonsReposition st before = some after) : KeyboardStep before after
  | disable (before : Keyboard) : KeyboardStep before (virtualButtonsDisable before)
  | receive (before : Keyboard) (event : NguiEvent) :
      KeyboardStep before (nguiReceiveallButton event before).1

/-- A keyboard of the program. -/
def ReachableKeyboard (buttons : Keyboard) : Prop :=
  ∃ st start, addVirtualButtons st [] = some start ∧ Relation.ReflTransGen KeyboardStep start buttons

namespace VirtualKey

/-- The keys in the order of the table. -/
def all : List VirtualKey :=
  [esc, alt, ctrl, tab, up, down, left, right, paste, close, kbshow]

theorem mem_all (key : VirtualKey) : key ∈ all := by
  cases key <;> decide

theorem all_nodup : all.Nodup := by
  decide

/-- The text of the button. -/
def text : VirtualKey → List UInt8
  | esc => CString.ascii "Iesc"
  | alt => CString.ascii "Ialt"
  | ctrl => CString.ascii "Ictrl"
  | tab => CString.ascii "Itab"
  | up => CString.ascii "Iup"
  | down => CString.ascii "Idown"
  | left => CString.ascii "Ileft"
  | right => CString.ascii "Iright"
  | paste => CString.ascii "Ipaste"
  | close => CString.ascii "Iclose"
  | kbshow => CString.ascii "Ikbshow"

/-- A function by which each key can be found in the table tells the keys apart. -/
theorem injective_of_find? {α : Type} [DecidableEq α] {name : VirtualKey → α}
    (found : ∀ key, all.find? (fun other => name other = name key) = some key) :
    Function.Injective name := by
  intro key other same
  have named := found key
  rw [same, found other] at named
  exact (Option.some.inj named).symm

/-- The texts tell the keys apart. -/
theorem text_injective : Function.Injective text := by
  apply injective_of_find?
  intro key
  cases key <;> decide

/-- A key as a button, at its place. -/
def button (place : VirtualKey → Int × Int) (shine : VirtualKey → Int) (key : VirtualKey) :
    NguiButtonData VirtualKey :=
  ⟨true, (place key).1, (place key).2, 20, 20, shine key, key.text, key⟩

end VirtualKey

/-- The keyboard with its keys at their places. -/
def keyboard (place : VirtualKey → Int × Int) (shine : VirtualKey → Int) : Keyboard :=
  VirtualKey.all.map (VirtualKey.button place shine)

section Moving

variable (place : VirtualKey → Int × Int) (shine : VirtualKey → Int)

/-- **One move.** It changes the place of the key with that text. -/
theorem nguiMoveButton_keyboard (key : VirtualKey) (nx ny : Int) :
    nguiMoveButton key.text nx ny (keyboard place shine) =
      keyboard (Function.update place key (nx, ny)) shine := by
  unfold nguiMoveButton keyboard
  rw [List.map_map]
  apply List.map_congr_left
  intro other _
  have named : (VirtualKey.button place shine other).text = key.text ↔ other = key :=
    VirtualKey.text_injective.eq_iff
  rw [Function.comp_apply]
  by_cases same : other = key
  · rw [if_pos (named.mpr same)]
    unfold VirtualKey.button
    rw [same, Function.update_self]
  · rw [if_neg (mt named.mp same)]
    unfold VirtualKey.button
    rw [Function.update_of_ne same]

/-- A list of moves puts each key where the last of its moves says. -/
theorem foldl_nguiMoveButton_keyboard (moves : List (VirtualKey × Int × Int)) :
    moves.foldl (fun buttons move => nguiMoveButton move.1.text move.2.1 move.2.2 buttons)
        (keyboard place shine) =
      keyboard (moves.foldl (fun place move => Function.update place move.1 move.2) place) shine := by
  induction moves generalizing place with
  | nil => rfl
  | cons move moves ih =>
      rw [List.foldl_cons, List.foldl_cons, nguiMoveButton_keyboard]
      exact ih _

/-- The display without the part that does not fill a double cell. -/
def Geometry.dwidth (st : Geometry) : Int :=
  st.displayWidth - st.displayWidth.tmod (st.nunifont.width * 2)

/-- The display without the part that does not fill a cell. -/
def Geometry.dheight (st : Geometry) : Int :=
  st.displayHeight - st.displayHeight.tmod st.nunifont.height

/-- The column and the row of a key, counted from the lower right corner. -/
def VirtualKey.cell : VirtualKey → Int × Int
  | .esc => (3, 3)
  | .alt => (3, 1)
  | .ctrl => (1, 3)
  | .tab => (1, 1)
  | .up => (2, 3)
  | .down => (2, 1)
  | .left => (3, 2)
  | .right => (1, 2)
  | .paste => (2, 2)
  | .close => (4, 3)
  | .kbshow => (0, 0)

/-- The upper edge has room for the key that closes the connection. -/
def Geometry.ClosesAbove (st : Geometry) : Prop :=
  80 < st.displayHeight - st.nunifont.height * 6 * 3

instance (st : Geometry) : Decidable st.ClosesAbove := inferInstanceAs (Decidable (_ < _))

/-- A place of the grid in the lower right corner. -/
def Geometry.corner (st : Geometry) (cell : Int × Int) : Int × Int :=
  (st.dwidth - st.nunifont.width * 2 * 6 * cell.1, st.dheight - st.nunifont.height * 6 * cell.2)

/-- Where a key stands. -/
def keyPlace (st : Geometry) : VirtualKey → Int × Int
  | .close =>
      if st.ClosesAbove then (st.dwidth - st.nunifont.width * 2 * 6 * 1, 0)
      else st.corner VirtualKey.close.cell
  | .kbshow => (-1000, -1000)
  | key => st.corner key.cell

/-- **The layout.** The keys are put at their places, wherever they stood. -/
theorem virtualButtonsReposition_keyboard (st : Geometry)
    (cell : st.nunifont.width ≠ 0 ∧ st.nunifont.height ≠ 0) :
    virtualButtonsReposition st (keyboard place shine) = some (keyboard (keyPlace st) shine) := by
  have divides : ¬ (st.nunifont.width * 2 = 0 ∨ st.nunifont.height = 0) := by
    rintro (width | height)
    · exact cell.1 (by omega)
    · exact cell.2 height
  have moved := foldl_nguiMoveButton_keyboard place shine
    [(.esc, st.corner (3, 3)), (.alt, st.corner (3, 1)), (.ctrl, st.corner (1, 3)),
      (.tab, st.corner (1, 1)), (.up, st.corner (2, 3)), (.down, st.corner (2, 1)),
      (.left, st.corner (3, 2)), (.right, st.corner (1, 2)), (.paste, st.corner (2, 2)),
      (.close, keyPlace st .close),
      (.kbshow, st.displayWidthAbs - st.nunifont.width * 2 * 7,
        st.displayHeightAbs - 5 * st.nunifont.height), (.kbshow, -1000, -1000)]
  unfold virtualButtonsReposition
  dsimp only
  rw [if_neg divides, ← apply_ite (Prod.mk "Iclose")]
  refine congrArg some (moved.trans (congrArg (keyboard · shine) ?_))
  funext key
  cases key <;> rfl

/-- Every list of calls leaves a keyboard. -/
theorem virtualButtonsDisable_keyboard :
    ∃ place', virtualButtonsDisable (keyboard place shine) = keyboard place' shine :=
  ⟨_, foldl_nguiMoveButton_keyboard place shine
    [(.esc, -1000, -1000), (.alt, -1000, -1000), (.ctrl, -1000, -1000), (.tab, -1000, -1000),
      (.up, -1000, -1000), (.down, -1000, -1000), (.left, -1000, -1000), (.right, -1000, -1000),
      (.paste, -1000, -1000), (.kbshow, -1000, -1000)]⟩

theorem nguiReceiveallButton_keyboard (event : NguiEvent) :
    ∃ shine', (nguiReceiveallButton event (keyboard place shine)).1 = keyboard place shine' := by
  refine ⟨fun key => (nguiReceiveEventButton event (VirtualKey.button place shine key)).1.shine, ?_⟩
  rw [nguiReceiveallButton_buttons, keyboard, List.map_map]
  apply List.map_congr_left
  intro key _
  obtain ⟨after, received⟩ := (VirtualKey.button place shine key).receive_fst event
  have valid : (VirtualKey.button place shine key).valid = true := rfl
  have shines := congrArg NguiButtonData.shine received
  rw [Function.comp_apply, if_pos valid, received]
  exact congrArg (fun shine => VirtualKey.button place (fun _ => shine) key) shines.symm

end Moving

/-- With room in the table all buttons of a list of calls are added. -/
theorem nguiAddButtons_eq (calls : List (Int × Int × String × VirtualKey)) (buttons : Keyboard)
    (room : buttons.length + calls.length ≤ 50)
    (short : ∀ call ∈ calls, (CString.ascii call.2.2.1).length < 100) :
    nguiAddButtons calls buttons = some (buttons ++ calls.map fun call =>
      ⟨true, call.1, call.2.1, 20, 20, 0, CString.ascii call.2.2.1, call.2.2.2⟩) := by
  induction calls generalizing buttons with
  | nil => exact congrArg some (List.append_nil _).symm
  | cons call calls ih =>
      rw [List.length_cons] at room
      have fits : buttons.length < 50 ∧ (CString.ascii call.2.2.1).length < 100 :=
        ⟨by omega, short call List.mem_cons_self⟩
      unfold nguiAddButtons
      rw [List.foldlM_cons, nguiAddButton, if_pos fits]
      refine (ih _ ?_ fun call member => short call (List.mem_cons_of_mem _ member)).trans ?_
      · rw [List.length_append, List.length_singleton]
        omega
      · rw [List.append_assoc]
        rfl

theorem addVirtualButtons_keyboard (st : Geometry) :
    ∃ place, addVirtualButtons st [] = some (keyboard place fun _ => 0) := by
  let corner (cell : Int × Int) : Int × Int :=
    (st.displayWidth - st.displayWidth.tmod 16 - 16 * 6 * cell.1,
      st.displayHeight - st.displayHeight.tmod 16 - 16 * 6 * cell.2)
  refine ⟨fun
    | .close =>
        if 80 < st.displayHeight - 16 * 6 * 3 then
          (st.displayWidth - st.displayWidth.tmod 16 - 16 * 6 * 1, 0)
        else corner VirtualKey.close.cell
    | .kbshow => (st.displayWidthAbs - 16 * 7, st.displayHeightAbs - 5 * 16)
    | key => corner key.cell, ?_⟩
  unfold addVirtualButtons
  dsimp only
  rw [nguiAddButtons_eq]
  · by_cases above : 80 < st.displayHeight - 16 * 6 * 3
    · rw [if_pos above, if_pos above]
      rfl
    · rw [if_neg above, if_neg above]
      rfl
  · rw [List.length_nil, zero_add]
    exact Nat.le_of_ble_eq_true rfl
  · simp only [List.forall_mem_cons, apply_ite fun call : Int × Int × String × VirtualKey =>
      call.2.2.1, ite_self]
    decide

theorem virtualButtonsReposition_eq_some {st : Geometry} {place : VirtualKey → Int × Int}
    {shine : VirtualKey → Int} {after : Keyboard}
    (moved : virtualButtonsReposition st (keyboard place shine) = some after) :
    after = keyboard (keyPlace st) shine := by
  by_cases cell : st.nunifont.width ≠ 0 ∧ st.nunifont.height ≠ 0
  · rw [virtualButtonsReposition_keyboard place shine st cell] at moved
    exact (Option.some.inj moved).symm
  · have divides : st.nunifont.width * 2 = 0 ∨ st.nunifont.height = 0 := by omega
    unfold virtualButtonsReposition at moved
    dsimp only at moved
    rw [if_pos divides] at moved
    cases moved

/-- **The keyboard.** It has its eleven keys after whatever happened to it. -/
theorem ReachableKeyboard.keyed {buttons : Keyboard} (reachable : ReachableKeyboard buttons) :
    ∃ place shine, buttons = keyboard place shine := by
  obtain ⟨st, start, added, run⟩ := reachable
  obtain ⟨place, first⟩ := addVirtualButtons_keyboard st
  induction run with
  | refl => exact ⟨place, fun _ => 0, Option.some.inj (added.symm.trans first)⟩
  | tail _ step ih =>
      obtain ⟨place, shine, rfl⟩ := ih
      cases step with
      | reposition st moved => exact ⟨keyPlace st, shine, virtualButtonsReposition_eq_some moved⟩
      | disable =>
          obtain ⟨after, disabled⟩ := virtualButtonsDisable_keyboard place shine
          exact ⟨after, shine, disabled⟩
      | receive event =>
          obtain ⟨after, received⟩ := nguiReceiveallButton_keyboard place shine event
          exact ⟨place, after, received⟩

end Hackterm
