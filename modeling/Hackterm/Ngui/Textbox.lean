import Hackterm.CString.CharArray
import Hackterm.Streaming.Run

/-! # Text boxes

A click selects a text box or deselects it, and a key changes the string of a selected box:
backspace deletes its last character, and any other key appends one. The key writes the
character in the place of the NUL and a NUL behind it, whatever room there is, so that a
box with 99 characters lets it write behind the array. What the box shows is what has been
typed into it exactly as long as no such key arrives
(`Hackterm.textbox_shows_typing_iff`).
-/

namespace Hackterm

/-- `ngui_textbox_data`. A callback is known by its name in `κ`. -/
structure NguiTextboxData (κ : Type) where
  valid : Bool
  x : Int
  y : Int
  passwordbox : Bool
  xPadding : Int
  yPadding : Int
  width : Int
  selected : Bool
  text : CString.CharArray 100
  callback : Option κ

/-- What the text boxes look at in an event. -/
inductive TextboxEvent where
  | mouseButtonDown (x y : Int)
  | keyDown (sym : Int) (unicode : UInt32)
  | other

/-- `SDLK_BACKSPACE`. -/
def sdlkBackspace : Int := 8

variable {κ : Type}

/-- The place lies in the rectangle of the box. -/
def NguiTextboxData.inBox (d : NguiTextboxData κ) (x y : Int) : Bool :=
  d.x - d.xPadding < x ∧ x < d.x + d.width * 8 + d.xPadding ∧
    d.y - d.yPadding < y ∧ y < d.y + 16 + d.yPadding

/-- The text a key leaves in the array. -/
def nguiTypeTextbox (text : CString.CharArray 100) (sym : Int) (unicode : UInt32) :
    Option (CString.CharArray 100) :=
  if sym = sdlkBackspace then do
    let string ← text.string
    if 0 < string.length then text.store (string.length - 1) 0 else some text
  else do
    -- without a NUL in the array, the loop stops behind it
    let p := (text.bytes.findIdx? (· == 0)).getD 100
    let written ← text.store p unicode.toUInt8
    written.store (p + 1) 0

/-- `ngui_receive_event_textbox`: the box, and the callbacks called with `"redraw"`. -/
def nguiReceiveEventTextbox (event : TextboxEvent) (d : NguiTextboxData κ) :
    Option (NguiTextboxData κ × List κ) :=
  match event with
  | .mouseButtonDown x y =>
      some ({ d with selected := d.inBox x y }, d.callback.toList)
  | .keyDown sym unicode =>
      if d.selected then do
        let text ← nguiTypeTextbox d.text sym unicode
        some ({ d with text }, d.callback.toList)
      else some (d, [])
  | .other => some (d, [])

/-- `ngui_receiveall_textbox`. -/
def nguiReceiveallTextbox (event : TextboxEvent) :
    List (NguiTextboxData κ) → Option (List (NguiTextboxData κ) × List κ)
  | [] => some ([], [])
  | d :: boxes => do
      let first ← if d.valid then nguiReceiveEventTextbox event d else some (d, [])
      let others ← nguiReceiveallTextbox event boxes
      some (first.1 :: others.1, first.2 ++ others.2)

/-- `ngui_add_textbox` fills in an entry of the table. Whether the box is selected stays as
it was. -/
def nguiAddTextbox (x y : Int) (text : List UInt8) (passwordbox : Bool) (callback : Option κ)
    (entry : NguiTextboxData κ) : Option (NguiTextboxData κ) := do
  let copied ← entry.text.strcpy text
  some {
    valid := true, x, y, passwordbox, xPadding := 10, yPadding := 10, width := 8 * 20,
    selected := entry.selected, text := copied, callback }

/-- What a text box stands for: it is selected or not, and it holds a string. -/
structure Typing where
  selected : Bool
  string : List UInt8

/-- The string after a key. Characters behind the 99th are ignored, and so is a key without
a character. -/
def typed (string : List UInt8) (sym : Int) (unicode : UInt32) : List UInt8 :=
  if sym = sdlkBackspace then string.dropLast
  else if unicode.toUInt8 = 0 ∨ 99 ≤ string.length then string
  else string ++ [unicode.toUInt8]

/-- What an event does to a box with the given rectangle. -/
def Typing.receive (inBox : Int → Int → Bool) (typing : Typing) : TextboxEvent → Typing
  | .mouseButtonDown x y => { typing with selected := inBox x y }
  | .keyDown sym unicode =>
      if typing.selected then { typing with string := typed typing.string sym unicode } else typing
  | .other => typing

/-- The box shows what has been typed: its array holds the string, and of the other fields
only `selected` can differ from the first box. -/
def ShowsTyping (first d : NguiTextboxData κ) (typing : Typing) : Prop :=
  ∃ text : CString.CharArray 100, text.string = some typing.string ∧
    d = { first with text, selected := typing.selected }

/-- An event at the box, beside what it does to what the box stands for. -/
def textboxStep (first : NguiTextboxData κ) (shown : NguiTextboxData κ × Typing)
    (event : TextboxEvent) : Option (NguiTextboxData κ × Typing) :=
  (nguiReceiveEventTextbox event shown.1).map fun received =>
    (received.1, shown.2.receive first.inBox event)

/-- The call stays inside the array, and a key changes no field but the text. -/
def KeepsFields (d : NguiTextboxData κ) (event : TextboxEvent) : Prop :=
  ∃ after called, nguiReceiveEventTextbox event d = some (after, called) ∧
    ∀ sym unicode, event = .keyDown sym unicode → after = { d with text := after.text }

/-- A key that is no backspace finds fewer than 99 characters in the box, or finds the box
not selected. -/
def NguiTextboxData.HasRoom (d : NguiTextboxData κ) : TextboxEvent → Prop
  | .keyDown sym _ => d.selected = true → sym ≠ sdlkBackspace →
      ∃ string, d.text.string = some string ∧ string.length < 99
  | _ => True

section Keys

variable {text after : CString.CharArray 100} {string : List UInt8} {sym : Int} {unicode : UInt32}

/-- Backspace always finds its place in the array. -/
theorem nguiTypeTextbox_backspace (holds : text.string = some string) :
    ∃ after, nguiTypeTextbox text sdlkBackspace unicode = some after ∧
      after.string = some string.dropLast := by
  have fits := CString.CharArray.string_length_lt holds
  rw [nguiTypeTextbox, if_pos rfl, holds, Option.bind_eq_bind, Option.bind_some]
  split
  · obtain ⟨after, stored⟩ := text.exists_store (show string.length - 1 < 100 by omega) 0
    refine ⟨after, stored, ?_⟩
    rw [List.dropLast_eq_take]
    exact CString.CharArray.string_cut holds (Nat.sub_le _ _) stored
  · rename_i empty
    have nil : string = [] := List.length_eq_zero_iff.mp (by omega)
    subst nil
    exact ⟨text, rfl, holds⟩

/-- Any other key writes two bytes from the NUL on. -/
theorem nguiTypeTextbox_char (holds : text.string = some string) (other : sym ≠ sdlkBackspace) :
    nguiTypeTextbox text sym unicode =
      (text.store string.length unicode.toUInt8).bind fun written =>
        written.store (string.length + 1) 0 := by
  rw [nguiTypeTextbox, if_neg other, CString.findIdx?_nul holds]
  rfl

/-- With fewer than 99 characters in the box, a key has room. -/
theorem nguiTypeTextbox_room (holds : text.string = some string) (other : sym ≠ sdlkBackspace)
    (room : string.length < 99) :
    ∃ after, nguiTypeTextbox text sym unicode = some after ∧
      after.string = some (typed string sym unicode) := by
  obtain ⟨written, stored⟩ := text.exists_store (show string.length < 100 by omega) unicode.toUInt8
  obtain ⟨after, ended⟩ := written.exists_store (show string.length + 1 < 100 by omega) 0
  refine ⟨after, ?_, ?_⟩
  · rw [nguiTypeTextbox_char holds other, stored, Option.bind_some, ended]
  · rw [typed, if_neg other]
    by_cases nul : unicode.toUInt8 = 0
    · rw [if_pos (Or.inl nul)]
      rw [nul] at stored
      have cut := CString.CharArray.string_cut holds (Nat.le_refl _) stored
      rw [List.take_length] at cut
      exact CString.CharArray.string_behind cut (Nat.lt_succ_self _) ended
    · rw [if_neg (not_or.mpr ⟨nul, Nat.not_le.mpr room⟩)]
      exact CString.CharArray.string_append holds nul stored ended

/-- With 99 characters in the box, the NUL behind the character falls behind the array. -/
theorem nguiTypeTextbox_full (holds : text.string = some string) (other : sym ≠ sdlkBackspace)
    (full : 99 ≤ string.length) : nguiTypeTextbox text sym unicode = none := by
  rw [nguiTypeTextbox_char holds other, Option.bind_eq_none_iff]
  intro written _
  exact written.store_outside (by omega) 0

end Keys

section Steps

variable {first d : NguiTextboxData κ} {typing : Typing}

/-- An event that has room does to the box what it does to what the box stands for. -/
theorem ShowsTyping.receive (shows_ : ShowsTyping first d typing) {event : TextboxEvent}
    (room : d.HasRoom event) :
    ∃ after called, nguiReceiveEventTextbox event d = some (after, called) ∧
      ShowsTyping first after (typing.receive first.inBox event) := by
  obtain ⟨text, holds, rfl⟩ := shows_
  cases event with
  | mouseButtonDown x y => exact ⟨_, _, rfl, text, holds, rfl⟩
  | keyDown sym unicode =>
      by_cases selected : typing.selected = true
      · have written : ∃ after, nguiTypeTextbox text sym unicode = some after ∧
            after.string = some (typed typing.string sym unicode) := by
          by_cases backspace : sym = sdlkBackspace
          · subst backspace
            rw [typed, if_pos rfl]
            exact nguiTypeTextbox_backspace holds
          · obtain ⟨string, held, short⟩ := room selected backspace
            obtain rfl := Option.some.inj (holds.symm.trans held)
            exact nguiTypeTextbox_room holds backspace short
        obtain ⟨after, written, held⟩ := written
        refine ⟨{ first with text := after, selected := typing.selected }, first.callback.toList,
          ?_, after, ?_, ?_⟩
        · rw [nguiReceiveEventTextbox, if_pos selected, written]
          rfl
        · rw [Typing.receive, if_pos selected]
          exact held
        · rw [Typing.receive, if_pos selected]
      · refine ⟨_, [], if_neg selected, ?_⟩
        rw [Typing.receive, if_neg selected]
        exact ⟨text, holds, rfl⟩
  | other => exact ⟨_, [], rfl, text, holds, rfl⟩

/-- A key that has no room makes the call undefined. -/
theorem ShowsTyping.hasRoom (shows_ : ShowsTyping first d typing) {event : TextboxEvent}
    {received : NguiTextboxData κ × List κ}
    (defined : nguiReceiveEventTextbox event d = some received) : d.HasRoom event := by
  obtain ⟨text, holds, rfl⟩ := shows_
  cases event with
  | mouseButtonDown x y => trivial
  | keyDown sym unicode =>
      intro selected other
      refine ⟨typing.string, holds, ?_⟩
      by_contra full
      rw [nguiReceiveEventTextbox, if_pos selected,
        nguiTypeTextbox_full holds other (Nat.not_lt.mp full)] at defined
      cases defined
  | other => trivial

/-- A key changes no field but the text, where the call is defined. -/
theorem nguiReceiveEventTextbox_key {sym : Int} {unicode : UInt32} {after : NguiTextboxData κ}
    {called : List κ}
    (received : nguiReceiveEventTextbox (.keyDown sym unicode) d = some (after, called)) :
    after = { d with text := after.text } := by
  rw [nguiReceiveEventTextbox] at received
  split at received
  · obtain ⟨text, -, done⟩ := Option.bind_eq_some_iff.mp received
    obtain ⟨rfl, -⟩ := Prod.mk.inj (Option.some.inj done)
    rfl
  · obtain ⟨rfl, -⟩ := Prod.mk.inj (Option.some.inj received)
    rfl

theorem length_typed_le (string : List UInt8) (sym : Int) (unicode : UInt32) :
    (typed string sym unicode).length ≤ string.length + 1 := by
  unfold typed
  split
  · rw [List.length_dropLast]
    omega
  · split
    · exact Nat.le_succ _
    · exact Nat.le_of_eq List.length_append

/-- An event makes the string at most one character longer. -/
theorem Typing.length_receive_le (inBox : Int → Int → Bool) (typing : Typing)
    (event : TextboxEvent) :
    (typing.receive inBox event).string.length ≤ typing.string.length + 1 := by
  cases event with
  | mouseButtonDown x y => exact Nat.le_succ _
  | keyDown sym unicode =>
      rw [Typing.receive]
      split
      · exact length_typed_le _ _ _
      · exact Nat.le_succ _
  | other => exact Nat.le_succ _

/-- Events that cannot fill the box all have room. -/
theorem ShowsTyping.everyCall_hasRoom (shows_ : ShowsTyping first d typing)
    (events : List TextboxEvent) (few : typing.string.length + events.length ≤ 99) :
    Streaming.EveryCall (textboxStep first) (d, typing) events
      (fun shown => shown.1.HasRoom) := by
  induction events generalizing d typing with
  | nil => exact Streaming.everyCall_nil
  | cons event events ih =>
      rw [List.length_cons] at few
      have room : d.HasRoom event := by
        obtain ⟨text, holds, rfl⟩ := shows_
        cases event with
        | mouseButtonDown x y => trivial
        | keyDown sym unicode => exact fun _ _ => ⟨typing.string, holds, by omega⟩
        | other => trivial
      refine (Streaming.everyCall_cons event events).mpr ⟨room, ?_⟩
      intro next stepped
      obtain ⟨after, called, received, shown⟩ := shows_.receive room
      rw [textboxStep, received] at stepped
      obtain rfl := Option.some.inj stepped
      have longer := typing.length_receive_le first.inBox event
      exact ih shown (show (typing.receive first.inBox event).string.length + _ ≤ 99 by omega)

/-- **What a text box shows.** After every event the array of a text box holds what has
been typed, characters behind the 99th being ignored, no key changes another field, and
no call leaves the array, exactly as long as every key for the selected box, backspace
apart, finds fewer than 99 characters in it. -/
theorem textbox_shows_typing_iff (first : NguiTextboxData κ) (string : List UInt8)
    (holds : first.text.string = some string) (events : List TextboxEvent) :
    Streaming.Throughout (textboxStep first) (first, ⟨first.selected, string⟩) events
          (fun shown => ShowsTyping first shown.1 shown.2) ∧
        Streaming.EveryCall (textboxStep first) (first, ⟨first.selected, string⟩) events
          (fun shown => KeepsFields shown.1) ↔
      Streaming.EveryCall (textboxStep first) (first, ⟨first.selected, string⟩) events
        (fun shown => shown.1.HasRoom) := by
  apply Streaming.throughout_iff_everyCall fun shown : NguiTextboxData κ × Typing =>
    ShowsTyping first shown.1 shown.2
  case sound => exact fun _ shows_ => shows_
  case cautious =>
    intro before event shows_ room
    obtain ⟨after, called, received, -⟩ := shows_.receive room
    refine ⟨after, called, received, ?_⟩
    rintro sym unicode rfl
    exact nguiReceiveEventTextbox_key received
  case advances =>
    intro before event next shows_ room stepped
    obtain ⟨after, called, received, shown⟩ := shows_.receive room
    rw [textboxStep, received] at stepped
    obtain rfl := Option.some.inj stepped
    exact shown
  case exposes =>
    rintro before event shows_ ⟨after, called, received, -⟩ _
    exact shows_.hasRoom received
  case begins => exact ⟨first.text, holds, rfl⟩

end Steps

/-- A text box with a text, behind which its array is empty. -/
def textboxWith (text : List UInt8) (fits : text.length ≤ 99) : NguiTextboxData Unit where
  valid := true
  x := 100
  y := 100
  passwordbox := false
  xPadding := 10
  yPadding := 10
  width := 8 * 20
  selected := false
  text := ⟨text ++ 0 :: List.replicate (99 - text.length) 0, by
    rw [List.length_append, List.length_cons, List.length_replicate]
    omega⟩
  callback := some ()

theorem textbox_shows_typing_user :
    let first := textboxWith (CString.ascii "user") (by decide)
    let start : Typing := ⟨false, CString.ascii "user"⟩
    let events : List TextboxEvent :=
      [.mouseButtonDown 110 110, .keyDown 0x31 0x31, .keyDown sdlkBackspace 8]
    first.text.string = some start.string ∧
      Streaming.Throughout (textboxStep first) (first, start) events
        (fun shown => ShowsTyping first shown.1 shown.2) ∧
      Streaming.EveryCall (textboxStep first) (first, start) events
        (fun shown => KeepsFields shown.1) := by
  intro first start events
  have holds : first.text.string = some start.string := CString.read_token (by decide)
  have shown : ShowsTyping first first start := ⟨first.text, holds, rfl⟩
  exact ⟨holds, (textbox_shows_typing_iff first start.string holds events).mpr
    (shown.everyCall_hasRoom events (by decide))⟩

/-- In a box with 99 characters a click and a key leave no NUL in the array and write
behind it. -/
theorem textbox_full_counterexample :
    let first := textboxWith (List.replicate 99 0x61) (by decide)
    let start : Typing := ⟨false, List.replicate 99 0x61⟩
    let events : List TextboxEvent := [.mouseButtonDown 110 110, .keyDown 0x62 0x62]
    first.text.string = some start.string ∧
      (∃ written, first.text.store 99 0x62 = some written ∧ 0 ∉ written.bytes ∧
        written.store 100 0 = none) ∧
      ¬ (Streaming.Throughout (textboxStep first) (first, start) events
          (fun shown => ShowsTyping first shown.1 shown.2) ∧
        Streaming.EveryCall (textboxStep first) (first, start) events
          (fun shown => KeepsFields shown.1)) := by
  intro first start events
  have holds : first.text.string = some start.string := CString.read_token (by decide)
  have no_nul : 0 ∉ List.replicate 99 (0x61 : UInt8) ++ [0x62] := by
    rw [List.mem_append, not_or]
    exact ⟨fun nul => absurd (List.eq_of_mem_replicate nul) (by decide), by decide⟩
  have stored : first.text.store 99 0x62 = some ⟨List.replicate 99 0x61 ++ [0x62], rfl⟩ := by
    refine congrArg some (CString.CharArray.ext ?_)
    exact List.set_append_right _ _ (Nat.le_of_eq List.length_replicate)
  refine ⟨holds, ⟨_, stored, no_nul, rfl⟩, ?_⟩
  rintro ⟨-, keeps⟩
  obtain ⟨after, called, received, -⟩ :=
    keeps [.mouseButtonDown 110 110] (.keyDown 0x62 0x62) _ (List.prefix_refl events) rfl
  have selected : first.inBox 110 110 = true := by decide
  rw [nguiReceiveEventTextbox, if_pos selected,
    nguiTypeTextbox_full holds (by decide) (by decide)] at received
  cases received

/-- A box is set up with its text. -/
theorem nguiAddTextbox_string {x y : Int} {text : List UInt8} (clean : 0 ∉ text)
    (fits : text.length ≤ 99) (passwordbox : Bool) (callback : Option κ)
    (entry : NguiTextboxData κ) :
    ∃ d, nguiAddTextbox x y text passwordbox callback entry = some d ∧
      d.text.string = some text := by
  have copied : ∃ copied, entry.text.strcpy text = some copied :=
    ⟨_, dif_pos (Nat.lt_succ_of_le fits)⟩
  obtain ⟨copied, copying⟩ := copied
  have holds := CString.CharArray.string_strcpy clean copying
  rw [nguiAddTextbox, copying, Option.bind_eq_bind, Option.bind_some]
  exact ⟨_, rfl, holds⟩

/-- Every box receives the event on its own, and those that were deleted do not. -/
theorem nguiReceiveallTextbox_boxes (event : TextboxEvent) (boxes : List (NguiTextboxData κ)) :
    (nguiReceiveallTextbox event boxes).map Prod.fst =
      boxes.mapM fun d =>
        if d.valid then (nguiReceiveEventTextbox event d).map Prod.fst else some d := by
  induction boxes with
  | nil => rfl
  | cons d boxes ih =>
      rw [List.mapM_cons, ← ih, nguiReceiveallTextbox]
      split
      · cases nguiReceiveEventTextbox event d with
        | none => rfl
        | some first => cases nguiReceiveallTextbox event boxes <;> rfl
      · cases nguiReceiveallTextbox event boxes <;> rfl

end Hackterm
