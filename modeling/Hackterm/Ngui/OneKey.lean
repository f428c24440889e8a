import Hackterm.Ngui.VirtualButtons
import Mathlib.Data.List.Nodup
import Mathlib.Data.List.Pairwise

/-! # One click, one key

The keys stand on a grid of squares of 96 pixels, but a button is also pressed in the
rectangle of its text, which lies over the upper left corner of its own square and over the
edges of its neighbours. So a click presses at most one key once exactly when it is not in
a text and in a square at the same time; when it does not fall between the keys for closing
and for control on the few displays where these overlap; and when no key that stands left
of the window reaches, through a comparison in `size_t`, into the text of a key beside it
(`Hackterm.oneClick_iff`).
-/

namespace Hackterm

section Lists

variable {α β : Type}

/-- A list put together from pieces has at most one entry when one piece at most has. -/
theorem length_flatMap_le_one_iff (pieces : α → List β) (list : List α) :
    (list.flatMap pieces).length ≤ 1 ↔ (∀ a ∈ list, (pieces a).length ≤ 1) ∧
      list.Pairwise fun a b => pieces a = [] ∨ pieces b = [] := by
  induction list with
  | nil => simp
  | cons a list ih =>
      rw [List.flatMap_cons, List.length_append, List.forall_mem_cons, List.pairwise_cons]
      constructor
      · intro short
        have rest := ih.mp (by omega)
        refine ⟨⟨by omega, rest.1⟩, fun b member => ?_, rest.2⟩
        by_cases empty : pieces a = []
        · exact Or.inl empty
        · have filled := List.length_pos_of_ne_nil empty
          have none_ : (list.flatMap pieces).length = 0 := by omega
          exact Or.inr (List.flatMap_eq_nil_iff.mp (List.eq_nil_of_length_eq_zero none_) b member)
      · rintro ⟨⟨first, each⟩, apart, pairs⟩
        by_cases empty : pieces a = []
        · rw [empty, List.length_nil, Nat.zero_add]
          exact ih.mpr ⟨each, pairs⟩
        · have none_ : list.flatMap pieces = [] :=
            List.flatMap_eq_nil_iff.mpr fun b member => (apart b member).resolve_left empty
          rw [none_]
          exact first

end Lists

namespace NguiButtonData

variable {κ : Type} {d : NguiButtonData κ} {x y : Int}

theorem pressed_length_le_one_iff (icon : d.HasIcon) :
    (d.pressed x y).length ≤ 1 ↔ ¬ (d.InIcon x y ∧ d.InText x y) := by
  unfold pressed
  by_cases square : d.InIcon x y
  · by_cases text : d.InText x y
    · simp [icon, square, text]
    · simp [icon, square, text]
  · by_cases text : d.InText x y
    · simp [square, text]
    · simp [square, text]

theorem pressed_eq_nil_iff (icon : d.HasIcon) :
    d.pressed x y = [] ↔ ¬ (d.InIcon x y ∨ d.InText x y) := by
  unfold pressed
  rw [List.append_eq_nil_iff, not_or]
  simp [icon]

end NguiButtonData

/-- The font has size 16 and the display a size. -/
structure Geometry.SizeSixteen (st : Geometry) : Prop where
  width : st.nunifont.width = 8
  height : st.nunifont.height = 16
  displayWidth : 0 ≤ st.displayWidth ∧ st.displayWidth < 2 ^ 31
  displayHeight : 0 ≤ st.displayHeight ∧ st.displayHeight < 2 ^ 31

/-- A key of the layout. -/
def layoutKey (st : Geometry) (key : VirtualKey) : NguiButtonData VirtualKey :=
  VirtualKey.button (keyPlace st) (fun _ => 0) key

/-- The click is one the layout takes for one key at most. -/
structure OneKeyAt (st : Geometry) (x y : Int) : Prop where
  /-- No text lies over a square there. -/
  uncovered : ∀ key other, (layoutKey st key).InText x y → ¬ (layoutKey st other).InIcon x y
  /-- The keys for closing and for control overlap on displays of 369 to 383 pixels. -/
  unclosed : ¬ ((368 < st.displayHeight ∧ st.displayHeight < 384) ∧
    (st.dwidth - 96 < x ∧ x < st.dwidth) ∧ 80 < y ∧ y < 96)
  /-- No text that ends left of the window is followed, in its row, by one that is there. -/
  unreached : 0 ≤ x → ∀ key other, (keyPlace st key).2 = (keyPlace st other).2 →
    (keyPlace st key).1 < (keyPlace st other).1 → (layoutKey st key).textEnd < 0 →
      ¬ (layoutKey st other).InText x y

section Layout

variable {st : Geometry} {x y : Int}

theorem layoutKey_hasIcon (key : VirtualKey) : (layoutKey st key).HasIcon := by
  cases key <;> rfl

namespace Geometry.SizeSixteen

theorem dwidth_eq (sized : st.SizeSixteen) :
    st.dwidth = st.displayWidth - st.displayWidth % 16 := by
  unfold Geometry.dwidth
  rw [sized.width, Int.tmod_eq_emod_of_nonneg sized.displayWidth.1]
  rfl

theorem dheight_eq (sized : st.SizeSixteen) :
    st.dheight = st.displayHeight - st.displayHeight % 16 := by
  unfold Geometry.dheight
  rw [sized.height, Int.tmod_eq_emod_of_nonneg sized.displayHeight.1]

theorem closesAbove_iff (sized : st.SizeSixteen) : st.ClosesAbove ↔ 368 < st.displayHeight := by
  unfold Geometry.ClosesAbove
  rw [sized.height]
  omega

theorem corner_eq (sized : st.SizeSixteen) (cell : Int × Int) :
    st.corner cell = (st.dwidth - 96 * cell.1, st.dheight - 96 * cell.2) := by
  unfold Geometry.corner
  rw [sized.width, sized.height]
  rfl

end Geometry.SizeSixteen

namespace VirtualKey

theorem cell_injective : Function.Injective cell := by
  apply injective_of_find?
  intro key
  cases key <;> decide

theorem cell_range {key : VirtualKey} (shown : key ≠ kbshow) :
    (1 ≤ key.cell.1 ∧ key.cell.1 ≤ 4) ∧ 1 ≤ key.cell.2 ∧ key.cell.2 ≤ 3 := by
  revert shown
  cases key <;> decide

theorem text_length {key : VirtualKey} (shown : key ≠ kbshow) : key.text.length ≤ 6 := by
  revert shown
  cases key <;> decide

end VirtualKey

theorem keyPlace_close (sized : st.SizeSixteen) (above : 368 < st.displayHeight) :
    keyPlace st .close = (st.dwidth - 96, 0) := by
  unfold keyPlace
  rw [if_pos (sized.closesAbove_iff.mpr above), sized.width]
  rfl

/-- **The places.** The key for closing may stand at the upper edge, the other keys that are
shown stand on the grid. -/
theorem keyPlace_shown (sized : st.SizeSixteen) {key : VirtualKey} (shown : key ≠ .kbshow) :
    (key = .close ∧ 368 < st.displayHeight ∧ keyPlace st key = (st.dwidth - 96, 0)) ∨
      keyPlace st key = (st.dwidth - 96 * key.cell.1, st.dheight - 96 * key.cell.2) := by
  rw [← sized.corner_eq]
  by_cases above : key = .close ∧ st.ClosesAbove
  · obtain ⟨rfl, above⟩ := above
    have high := sized.closesAbove_iff.mp above
    exact Or.inl ⟨rfl, high, keyPlace_close sized high⟩
  · refine Or.inr ?_
    cases key with
    | close => exact if_neg fun closes => above ⟨rfl, closes⟩
    | kbshow => exact absurd rfl shown
    | _ => rfl

theorem inIcon_layoutKey (key : VirtualKey) : (layoutKey st key).InIcon x y ↔
    ((keyPlace st key).1 < x ∧ x < (keyPlace st key).1 + 96) ∧
      (keyPlace st key).2 < y ∧ y < (keyPlace st key).2 + 96 := by
  rw [and_assoc]
  rfl

theorem textEnd_layoutKey (key : VirtualKey) :
    (layoutKey st key).textEnd = (keyPlace st key).1 + key.text.length * 8 + 20 := rfl

theorem textEnd_shown (sized : st.SizeSixteen) {key : VirtualKey} (shown : key ≠ .kbshow) :
    -2 ^ 31 ≤ (layoutKey st key).textEnd ∧ (layoutKey st key).textEnd < 2 ^ 31 := by
  have wide := sized.dwidth_eq
  have displayed := sized.displayWidth
  have short := VirtualKey.text_length shown
  have cell := VirtualKey.cell_range shown
  rw [textEnd_layoutKey]
  obtain ⟨-, -, place⟩ | place := keyPlace_shown sized shown
  · rw [place]
    omega
  · rw [place]
    omega

/-- The text of a key, with the comparison of its right side worked out. -/
theorem inText_layoutKey (sized : st.SizeSixteen) (left : -2 ^ 31 ≤ x) (right : x < 2 ^ 31)
    (key : VirtualKey) : (layoutKey st key).InText x y ↔
    ((keyPlace st key).1 - 20 < x ∧
      (0 ≤ x ∧ ((layoutKey st key).textEnd < 0 ∨ x < (layoutKey st key).textEnd) ∨
        x < 0 ∧ x < (layoutKey st key).textEnd ∧ (layoutKey st key).textEnd < 0)) ∧
      (keyPlace st key).2 - 20 < y ∧ y < (keyPlace st key).2 + 16 + 20 := by
  by_cases shown : key = .kbshow
  · subst shown
    have ends : (layoutKey st .kbshow).textEnd = -924 := rfl
    exact NguiButtonData.inText_iff left right (by rw [ends]; decide) (by rw [ends]; decide)
  · have ends := textEnd_shown sized shown
    exact NguiButtonData.inText_iff left right ends.1 ends.2

/-- The click lies in one of the two places where a key is pressed. -/
def Hits (st : Geometry) (x y : Int) (key : VirtualKey) : Prop :=
  (layoutKey st key).InIcon x y ∨ (layoutKey st key).InText x y

/-- How far a key reaches up and down. -/
theorem Hits.row {key : VirtualKey} (hits : Hits st x y key) :
    (keyPlace st key).2 - 20 < y ∧ y < (keyPlace st key).2 + 96 := by
  obtain ⟨-, -, above, below⟩ | ⟨-, -, above, below⟩ := hits
  · have place : (layoutKey st key).y = (keyPlace st key).2 := rfl
    omega
  · have place : (layoutKey st key).y = (keyPlace st key).2 := rfl
    have padding : (layoutKey st key).yPadding = 20 := rfl
    omega

/-- The key out of the window is not hit together with another one. -/
theorem Hits.shown (sized : st.SizeSixteen) {key other : VirtualKey} (different : key ≠ other)
    (first : Hits st x y key) (second : Hits st x y other) : key ≠ .kbshow := by
  rintro rfl
  have high := sized.dheight_eq
  have displayed := sized.displayHeight
  have hidden : (keyPlace st .kbshow).2 = -1000 := rfl
  have cell := VirtualKey.cell_range different.symm
  have above := first.row
  have below := second.row
  obtain ⟨-, -, place⟩ | place := keyPlace_shown sized different.symm
  · rw [place] at below
    omega
  · rw [place] at below
    omega

/-- Two keys that are hit together stand on the grid, in different cells, or one of them on
the grid and the other at the upper edge. -/
theorem Hits.places (sized : st.SizeSixteen) {key other : VirtualKey} (different : key ≠ other)
    (first : Hits st x y key) (second : Hits st x y other) :
    (368 < st.displayHeight ∧ keyPlace st key = (st.dwidth - 96, 0) ∧
        keyPlace st other = (st.dwidth - 96 * other.cell.1, st.dheight - 96 * other.cell.2)) ∨
      (368 < st.displayHeight ∧ keyPlace st other = (st.dwidth - 96, 0) ∧
        keyPlace st key = (st.dwidth - 96 * key.cell.1, st.dheight - 96 * key.cell.2)) ∨
      (keyPlace st key = (st.dwidth - 96 * key.cell.1, st.dheight - 96 * key.cell.2) ∧
        keyPlace st other = (st.dwidth - 96 * other.cell.1, st.dheight - 96 * other.cell.2)) := by
  obtain ⟨rfl, above, place⟩ | place := keyPlace_shown sized (first.shown sized different second)
  · obtain ⟨rfl, -, -⟩ | place' := keyPlace_shown sized (second.shown sized different.symm first)
    · exact absurd rfl different
    · exact Or.inl ⟨above, place, place'⟩
  · obtain ⟨-, above, place'⟩ | place' :=
      keyPlace_shown sized (second.shown sized different.symm first)
    · exact Or.inr (Or.inl ⟨above, place', place⟩)
    · exact Or.inr (Or.inr ⟨place, place'⟩)

/-- **Squares.** Two of them meet in one place only, and on few displays. -/
theorem icons_apart (sized : st.SizeSixteen) {key other : VirtualKey} (different : key ≠ other)
    (first : (layoutKey st key).InIcon x y) (second : (layoutKey st other).InIcon x y) :
    (368 < st.displayHeight ∧ st.displayHeight < 384) ∧
      (st.dwidth - 96 < x ∧ x < st.dwidth) ∧ 80 < y ∧ y < 96 := by
  have high := sized.dheight_eq
  have hit : Hits st x y key := Or.inl first
  have hit' : Hits st x y other := Or.inl second
  have cell := VirtualKey.cell_range (hit.shown sized different hit')
  have cell' := VirtualKey.cell_range (hit'.shown sized different.symm hit)
  rw [inIcon_layoutKey] at first second
  obtain ⟨above, place, place'⟩ | ⟨above, place', place⟩ | ⟨place, place'⟩ :=
    hit.places sized different hit'
  · rw [place] at first
    rw [place'] at second
    omega
  · rw [place] at first
    rw [place'] at second
    omega
  · rw [place] at first
    rw [place'] at second
    have same : key.cell = other.cell := Prod.ext (by omega) (by omega)
    exact absurd (VirtualKey.cell_injective same) different

/-- **Texts.** Two of them meet only where one ends left of the window. -/
theorem texts_apart (sized : st.SizeSixteen) (left : -2 ^ 31 ≤ x) (right : x < 2 ^ 31)
    {key other : VirtualKey} (different : key ≠ other)
    (first : (layoutKey st key).InText x y) (second : (layoutKey st other).InText x y) :
    0 ≤ x ∧ (keyPlace st key).2 = (keyPlace st other).2 ∧
      ((keyPlace st key).1 < (keyPlace st other).1 ∧ (layoutKey st key).textEnd < 0 ∨
        (keyPlace st other).1 < (keyPlace st key).1 ∧ (layoutKey st other).textEnd < 0) := by
  have high := sized.dheight_eq
  have hit : Hits st x y key := Or.inr first
  have hit' : Hits st x y other := Or.inr second
  have shown := hit.shown sized different hit'
  have shown' := hit'.shown sized different.symm hit
  have cell := VirtualKey.cell_range shown
  have cell' := VirtualKey.cell_range shown'
  have short := VirtualKey.text_length shown
  have short' := VirtualKey.text_length shown'
  rw [inText_layoutKey sized left right, textEnd_layoutKey] at first second
  rw [textEnd_layoutKey, textEnd_layoutKey]
  obtain ⟨above, place, place'⟩ | ⟨above, place', place⟩ | ⟨place, place'⟩ :=
    hit.places sized different hit'
  · rw [place] at first
    rw [place'] at second
    omega
  · rw [place] at first
    rw [place'] at second
    omega
  · rw [place] at first ⊢
    rw [place'] at second ⊢
    -- In one row different keys stand in different columns.
    have columns : key.cell.1 ≠ other.cell.1 := by
      intro column
      have same : key.cell = other.cell := Prod.ext column (by omega)
      exact different (VirtualKey.cell_injective same)
    omega

/-- What the layout calls, key by key. -/
theorem layout_calls (shine : VirtualKey → Int) (x y : Int) :
    callbacks (nguiReceiveallButton (.mouseButtonDown x y) (keyboard (keyPlace st) shine)).2 =
      VirtualKey.all.flatMap fun key => (layoutKey st key).pressed x y := by
  rw [nguiReceiveallButton_calls]
  rfl

/-- **Exclusion.** At most one call is made when the places of the keys exclude each other. -/
theorem layout_calls_le_one_iff (shine : VirtualKey → Int) (x y : Int) :
    (callbacks (nguiReceiveallButton (.mouseButtonDown x y)
        (keyboard (keyPlace st) shine)).2).length ≤ 1 ↔
      (∀ key, ¬ ((layoutKey st key).InIcon x y ∧ (layoutKey st key).InText x y)) ∧
        ∀ key other, key ≠ other → ¬ (Hits st x y key ∧ Hits st x y other) := by
  have single (key : VirtualKey) := @NguiButtonData.pressed_length_le_one_iff _
    (layoutKey st key) x y (layoutKey_hasIcon key)
  have silent (key : VirtualKey) : (layoutKey st key).pressed x y = [] ↔ ¬ Hits st x y key :=
    NguiButtonData.pressed_eq_nil_iff (layoutKey_hasIcon key)
  rw [layout_calls, length_flatMap_le_one_iff]
  simp only [single, silent]
  constructor
  · rintro ⟨alone, pairs⟩
    refine ⟨fun key => alone key key.mem_all, fun key other different both => ?_⟩
    have symmetric : Std.Symm fun key other => ¬ Hits st x y key ∨ ¬ Hits st x y other :=
      ⟨fun _ _ => Or.symm⟩
    obtain missed | missed := pairs.forall key.mem_all other.mem_all different
    · exact missed both.1
    · exact missed both.2
  · rintro ⟨alone, apart⟩
    refine ⟨fun key _ => alone key, VirtualKey.all_nodup.pairwise_of_forall_ne ?_⟩
    exact fun key _ other _ different => not_and_or.mp (apart key other different)

/-- **The geometry.** The places exclude each other at the clicks the layout takes for one
key. -/
theorem oneKeyAt_iff (sized : st.SizeSixteen) (left : -2 ^ 31 ≤ x) (right : x < 2 ^ 31) :
    OneKeyAt st x y ↔
      (∀ key, ¬ ((layoutKey st key).InIcon x y ∧ (layoutKey st key).InText x y)) ∧
        ∀ key other, key ≠ other → ¬ (Hits st x y key ∧ Hits st x y other) := by
  constructor
  · intro one
    refine ⟨fun key both => one.uncovered key key both.2 both.1, fun key other different => ?_⟩
    rintro ⟨first | first, second | second⟩
    · exact one.unclosed (icons_apart sized different first second)
    · exact one.uncovered other key second first
    · exact one.uncovered key other first second
    · obtain ⟨inside, row, before | behind⟩ := texts_apart sized left right different first second
      · exact one.unreached inside key other row before.1 before.2 second
      · exact one.unreached inside other key row.symm behind.1 behind.2 first
  · rintro ⟨alone, apart⟩
    refine ⟨fun key other text icon => ?_, fun region => ?_,
      fun inside key other row before ends text => ?_⟩
    · by_cases same : key = other
      · subst same
        exact alone key ⟨icon, text⟩
      · exact apart key other same ⟨Or.inr text, Or.inl icon⟩
    · have high := sized.dheight_eq
      have closes := keyPlace_close sized region.1.1
      have control : keyPlace st .ctrl = (st.dwidth - 96, st.dheight - 288) := sized.corner_eq (1, 3)
      refine apart .close .ctrl (by decide) ⟨Or.inl ?_, Or.inl ?_⟩
      · rw [inIcon_layoutKey, closes]
        omega
      · rw [inIcon_layoutKey, control]
        omega
    · have different : key ≠ other := by
        rintro rfl
        exact lt_irrefl _ before
      refine apart key other different ⟨Or.inr ?_, Or.inr text⟩
      rw [inText_layoutKey sized left right] at text ⊢
      rw [textEnd_layoutKey] at ends ⊢
      omega

end Layout

/-- **One click, one key.** On a keyboard that was just put to its places, a press of the
mouse calls at most one callback, and calls it once, exactly at the clicks the layout takes
for one key. -/
theorem oneClick_iff (buttons after : Keyboard) (reachable : ReachableKeyboard buttons)
    (st : Geometry) (sized : st.SizeSixteen)
    (moved : virtualButtonsReposition st buttons = some after) (x y : Int) (left : -2 ^ 31 ≤ x)
    (right : x < 2 ^ 31) :
    (callbacks (nguiReceiveallButton (.mouseButtonDown x y) after).2).length ≤ 1 ↔
      OneKeyAt st x y := by
  obtain ⟨place, shine, rfl⟩ := reachable.keyed
  rw [virtualButtonsReposition_eq_some moved, layout_calls_le_one_iff,
    oneKeyAt_iff sized left right]

/-- A click in the middle of the square of a key. -/
theorem oneClick_middle :
    ∃ start after, addVirtualButtons (mainStart inlineStatic (640, 480)) [] = some start ∧
      virtualButtonsReposition (mainStart inlineStatic (640, 480)) start = some after ∧
      (callbacks (nguiReceiveallButton (.mouseButtonDown 400 250) after).2).length ≤ 1 := by
  obtain ⟨place, added⟩ := addVirtualButtons_keyboard (mainStart inlineStatic (640, 480))
  have moved := virtualButtonsReposition_keyboard place (fun _ => 0)
    (mainStart inlineStatic (640, 480)) (by decide)
  have outside (key : VirtualKey) :
      ¬ (layoutKey (mainStart inlineStatic (640, 480)) key).InText 400 250 := by
    cases key <;> decide
  refine ⟨_, _, added, moved, (oneClick_iff _ _ ⟨_, _, added, .refl⟩ _ ?_ moved 400 250
    (by decide) (by decide)).mpr ?_⟩
  · exact ⟨by decide, by decide, by decide, by decide⟩
  · exact ⟨fun key _ text => absurd text (outside key), by decide,
      fun _ _ other _ _ _ => outside other⟩

/-- A click in the upper left of a square sends the key twice. -/
theorem oneClick_twice :
    ∃ start after, addVirtualButtons (mainStart inlineStatic (640, 480)) [] = some start ∧
      virtualButtonsReposition (mainStart inlineStatic (640, 480)) start = some after ∧
      callbacks (nguiReceiveallButton (.mouseButtonDown 360 200) after).2 = [.esc, .esc] := by
  obtain ⟨place, added⟩ := addVirtualButtons_keyboard (mainStart inlineStatic (640, 480))
  have moved := virtualButtonsReposition_keyboard place (fun _ => 0)
    (mainStart inlineStatic (640, 480)) (by decide)
  refine ⟨_, _, added, moved, ?_⟩
  decide

end Hackterm
