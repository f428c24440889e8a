import Hackterm.Geometry.Agreement

/-! # The display and the window

`process_resize` takes the size of the display from the data of the event, for a
resized and for a restored window alike, although it has just asked for the size of
the window. SDL puts the size into the first kind of event only; the second carries
zeros. So the display has the size of the window after every such event exactly when no
window that has a size is restored (`Hackterm.showsWindow_iff`).
-/

namespace Hackterm

open Streaming

/-- A window that was resized or restored. -/
def SdlEvent.Resizes (event : SdlEvent) : Prop :=
  event.isWindowEvent ∧ (event.event = .resized ∨ event.event = .restored)

/-- An event as SDL posts it while no keyboard is shown. -/
structure SdlEvent.Posted (event : SdlEvent) : Prop where
  no_keyboard : event.keyboardShown = false
  resized : event.isWindowEvent → event.event = .resized →
    (event.data1, event.data2) = event.windowSize
  restored : event.isWindowEvent → event.event = .restored → (event.data1, event.data2) = (0, 0)

/-- The events of a run are posted by SDL. -/
def EventsPosted (events : List GeometryEvent) : Prop :=
  ∀ event, GeometryEvent.window event ∈ events → event.Posted

/-- The display has the size of the window the event is about, and where a character cell
fits the window it fits the grid. -/
structure Geometry.Shows (st : Geometry) (event : SdlEvent) : Prop where
  display : (st.displayWidth, st.displayHeight) = event.windowSize
  grid : st.nunifont.width ≤ event.windowSize.1 → st.nunifont.height ≤ event.windowSize.2 →
    0 < st.cols ∧ 0 < st.rows

/-- An event that resizes the window leaves the display with its size. -/
def Geometry.ShowsWindow (before : Geometry) : GeometryEvent → Prop
  | .window event => event.Resizes → (processResize event before).Shows event
  | .text _ => True

/-- No window that has a size is restored. -/
def Geometry.NotRestored (_ : Geometry) : GeometryEvent → Prop
  | .window event => event.isWindowEvent → event.event = .restored → event.windowSize = (0, 0)
  | .text _ => True

theorem terminalResize_display (st : Geometry) :
    (terminalResize st).displayWidth = st.displayWidth ∧
      (terminalResize st).displayHeight = st.displayHeight := by
  unfold terminalResize
  dsimp only
  split_ifs
  · exact ⟨rfl, rfl⟩
  · exact ⟨rfl, rfl⟩

theorem terminalResize_grid (st : Geometry) :
    (terminalResize st).cols = st.displayWidth.tdiv st.nunifont.width ∧
      (terminalResize st).rows = st.displayHeight.tdiv st.nunifont.height := by
  unfold terminalResize
  dsimp only
  split_ifs
  · exact ⟨rfl, rfl⟩
  · exact ⟨rfl, rfl⟩

/-- An event that resizes the window is one for the first branch only. -/
theorem processResize_resizes {event : SdlEvent} (resizes : event.Resizes) (before : Geometry) :
    processResize event before = recreateRenderer event before := by
  have not_rotated : ¬ (event.isWindowEvent ∧ event.event = .rotate) := by
    rintro ⟨-, rotated⟩
    obtain ⟨-, resized | restored⟩ := resizes
    · exact absurd (resized.symm.trans rotated) (by decide)
    · exact absurd (restored.symm.trans rotated) (by decide)
  have named : event.isWindowEvent ∧ (event.event = .resized ∨ event.event = .restored) := resizes
  unfold processResize
  dsimp only
  rw [if_neg not_rotated, if_pos (Or.inr named)]
  split_ifs
  · rfl
  · rfl

/-- **The size taken.** Without a keyboard the display gets the data of the event. -/
theorem processResize_display {event : SdlEvent} (resizes : event.Resizes)
    (no_keyboard : event.keyboardShown = false) (before : Geometry) :
    (processResize event before).displayWidth = event.data1 ∧
      (processResize event before).displayHeight = event.data2 := by
  rw [processResize_resizes resizes, recreateRenderer, no_keyboard, if_neg Bool.false_ne_true]
  exact terminalResize_display _

theorem processResize_grid {event : SdlEvent} (resizes : event.Resizes)
    (no_keyboard : event.keyboardShown = false) (before : Geometry) :
    (processResize event before).cols = event.data1.tdiv before.nunifont.width ∧
      (processResize event before).rows = event.data2.tdiv before.nunifont.height := by
  rw [processResize_resizes resizes, recreateRenderer, no_keyboard, if_neg Bool.false_ne_true]
  exact terminalResize_grid _

theorem Geometry.Sized.cell_positive {st : Geometry} (sized : st.Sized) :
    0 < st.nunifont.width ∧ 0 < st.nunifont.height := by
  obtain small | large := sized
  · rw [small]
    exact ⟨by decide, by decide⟩
  · rw [large]
    exact ⟨by decide, by decide⟩

theorem tdiv_pos_of_le {length cell : Int} (positive : 0 < cell) (fits : cell ≤ length) :
    0 < length.tdiv cell := by
  rw [Int.tdiv_eq_ediv_of_nonneg (positive.le.trans fits)]
  apply Int.le_ediv_of_mul_le positive
  rw [zero_add, one_mul]
  exact fits

/-- With the size of the window the display shows it. -/
theorem processResize_shows {event : SdlEvent} (resizes : event.Resizes)
    (no_keyboard : event.keyboardShown = false) {before : Geometry} (sized : before.Sized)
    (carried : (event.data1, event.data2) = event.windowSize) :
    (processResize event before).Shows event := by
  have display := processResize_display resizes no_keyboard before
  have grid := processResize_grid resizes no_keyboard before
  have cell := sized.cell_positive
  constructor
  · rw [display.1, display.2, carried]
  · rw [Geometry.nunifont, processResize_inlineData, grid.1, grid.2, ← carried]
    intro width height
    exact ⟨tdiv_pos_of_le cell.1 width, tdiv_pos_of_le cell.2 height⟩

/-- **One event.** It leaves the display with the size of the window exactly when it is
not about a restored window that has a size. -/
theorem showsWindow_step_iff {before : Geometry} (sized : before.Sized) (event : GeometryEvent)
    (posted : ∀ posted, event = .window posted → posted.Posted) :
    before.ShowsWindow event ↔ before.NotRestored event := by
  cases event with
  | text data => exact Iff.rfl
  | window event =>
      have posted := posted event rfl
      constructor
      · intro shows window restored
        have resizes : event.Resizes := ⟨window, Or.inr restored⟩
        have display := processResize_display resizes posted.no_keyboard before
        rw [← (shows resizes).display, display.1, display.2]
        exact posted.restored window restored
      · intro sizeless resizes
        apply processResize_shows resizes posted.no_keyboard sized
        obtain ⟨window, resized | restored⟩ := resizes
        · exact posted.resized window resized
        · rw [posted.restored window restored, sizeless window restored]

/-- **Window events.** From the window the program starts in, the display has the size
of the window after every event that resizes it, and room for a cell where the window
has, exactly when no window that has a size is restored. -/
theorem showsWindow_iff (png : Libpng) (inlineData : InlineData) (windowSize : Int × Int)
    (events : List GeometryEvent) (posted : EventsPosted events) :
    EveryStep (geometryStep png) (mainStart inlineData windowSize) events Geometry.ShowsWindow ↔
      EveryStep (geometryStep png) (mainStart inlineData windowSize) events
        Geometry.NotRestored := by
  apply everyStep_congr Geometry.Sized (geometryStep_sized png) (mainStart_sized _ _)
  intro before event sized member
  apply showsWindow_step_iff sized
  rintro window rfl
  exact posted window member

/-- A window made larger, and not restored, is shown. -/
theorem showsWindow_resized :
    EveryStep (geometryStep ⟨fun _ => true, fun _ _ => none⟩) (mainStart inlineStatic (640, 480))
      [.window ⟨true, .resized, 1324, 750, (1324, 750), false⟩] Geometry.ShowsWindow := by
  refine (showsWindow_iff _ _ _ _ ?_).mpr ?_
  · intro event member
    obtain rfl := GeometryEvent.window.inj (List.mem_singleton.mp member)
    exact ⟨rfl, fun _ _ => rfl, fun _ restored => absurd restored (by decide)⟩
  · intro front event before after within reached stepped
    have member := within.subset (List.mem_append_right _ (List.mem_singleton_self event))
    rw [List.mem_singleton.mp member]
    exact fun _ restored => absurd restored (by decide)

/-- A window of 1324 by 750 pixels that is restored is not shown. -/
theorem showsWindow_restored :
    ¬ EveryStep (geometryStep ⟨fun _ => true, fun _ _ => none⟩)
      (mainStart inlineStatic (1324, 750))
      [.window ⟨true, .restored, 0, 0, (1324, 750), false⟩] Geometry.ShowsWindow := by
  intro shows
  have shown := shows [] _ _ _ (List.prefix_refl _) rfl rfl ⟨rfl, Or.inr rfl⟩
  exact absurd shown.display (by decide)

end Hackterm
