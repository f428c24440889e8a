import Hackterm.Geometry.Display
import Hackterm.Inline.CellSize
import Hackterm.Streaming.Run

/-! # Agreement of the grid with the display

After every window event the grid, the terminal and the host agree with the display
and the character cell (`Hackterm.processResize_agrees`). A chunk of text that
changes the cell recomputes nothing, so they agree afterwards only if the display has
no room for a cell of the normal size (`Hackterm.geometry_agrees_iff`).
-/

namespace Hackterm

open Streaming

/-- The grid is what fits the display, and the terminal and the host have it. -/
structure Geometry.Agrees (st : Geometry) : Prop where
  cols : st.cols = st.displayWidth.tdiv st.nunifont.width
  rows : st.rows = st.displayHeight.tdiv st.nunifont.height
  vt : st.vt = some (st.rows, st.cols)
  resized : st.resized = some (st.cols, st.rows)

/-- The character cell has one of its two sizes. -/
def Geometry.Sized (st : Geometry) : Prop :=
  st.nunifont = ⟨8, 16, 0⟩ ∨ st.nunifont = ⟨16, 32, 0⟩

/-- An event keeps the grid: a chunk of text commands no size, or the present one, or
the display has no room for a single cell of the normal size. -/
def Geometry.KeepsGrid (st : Geometry) : GeometryEvent → Prop
  | .window _ => True
  | .text data => ∀ size, commandedSize st.inlineData data = some size →
      size = st.nunifont.height ∨ st.displayWidth.natAbs < 8 ∧ st.displayHeight.natAbs < 16

theorem terminalResize_agrees (st : Geometry) (created : st.vt.isSome) :
    (terminalResize st).Agrees := by
  have room : st.computeGrid.vt.isSome := created
  unfold terminalResize
  dsimp only
  rw [if_pos room]
  exact ⟨rfl, rfl, rfl, rfl⟩

theorem recreateRenderer_agrees (event : SdlEvent) (st : Geometry) (created : st.vt.isSome) :
    (recreateRenderer event st).Agrees := by
  unfold recreateRenderer
  dsimp only
  apply terminalResize_agrees
  split_ifs
  · exact created
  · exact created

theorem rotateDisplay_agrees (event : SdlEvent) (st : Geometry) (created : st.vt.isSome) :
    (rotateDisplay event st).Agrees := by
  unfold rotateDisplay
  dsimp only
  apply terminalResize_agrees
  split_ifs
  · exact created
  · exact created

theorem Geometry.Agrees.created {st : Geometry} (agrees : st.Agrees) : st.vt.isSome := by
  rw [agrees.vt]
  rfl

/-- **Window events.** They restore the agreement. -/
theorem processResize_agrees (event : SdlEvent) (st : Geometry) (agrees : st.Agrees) :
    (processResize event st).Agrees := by
  have ticked : ∀ forced, Geometry.Agrees { st with forcedRecreaterenderer := forced } :=
    fun _ => ⟨agrees.cols, agrees.rows, agrees.vt, agrees.resized⟩
  have turned : ∀ turned : Geometry, turned.Agrees →
      (if event.isWindowEvent ∧ event.event = .rotate then rotateDisplay event turned
        else turned).Agrees := by
    intro turned agrees
    split_ifs
    · exact rotateDisplay_agrees event turned agrees.created
    · exact agrees
  unfold processResize
  apply turned
  split_ifs
  · exact recreateRenderer_agrees event _ agrees.created
  · exact ticked _
  · exact recreateRenderer_agrees event _ agrees.created
  · exact agrees

theorem terminalResize_inlineData (st : Geometry) :
    (terminalResize st).inlineData = st.inlineData := by
  unfold terminalResize
  dsimp only
  split_ifs
  · rfl
  · rfl

theorem recreateRenderer_inlineData (event : SdlEvent) (st : Geometry) :
    (recreateRenderer event st).inlineData = st.inlineData := by
  unfold recreateRenderer
  dsimp only
  rw [terminalResize_inlineData]
  split_ifs
  · rfl
  · rfl

theorem rotateDisplay_inlineData (event : SdlEvent) (st : Geometry) :
    (rotateDisplay event st).inlineData = st.inlineData := by
  unfold rotateDisplay
  dsimp only
  rw [terminalResize_inlineData]
  split_ifs
  · rfl
  · rfl

/-- Window events leave the text stream, and with it the character cell, alone. -/
theorem processResize_inlineData (event : SdlEvent) (st : Geometry) :
    (processResize event st).inlineData = st.inlineData := by
  unfold processResize
  dsimp only
  split_ifs
  all_goals simp only [rotateDisplay_inlineData, recreateRenderer_inlineData]

/-- The window the state starts in is agreed on. -/
theorem mainStart_agrees (inlineData : InlineData) (windowSize : Int × Int) :
    (mainStart inlineData windowSize).Agrees := by
  unfold mainStart
  apply terminalResize_agrees
  rfl

theorem mainStart_sized (inlineData : InlineData) (windowSize : Int × Int) :
    (mainStart inlineData windowSize).Sized := by
  unfold Geometry.Sized Geometry.nunifont mainStart
  rw [terminalResize_inlineData]
  dsimp only [vtermInitialisation, Geometry.computeGrid]
  split_ifs
  · exact Or.inr rfl
  · exact Or.inl rfl

/-- A chunk of text changes the cell as it commands, and nothing else of the display. -/
theorem geometryStep_text {png : Libpng} {before after : Geometry} {data : List UInt8}
    (stepped : geometryStep png before (.text data) = some after) :
    (∃ inlineData, after = { before with inlineData := inlineData }) ∧
      after.nunifont = commandedFont before.nunifont (commandedSize before.inlineData data) := by
  obtain ⟨⟨inlineData, value⟩, received, rfl⟩ := Option.map_eq_some_iff.mp stepped
  exact ⟨⟨inlineData, rfl⟩, inlineDataReceive_nunifont received⟩

theorem commandedSize_eq (st : InlineData) (data : List UInt8) {size : Int}
    (commanded : commandedSize st data = some size) : size = 16 ∨ size = 32 := by
  unfold commandedSize at commanded
  split_ifs at commanded
  · exact Or.inr (Option.some.inj commanded).symm
  · exact Or.inl (Option.some.inj commanded).symm

theorem geometryStep_sized (png : Libpng) (before : Geometry) (event : GeometryEvent)
    (after : Geometry) (sized : before.Sized)
    (stepped : geometryStep png before event = some after) : after.Sized := by
  cases event with
  | window event =>
      obtain rfl := Option.some.inj stepped
      unfold Geometry.Sized Geometry.nunifont
      rw [processResize_inlineData]
      exact sized
  | text data =>
      obtain ⟨-, font⟩ := geometryStep_text stepped
      unfold Geometry.Sized
      rw [font]
      cases commanded : commandedSize before.inlineData data with
      | none => exact sized
      | some size =>
          obtain rfl | rfl := commandedSize_eq _ _ commanded
          · exact Or.inl rfl
          · exact Or.inr rfl

/-- A cell of twice the size fits half as often, which is as often only if it never
fits. -/
theorem tdiv_double_eq_iff (length : Int) {cell : Nat} (positive : 0 < cell) :
    length.tdiv cell = length.tdiv (cell * 2 : Nat) ↔ length.natAbs < cell := by
  have halves : length.natAbs / cell = length.natAbs / (cell * 2) ↔ length.natAbs < cell := by
    rw [← Nat.div_div_eq_div_mul]
    constructor
    · intro same
      have none : ∀ count : Nat, count = count / 2 → count = 0 := by omega
      exact (Nat.div_eq_zero_iff_lt positive).mp (none _ same)
    · intro small
      rw [Nat.div_eq_of_lt small]
  obtain ⟨count, rfl | rfl⟩ := length.eq_nat_or_neg
  · rw [Int.natAbs_natCast] at halves ⊢
    rw [← Int.ofNat_tdiv, ← Int.ofNat_tdiv, Int.natCast_inj]
    exact halves
  · rw [Int.natAbs_neg, Int.natAbs_natCast] at halves ⊢
    rw [Int.neg_tdiv, Int.neg_tdiv, Int.neg_inj, ← Int.ofNat_tdiv, ← Int.ofNat_tdiv,
      Int.natCast_inj]
    exact halves

/-- With another cell the grid still fits exactly when it is as large as before. -/
theorem Geometry.Agrees.iff_same_grid {before : Geometry} (agrees : before.Agrees)
    (inlineData : InlineData) :
    Geometry.Agrees { before with inlineData := inlineData } ↔
      before.displayWidth.tdiv before.nunifont.width =
          before.displayWidth.tdiv inlineData.nunifont.width ∧
        before.displayHeight.tdiv before.nunifont.height =
          before.displayHeight.tdiv inlineData.nunifont.height := by
  rw [← agrees.cols, ← agrees.rows]
  constructor
  · intro after
    exact ⟨after.cols, after.rows⟩
  · rintro ⟨cols, rows⟩
    exact ⟨cols, rows, agrees.vt, agrees.resized⟩

/-- A commanded size keeps the grid when it is the present one, or neither cell fits. -/
theorem Geometry.Sized.same_grid_iff {before : Geometry} (sized : before.Sized) {size : Int}
    (known : size = 16 ∨ size = 32) {font : Nunifont}
    (commanded : font = nunifontSize size before.nunifont) :
    before.displayWidth.tdiv before.nunifont.width = before.displayWidth.tdiv font.width ∧
        before.displayHeight.tdiv before.nunifont.height = before.displayHeight.tdiv font.height ↔
      size = before.nunifont.height ∨
        before.displayWidth.natAbs < 8 ∧ before.displayHeight.natAbs < 16 := by
  have width := tdiv_double_eq_iff before.displayWidth (Nat.succ_pos 7)
  have height := tdiv_double_eq_iff before.displayHeight (Nat.succ_pos 15)
  subst commanded
  obtain rfl | rfl := known
  · obtain small | large := sized
    · rw [small]
      exact iff_of_true ⟨rfl, rfl⟩ (Or.inl rfl)
    · rw [large, eq_comm, eq_comm (a := before.displayHeight.tdiv _)]
      exact (and_congr width height).trans (or_iff_right (by decide)).symm
  · obtain small | large := sized
    · rw [small]
      exact (and_congr width height).trans (or_iff_right (by decide)).symm
    · rw [large]
      exact iff_of_true ⟨rfl, rfl⟩ (Or.inl rfl)

/-- **One step.** After a step from an agreed state there is agreement exactly when the
event kept the grid. -/
theorem geometryStep_agrees_iff (png : Libpng) (before : Geometry) (event : GeometryEvent)
    (after : Geometry) (sized : before.Sized) (agrees : before.Agrees)
    (stepped : geometryStep png before event = some after) :
    after.Agrees ↔ before.KeepsGrid event := by
  cases event with
  | window event =>
      obtain rfl := Option.some.inj stepped
      exact iff_of_true (processResize_agrees event before agrees) trivial
  | text data =>
      obtain ⟨⟨inlineData, rfl⟩, font⟩ := geometryStep_text stepped
      rw [agrees.iff_same_grid inlineData]
      cases commanded : commandedSize before.inlineData data with
      | none =>
          have same : inlineData.nunifont = before.nunifont := by
            rw [commanded] at font
            exact font
          rw [same]
          refine iff_of_true ⟨rfl, rfl⟩ fun size other => ?_
          rw [commanded] at other
          cases other
      | some size =>
          have resized : inlineData.nunifont = nunifontSize size before.nunifont := by
            rw [commanded] at font
            exact font
          rw [sized.same_grid_iff (commandedSize_eq _ _ commanded) resized, Geometry.KeepsGrid]
          constructor
          · intro keeps other same
            rwa [← Option.some.inj (commanded.symm.trans same)]
          · intro keeps
            exact keeps size commanded

/-- **Terminal geometry.** From the window the program starts in, the grid, the
terminal and the host agree with the display and the character cell in every state of
a run exactly when every event of the run keeps the grid. -/
theorem geometry_agrees_iff (png : Libpng) (inlineData : InlineData) (windowSize : Int × Int)
    (events : List GeometryEvent) :
    Throughout (geometryStep png) (mainStart inlineData windowSize) events Geometry.Agrees ↔
      EveryStep (geometryStep png) (mainStart inlineData windowSize) events Geometry.KeepsGrid := by
  apply throughout_iff_everyStep fun st => st.Sized ∧ st.Agrees
  · rintro st ⟨-, agrees⟩
    exact agrees
  · rintro before event after ⟨sized, agrees⟩ stepped keeps
    exact ⟨geometryStep_sized png before event after sized stepped,
      (geometryStep_agrees_iff png before event after sized agrees stepped).mpr keeps⟩
  · rintro before event after ⟨sized, agrees⟩ stepped
    exact (geometryStep_agrees_iff png before event after sized agrees stepped).mp
  · exact ⟨mainStart_sized inlineData windowSize, mainStart_agrees inlineData windowSize⟩

/-- In a window of 1324 by 750 pixels the word `HTERMFDOUBLE` leaves a grid of 165 by 46
cells, of which 82 by 23 fit. -/
theorem geometry_double_disagrees :
    ¬ Throughout (geometryStep ⟨fun _ => true, fun _ _ => none⟩) (mainStart inlineStatic (1324, 750))
      [.text (CString.ascii " HTERMFDOUBLE ")] Geometry.Agrees := by
  have commanded : commandedSize (mainStart inlineStatic (1324, 750)).inlineData
      (CString.ascii " HTERMFDOUBLE ") = some 32 := by decide +kernel
  have defined : (geometryStep ⟨fun _ => true, fun _ _ => none⟩ (mainStart inlineStatic (1324, 750))
      (.text (CString.ascii " HTERMFDOUBLE "))).isSome := by decide +kernel
  obtain ⟨last, stepped⟩ := Option.isSome_iff_exists.mp defined
  rw [throughout_cons]
  rintro ⟨agrees, follows⟩
  have keeps := (geometryStep_agrees_iff _ _ _ _ (mainStart_sized inlineStatic (1324, 750)) agrees
    stepped).mp (throughout_nil.mp (follows last stepped))
  exact absurd (keeps 32 commanded) (by decide)

end Hackterm
