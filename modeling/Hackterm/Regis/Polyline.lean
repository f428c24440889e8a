import Hackterm.Nsdl.Line
import Hackterm.Regis.Program

/-! # Polylines

A vector command draws a line from the pen to a new place and moves the pen there, but
the line is drawn only up to its thousandth point. Commands that follow one another give
a connected polyline through all their places exactly when these are less than a thousand
pixels apart along both axes (`Hackterm.polyline_reaches_iff`).
-/

namespace Hackterm

open CString (Decimal)

/-- `regis_init`, and `regis_resize`, which frees the layer there was. -/
def regisInit (width height : Int) : Surface := createRGBSurface width height

/-- The place is one of the layer. -/
def OnLayer (layer : Surface) (place : Int × Int) : Prop :=
  (0 ≤ place.1 ∧ place.1 < layer.w) ∧ 0 ≤ place.2 ∧ place.2 < layer.h

/-- The colour of lines. -/
def regisLineColor : UInt32 := 0xFFFFFFFF

/-- The layer after a vector to `(x, y)`. -/
def vectorLayer (layer : Surface) (st : Regis) (x y : Decimal) : Surface :=
  nsdlLineS layer st.penX st.penY x.value y.value regisLineColor

/-- A vector command, wherever it stands, draws one line from the pen, which is then at
the target. The pixels at both places are painted, and the one at the target comes last. -/
def VectorReaches (layer : Surface) (st : Regis) (x y : Decimal) : Prop :=
  ∀ front back, ∃ after wiped next fromX fromY toX toY,
    regisProcessCmdVector st (front ++ (RegisCommand.vector x y).bytes ++ back) front.length =
        some (after, wiped, next) ∧
      after.drawn = st.drawn ++ [.lineS fromX fromY toX toY] ∧
      (after.penX, after.penY) = (x.value, y.value) ∧
      let painted := nsdlLineS layer fromX fromY toX toY regisLineColor
      painted.pixel st.penX st.penY = regisLineColor ∧
        painted.pixel after.penX after.penY = regisLineColor ∧
        (nsdlLinePoints fromX fromY toX toY).getLast? = some (after.penX, after.penY)

/-- The place a vector leads to. -/
def vectorTarget (target : Decimal × Decimal) : Int × Int := (target.1.value, target.2.value)

/-- Vectors that follow one another all reach their targets. -/
def PolylineReaches : Surface → Regis → List (Decimal × Decimal) → Prop
  | _, _, [] => True
  | layer, st, target :: targets =>
      VectorReaches layer st target.1 target.2 ∧
        PolylineReaches (vectorLayer layer st target.1 target.2)
          ((RegisCommand.vector target.1 target.2).effect st) targets

/-- The points that are plotted from the pen through the targets. -/
def polylinePoints : Int × Int → List (Int × Int) → List (Int × Int)
  | _, [] => []
  | pen, target :: targets =>
      nsdlLinePoints pen.1 pen.2 target.1 target.2 ++ polylinePoints target targets

/-- Two pixels are neighbours, or the same. -/
def Touches (point next : Int × Int) : Prop :=
  |next.1 - point.1| ≤ 1 ∧ |next.2 - point.2| ≤ 1

/-- Two places are less than a thousand pixels apart. -/
def WithinReach (place next : Int × Int) : Prop :=
  max |next.1 - place.1| |next.2 - place.2| ≤ 999

/-- **One vector** reaches its target exactly when it is near enough. -/
theorem vectorReaches_iff (layer : Surface) (st : Regis) (x y : Decimal)
    (pen : OnLayer layer (st.penX, st.penY)) (target : OnLayer layer (x.value, y.value)) :
    VectorReaches layer st x y ↔ WithinReach (st.penX, st.penY) (x.value, y.value) := by
  have carries := regisProcessCmdVector_carries x y st
  constructor
  · intro reaches
    obtain ⟨after, wiped, next, fromX, fromY, toX, toY, handled, drawn, -, -, -, last⟩ :=
      reaches [] []
    obtain ⟨left, -, carried⟩ := carries [] []
    rw [carried] at handled
    obtain ⟨rfl, -, -⟩ := Option.some.inj handled
    have same : st.drawn ++ [RegisDraw.lineS st.penX st.penY x.value y.value] =
        st.drawn ++ [.lineS fromX fromY toX toY] := drawn
    obtain ⟨rfl, rfl, rfl, rfl⟩ : st.penX = fromX ∧ st.penY = fromY ∧ x.value = toX ∧
        y.value = toY := by simpa using same
    exact (nsdlLinePoints_getLast?_iff _ _ _ _).mp last
  · intro near front back
    obtain ⟨wiped, -, carried⟩ := carries front back
    have last := (nsdlLinePoints_getLast?_iff st.penX st.penY x.value y.value).mpr near
    have head := nsdlLinePoints_head? st.penX st.penY x.value y.value
    obtain ⟨-, -, painted⟩ := nsdlLineS_pixel st.penX st.penY x.value y.value layer regisLineColor
    refine ⟨_, _, _, st.penX, st.penY, x.value, y.value, carried, rfl, rfl, ?_, ?_, last⟩
    · exact (painted _ _ pen).trans (if_pos (List.mem_of_head? head))
    · exact (painted _ _ target).trans (if_pos (List.mem_of_getLast? last))

/-- The points through targets that are near enough touch one another. -/
theorem polylinePoints_touch (pen : Int × Int) (targets : List (Int × Int))
    (near : (pen :: targets).IsChain WithinReach) :
    (polylinePoints pen targets).IsChain Touches := by
  induction targets generalizing pen with
  | nil => exact List.isChain_nil
  | cons target targets ih =>
      obtain ⟨first, others⟩ := List.isChain_cons_cons.mp near
      have last := (nsdlLinePoints_getLast?_iff pen.1 pen.2 target.1 target.2).mpr first
      rw [polylinePoints, List.isChain_append]
      refine ⟨(nsdlLinePoints_steps _ _ _ _).imp fun point next step =>
        ⟨step.columns, step.rows⟩, ih target others, fun point ends next begins => ?_⟩
      obtain rfl := Option.some.inj (last.symm.trans ends)
      cases targets with
      | nil => cases begins
      | cons further targets =>
          have head : (polylinePoints target (further :: targets)).head? = some target := by
            rw [polylinePoints, List.head?_append, nsdlLinePoints_head?]
            rfl
          obtain rfl := Option.some.inj (head.symm.trans begins)
          exact ⟨by simp, by simp⟩

/-- **Polylines.** Vectors between places of the layer all reach their targets, along a
connected polyline, exactly when each place is near enough to the one before. -/
theorem polyline_reaches_iff (layer : Surface) (st : Regis) (targets : List (Decimal × Decimal))
    (pen : OnLayer layer (st.penX, st.penY))
    (inside : ∀ target ∈ targets, OnLayer layer (vectorTarget target)) :
    PolylineReaches layer st targets ∧
        (polylinePoints (st.penX, st.penY) (targets.map vectorTarget)).IsChain Touches ↔
      ((st.penX, st.penY) :: targets.map vectorTarget).IsChain WithinReach := by
  have each : PolylineReaches layer st targets ↔
      ((st.penX, st.penY) :: targets.map vectorTarget).IsChain WithinReach := by
    induction targets generalizing layer st with
    | nil => exact iff_of_true trivial (List.isChain_singleton _)
    | cons target targets ih =>
        obtain ⟨first, others⟩ := List.forall_mem_cons.mp inside
        obtain ⟨width, height, -⟩ := nsdlLineS_pixel st.penX st.penY target.1.value
          target.2.value layer regisLineColor
        have sizes : ∀ place, OnLayer (vectorLayer layer st target.1 target.2) place ↔
            OnLayer layer place := by
          intro place
          rw [OnLayer, OnLayer, vectorLayer, width, height]
        rw [PolylineReaches, vectorReaches_iff layer st target.1 target.2 pen first,
          List.map_cons, List.isChain_cons_cons]
        refine and_congr_right fun _ => ?_
        exact ih _ _ ((sizes _).mpr first) fun other member => (sizes _).mpr (others other member)
  rw [each]
  exact and_iff_left_of_imp (polylinePoints_touch _ _)

/-- A polyline to the right and down, and up again. -/
theorem polyline_reaches_iff_peak :
    PolylineReaches (regisInit 1324 750) ⟨0, 0, true, [], []⟩ peakTargets ∧
      (polylinePoints (0, 0) (peakTargets.map vectorTarget)).IsChain Touches := by
  refine (polyline_reaches_iff (regisInit 1324 750) ⟨0, 0, true, [], []⟩ peakTargets
    ⟨by decide, by decide⟩ ?_).mpr ?_
  · exact List.forall_mem_cons.mpr ⟨⟨by decide, by decide⟩,
      List.forall_mem_singleton.mpr ⟨by decide, by decide⟩⟩
  · have first : WithinReach (0, 0) (900, 700) := by
      unfold WithinReach
      decide
    have second : WithinReach (900, 700) (1300, 0) := by
      unfold WithinReach
      decide
    exact List.isChain_cons_cons.mpr ⟨first, List.isChain_pair.mpr second⟩

/-- On the layer of a window of 1324 by 750 pixels, a vector to the right by a thousand
does not reach its target, which stays as it was. -/
theorem polyline_falls_short :
    let layer := regisInit 1324 750
    let st : Regis := ⟨0, 0, true, [], []⟩
    OnLayer layer (st.penX, st.penY) ∧ OnLayer layer (vectorTarget (thousand, zeroDecimal)) ∧
      (vectorLayer layer st thousand zeroDecimal).pixel 1000 0 = 0 ∧
      ¬ PolylineReaches layer st [(thousand, zeroDecimal)] := by
  intro layer st
  have thousand_value : thousand.value = 1000 := by decide
  have zero_value : zeroDecimal.value = 0 := by decide
  have pen : OnLayer layer (st.penX, st.penY) := ⟨by decide, by decide⟩
  have target : OnLayer layer (thousand.value, zeroDecimal.value) := by
    rw [thousand_value, zero_value]
    exact ⟨by decide, by decide⟩
  have far : ¬ max |(1000 : Int) - 0| |(0 : Int) - 0| ≤ 999 := by decide
  refine ⟨pen, target, ?_, ?_⟩
  · rw [vectorLayer, thousand_value, zero_value]
    rw [thousand_value, zero_value] at target
    obtain ⟨-, -, painted⟩ := nsdlLineS_pixel st.penX st.penY 1000 0 layer regisLineColor
    have missed := (end_mem_nsdlLinePoints_iff st.penX st.penY 1000 0).not.mpr far
    exact (painted 1000 0 target).trans (if_neg missed)
  · rintro ⟨reaches, -⟩
    have near := (vectorReaches_iff layer st thousand zeroDecimal pen target).mp reaches
    rw [WithinReach, thousand_value, zero_value] at near
    exact far near

end Hackterm
