import Hackterm.Glyph.Drawing
import Hackterm.Raster.Walk
import Mathlib.Data.List.Range

/-! # Drawing a line

A line is drawn point by point (`Hackterm.nsdlLineS`). The points are those of a walk
along the line, up to the thousandth (`Hackterm.nsdlLinePoints_eq`), so a line between
points less than a thousand apart is drawn as it should be
(`Hackterm.nsdlLinePoints_rasterises`). The end of a longer line is not reached
(`Hackterm.nsdlLinePoints_getLast?_iff`).
-/

namespace Hackterm

open Raster

/-- `nsdl_pointS`, which makes the check of `draw_point`. The `int` products `y * pitch` and
`x * bpp` of the address, which come before the check, are left out. -/
def nsdlPointS (screen : Surface) (x y : Int) (value : UInt32) : Surface :=
  screen.plot x y value

/-- A point changes no more than its own pixel. -/
theorem nsdlPointS_frame (screen : Surface) (x y : Int) (value : UInt32) :
    let painted := nsdlPointS screen x y value
    painted.w = screen.w ∧ painted.h = screen.h ∧ ∀ pX pY,
      painted.pixel pX pY =
        if (pX = x ∧ pY = y) ∧ ¬ (x < 0 ∨ y < 0 ∨ screen.w ≤ x ∨ screen.h ≤ y) then value
        else screen.pixel pX pY := by
  unfold nsdlPointS Surface.plot
  split
  · rename_i outside
    exact ⟨rfl, rfl, fun pX pY => (if_neg fun both => both.2 outside).symm⟩
  · rename_i inside
    exact ⟨rfl, rfl, fun pX pY => if_congr (and_iff_left inside).symm rfl rfl⟩

/-- The loop of `nsdl_lineS`, for so many turns: the points that are plotted, in order. -/
def nsdlLineLoop (endX endY dx dy sx sy : Int) : Nat → Int → Int → Int → List (Int × Int)
  | 0, _, _, _ => []
  | turns + 1, cx, cy, err =>
      (cx, cy) ::
        if cx = endX ∧ cy = endY then []
        else
          let e2 := 2 * err
          let first := if 0 - dy < e2 then (err - dy, cx + sx) else (err, cx)
          let second := if e2 < dx then (first.1 + dx, cy + sy) else (first.1, cy)
          nsdlLineLoop endX endY dx dy sx sy turns first.2 second.2 second.1

/-- The points that `nsdl_lineS` plots. Between points less than 2^29 apart, no `int`
overflows. -/
def nsdlLinePoints (startX startY endX endY : Int) : List (Int × Int) :=
  let dx := endX - startX
  let dy := endY - startY
  let dx := if dx < 0 then 0 - dx else dx
  let dy := if dy < 0 then 0 - dy else dy
  let sx := if startX < endX then 1 else -1
  let sy := if startY < endY then 1 else -1
  nsdlLineLoop endX endY dx dy sx sy 1000 startX startY (dx - dy)

/-- `nsdl_lineS`. -/
def nsdlLineS (screen : Surface) (startX startY endX endY : Int) (color : UInt32) : Surface :=
  (nsdlLinePoints startX startY endX endY).foldl
    (fun screen point => nsdlPointS screen point.1 point.2 color) screen

/-- The direction of a line along an axis. -/
def heading (start stop : Int) : Int := if start < stop then 1 else -1

/-- The point of a line that is so many steps from its start. -/
def linePoint (startX startY endX endY : Int) (steps : Nat) : Int × Int :=
  let place := walk |endX - startX| |endY - startY| steps
  (startX + heading startX endX * place.1, startY + heading startY endY * place.2)

/-- The larger extent of a line. -/
def lineExtent (startX startY endX endY : Int) : Nat :=
  (max |endX - startX| |endY - startY|).toNat

section Points

variable (startX startY endX endY : Int)

/-- The end is reached along an axis after as many steps as the extent is long. -/
theorem heading_mul_eq_iff (start stop count : Int) :
    start + heading start stop * count = stop ↔ count = |stop - start| := by
  unfold heading
  split
  · rw [abs_of_pos (by omega)]
    omega
  · rw [abs_of_nonpos (by omega)]
    omega

theorem lineExtent_eq :
    (lineExtent startX startY endX endY : Int) = max |endX - startX| |endY - startY| :=
  Int.toNat_of_nonneg (le_max_of_le_left (abs_nonneg _))

/-- A line without an extent is a point. -/
theorem eq_of_lineExtent_eq_zero (none_ : lineExtent startX startY endX endY = 0) :
    endX = startX ∧ endY = startY := by
  have zero := lineExtent_eq startX startY endX endY
  rw [none_, Nat.cast_zero] at zero
  have columns := abs_nonpos_iff.mp ((le_max_left |endX - startX| |endY - startY|).trans zero.ge)
  have rows := abs_nonpos_iff.mp ((le_max_right |endX - startX| |endY - startY|).trans zero.ge)
  exact ⟨by omega, by omega⟩

theorem linePoint_zero : linePoint startX startY endX endY 0 = (startX, startY) := by
  unfold linePoint walk
  dsimp only
  rw [mul_zero, mul_zero, add_zero, add_zero]

/-- The line ends where the walk arrives. -/
theorem linePoint_eq_end (steps : Nat)
    (present : 0 < max |endX - startX| |endY - startY|) :
    linePoint startX startY endX endY steps = (endX, endY) ↔
      steps = lineExtent startX startY endX endY := by
  have arrives := walk_arrives present (abs_nonneg _) (abs_nonneg _) steps
  rw [← lineExtent_eq, Nat.cast_inj] at arrives
  rw [← arrives, linePoint, Prod.ext_iff, Prod.ext_iff]
  exact and_congr (heading_mul_eq_iff startX endX _) (heading_mul_eq_iff startY endY _)

theorem linePoint_end :
    linePoint startX startY endX endY (lineExtent startX startY endX endY) = (endX, endY) := by
  have extent := lineExtent_eq startX startY endX endY
  rcases (lineExtent startX startY endX endY).eq_zero_or_pos with none_ | present
  · obtain ⟨column, row⟩ := eq_of_lineExtent_eq_zero startX startY endX endY none_
    rw [none_, linePoint_zero, column, row]
  · exact (linePoint_eq_end startX startY endX endY _ (by omega)).mpr rfl

/-- The loop goes on along the walk. -/
theorem nsdlLineLoop_eq (present : 0 < max |endX - startX| |endY - startY|) (turns steps left : Nat)
    (total : steps + left = lineExtent startX startY endX endY) :
    let dx := |endX - startX|
    let dy := |endY - startY|
    nsdlLineLoop endX endY dx dy (heading startX endX) (heading startY endY) turns
        (linePoint startX startY endX endY steps).1 (linePoint startX startY endX endY steps).2
        (deviation dx dy (walk dx dy steps) + dx - dy) =
      (List.range' steps (min turns (left + 1))).map (linePoint startX startY endX endY) := by
  intro dx dy
  induction turns generalizing steps left with
  | zero => rw [Nat.zero_min]; rfl
  | succ turns ih =>
      have ended := linePoint_eq_end startX startY endX endY steps present
      rw [Prod.ext_iff] at ended
      rw [nsdlLineLoop, Nat.succ_min_succ, List.range'_succ, List.map_cons]
      congr 1
      cases left with
      | zero =>
          rw [if_pos (ended.mpr total), Nat.min_zero]
          rfl
      | succ left =>
          rw [if_neg (fun same => by have := ended.mp same; omega)]
          rw [← ih (steps + 1) left (by omega)]
          have next : walk dx dy (steps + 1) = advance dx dy (walk dx dy steps) := rfl
          have place : ∀ k, linePoint startX startY endX endY k =
              (startX + heading startX endX * (walk dx dy k).1,
                startY + heading startY endY * (walk dx dy k).2) := fun k => rfl
          rw [place, place, next]
          unfold advance
          generalize walk dx dy steps = here
          obtain ⟨x, y⟩ := here
          dsimp only
          have right : deviation dx dy (x + 1, y) = deviation dx dy (x, y) - dy := by
            unfold deviation
            ring
          have up : deviation dx dy (x, y + 1) = deviation dx dy (x, y) + dx := by
            unfold deviation
            ring
          have both : deviation dx dy (x + 1, y + 1) = deviation dx dy (x, y) - dy + dx := by
            unfold deviation
            ring
          rw [zero_sub]
          by_cases across : -dy < 2 * (deviation dx dy (x, y) + dx - dy)
          · by_cases upward : 2 * (deviation dx dy (x, y) + dx - dy) < dx
            · rw [if_pos across, if_pos upward, if_pos across, if_pos upward, both]
              congr 1 <;> ring
            · rw [if_pos across, if_neg upward, if_pos across, if_neg upward, right]
              congr 1 <;> ring
          · by_cases upward : 2 * (deviation dx dy (x, y) + dx - dy) < dx
            · rw [if_neg across, if_pos upward, if_neg across, if_pos upward, up]
              congr 1 <;> ring
            · rw [if_neg across, if_neg upward, if_neg across, if_neg upward]

/-- **The points of a line** are those of the walk, up to the thousandth. -/
theorem nsdlLinePoints_eq :
    nsdlLinePoints startX startY endX endY =
      (List.range (min 1000 (lineExtent startX startY endX endY + 1))).map
        (linePoint startX startY endX endY) := by
  have extent : ∀ d : Int, (if d < 0 then 0 - d else d) = |d| := by
    intro d
    split
    · rw [abs_of_neg (by omega), zero_sub]
    · rw [abs_of_nonneg (by omega)]
  have begins := linePoint_zero startX startY endX endY
  unfold nsdlLinePoints
  dsimp only
  rw [extent, extent]
  rcases (lineExtent startX startY endX endY).eq_zero_or_pos with none_ | present
  · -- the start is the end
    obtain ⟨column, row⟩ := eq_of_lineExtent_eq_zero startX startY endX endY none_
    have point : (List.range (min 1000 (0 + 1))).map (linePoint startX startY endX endY) =
        [linePoint startX startY endX endY 0] := rfl
    rw [none_, point, begins, nsdlLineLoop, if_pos ⟨column.symm, row.symm⟩]
  · have walked := nsdlLineLoop_eq startX startY endX endY
      (by rw [← lineExtent_eq]; exact Nat.cast_pos.mpr present) 1000 0 _ (Nat.zero_add _)
    have onLine : deviation |endX - startX| |endY - startY|
        (walk |endX - startX| |endY - startY| 0) = 0 := by
      unfold deviation walk
      rw [mul_zero, mul_zero, sub_zero]
    dsimp only at walked
    rw [begins, onLine, zero_add] at walked
    rw [List.range_eq_range', ← walked]
    rfl

/-- The first point that is plotted is the start. -/
theorem nsdlLinePoints_head? :
    (nsdlLinePoints startX startY endX endY).head? = some (startX, startY) := by
  rw [nsdlLinePoints_eq, List.head?_map, List.head?_range, if_neg (by omega), Option.map_some,
    linePoint_zero]

/-- **The end of a line** is plotted last if it is less than a thousand points away. -/
theorem nsdlLinePoints_getLast?_iff :
    (nsdlLinePoints startX startY endX endY).getLast? = some (endX, endY) ↔
      max |endX - startX| |endY - startY| ≤ 999 := by
  have extent := lineExtent_eq startX startY endX endY
  rw [nsdlLinePoints_eq, List.getLast?_map, List.getLast?_range, if_neg (by omega),
    Option.map_some, Option.some.injEq]
  by_cases short : lineExtent startX startY endX endY ≤ 999
  · have last : min 1000 (lineExtent startX startY endX endY + 1) - 1 =
        lineExtent startX startY endX endY := by omega
    rw [last]
    exact iff_of_true (linePoint_end startX startY endX endY) (by omega)
  · have last : min 1000 (lineExtent startX startY endX endY + 1) - 1 = 999 := by omega
    rw [last, linePoint_eq_end startX startY endX endY 999 (by omega)]
    omega

/-- A line that does not end at its end does not come by it either. -/
theorem end_mem_nsdlLinePoints_iff :
    (endX, endY) ∈ nsdlLinePoints startX startY endX endY ↔
      max |endX - startX| |endY - startY| ≤ 999 := by
  refine ⟨fun member => ?_, fun short => List.mem_of_getLast?
    ((nsdlLinePoints_getLast?_iff startX startY endX endY).mpr short)⟩
  have extent := lineExtent_eq startX startY endX endY
  by_contra long
  rw [nsdlLinePoints_eq] at member
  obtain ⟨steps, inside, arrived⟩ := List.mem_map.mp member
  rw [linePoint_eq_end startX startY endX endY steps (by omega)] at arrived
  have turns := List.mem_range.mp inside
  omega

/-- The pixels of a line are painted, and no others. -/
theorem nsdlLineS_pixel (screen : Surface) (color : UInt32) :
    let painted := nsdlLineS screen startX startY endX endY color
    painted.w = screen.w ∧ painted.h = screen.h ∧ ∀ x y,
      (0 ≤ x ∧ x < screen.w) ∧ 0 ≤ y ∧ y < screen.h →
        painted.pixel x y =
          if (x, y) ∈ nsdlLinePoints startX startY endX endY then color
          else screen.pixel x y := by
  unfold nsdlLineS
  generalize nsdlLinePoints startX startY endX endY = points
  induction points generalizing screen with
  | nil => exact ⟨rfl, rfl, fun x y _ => rfl⟩
  | cons point points ih =>
      obtain ⟨width, height, plotted⟩ := nsdlPointS_frame screen point.1 point.2 color
      obtain ⟨widths, heights, painted⟩ := ih (nsdlPointS screen point.1 point.2 color)
      rw [width, height] at painted
      refine ⟨widths.trans width, heights.trans height, fun x y inside => ?_⟩
      rw [List.foldl_cons, painted x y inside, plotted x y]
      by_cases later : (x, y) ∈ points
      · rw [if_pos later, if_pos (List.mem_cons_of_mem point later)]
      · rw [if_neg later]
        refine if_congr ?_ rfl rfl
        rw [List.mem_cons, or_iff_left later, Prod.ext_iff, and_iff_left_of_imp]
        rintro ⟨column, row⟩
        omega

end Points

/-- Two points that are plotted one after the other: they are neighbours, the coordinate
of the larger extent goes on towards the end, and no coordinate moves away from it. -/
structure LineStep (startX startY endX endY : Int) (point next : Int × Int) : Prop where
  columns : |next.1 - point.1| ≤ 1
  rows : |next.2 - point.2| ≤ 1
  wide : |endY - startY| ≤ |endX - startX| → next.1 = point.1 + (endX - startX).sign
  steep : |endX - startX| ≤ |endY - startY| → next.2 = point.2 + (endY - startY).sign
  nearer_columns : |endX - next.1| ≤ |endX - point.1|
  nearer_rows : |endY - next.2| ≤ |endY - point.2|

/-- The distance of a point from the straight line, along the axis of the smaller extent
and multiplied by the larger extent. -/
def lineOffset (startX startY endX endY : Int) (point : Int × Int) : Int :=
  |(endX - startX) * (point.2 - startY) - (endY - startY) * (point.1 - startX)|

/-- The points of a line, from its start to its end, each within half a pixel of it. -/
structure Rasterises (startX startY endX endY : Int) (points : List (Int × Int)) : Prop where
  count : (points.length : Int) = max |endX - startX| |endY - startY| + 1
  first : points.head? = some (startX, startY)
  last : points.getLast? = some (endX, endY)
  steps : points.IsChain (LineStep startX startY endX endY)
  near : ∀ point ∈ points,
    2 * lineOffset startX startY endX endY point ≤ max |endX - startX| |endY - startY|

section Line

variable (startX startY endX endY : Int)

/-- A step along one axis, of a walk that has not come to the end yet. -/
theorem heading_step (start stop count next : Int) (moved : next = count ∨ next = count + 1)
    (inside : next ≤ |stop - start|) :
    let point := start + heading start stop * count
    let after := start + heading start stop * next
    |after - point| ≤ 1 ∧ |stop - after| ≤ |stop - point| ∧
      (next = count + 1 → 0 < |stop - start| → after = point + (stop - start).sign) := by
  intro point after
  rcases lt_trichotomy start stop with right | same | left
  · have ahead : heading start stop = 1 := if_pos right
    rw [abs_of_pos (by omega : 0 < stop - start)] at inside ⊢
    have sign : (stop - start).sign = 1 := Int.sign_eq_one_of_pos (by omega)
    simp only [point, after, ahead, sign, one_mul]
    refine ⟨abs_le.mpr (by omega), ?_, by omega⟩
    rw [abs_of_nonneg (by omega), abs_of_nonneg (by omega)]
    omega
  · subst same
    have back : heading start start = -1 := if_neg (lt_irrefl start)
    rw [sub_self, abs_zero] at inside ⊢
    simp only [point, after, back]
    refine ⟨abs_le.mpr (by omega), ?_, by omega⟩
    rcases moved with rfl | rfl
    · exact le_rfl
    · rw [abs_of_nonpos (by omega), abs_of_nonpos (by omega)]
      omega
  · have back : heading start stop = -1 := if_neg (by omega)
    rw [abs_of_neg (by omega : stop - start < 0)] at inside ⊢
    have sign : (stop - start).sign = -1 := Int.sign_eq_neg_one_of_neg (by omega)
    simp only [point, after, back, sign]
    refine ⟨abs_le.mpr (by omega), ?_, by omega⟩
    rw [abs_of_nonpos (by omega), abs_of_nonpos (by omega)]
    omega

/-- One step along the walk is one along the line. -/
theorem linePoint_step (steps : Nat) (inside : steps < lineExtent startX startY endX endY) :
    LineStep startX startY endX endY (linePoint startX startY endX endY steps)
      (linePoint startX startY endX endY (steps + 1)) := by
  have extent := lineExtent_eq startX startY endX endY
  have present : 0 < max |endX - startX| |endY - startY| := by omega
  have strides := walk_strides present (abs_nonneg _) (abs_nonneg _) steps
  obtain ⟨across, upward⟩ := walk_le present (abs_nonneg _) (abs_nonneg _) (steps + 1)
    (by omega)
  obtain ⟨columns, nearer_columns, wide⟩ := heading_step startX endX _ _ strides.first across
  obtain ⟨rows, nearer_rows, steep⟩ := heading_step startY endY _ _ strides.second upward
  refine ⟨columns, rows, fun wider => ?_, fun steeper => ?_, nearer_columns, nearer_rows⟩
  · exact wide (strides.wide wider) (by rwa [max_eq_left wider] at present)
  · exact steep (strides.steep steeper) (by rwa [max_eq_right steeper] at present)

/-- The points of a line stay as near to it as the walk. -/
theorem linePoint_near (steps : Nat) (inside : steps ≤ lineExtent startX startY endX endY) :
    2 * lineOffset startX startY endX endY (linePoint startX startY endX endY steps) ≤
      max |endX - startX| |endY - startY| := by
  have extent := lineExtent_eq startX startY endX endY
  rcases steps.eq_zero_or_pos with rfl | present
  · have onLine : lineOffset startX startY endX endY (startX, startY) = 0 := by
      unfold lineOffset
      rw [sub_self, sub_self, mul_zero, mul_zero, sub_zero, abs_zero]
    rw [linePoint_zero, onLine, mul_zero, ← extent]
    exact Int.natCast_nonneg _
  have near := walk_near (by omega : 0 < max |endX - startX| |endY - startY|)
    (abs_nonneg _) (abs_nonneg _) steps
  have signs : ∀ start stop : Int, stop - start = heading start stop * |stop - start| ∧
      |heading start stop| = 1 := by
    intro start stop
    unfold heading
    split
    · exact ⟨by rw [abs_of_pos (by omega), one_mul], rfl⟩
    · exact ⟨by rw [abs_of_nonpos (by omega), neg_mul_neg, one_mul], rfl⟩
  obtain ⟨across, unitX⟩ := signs startX endX
  obtain ⟨upward, unitY⟩ := signs startY endY
  have offset : lineOffset startX startY endX endY (linePoint startX startY endX endY steps) =
      |deviation |endX - startX| |endY - startY| (walk |endX - startX| |endY - startY| steps)| := by
    unfold lineOffset linePoint deviation
    dsimp only
    rw [add_sub_cancel_left, add_sub_cancel_left]
    generalize walk |endX - startX| |endY - startY| steps = place
    conv_lhs => rw [across, upward]
    have factored : heading startX endX * |endX - startX| * (heading startY endY * place.2) -
        heading startY endY * |endY - startY| * (heading startX endX * place.1) =
        heading startX endX * heading startY endY *
          (|endX - startX| * place.2 - |endY - startY| * place.1) := by ring
    rw [factored, abs_mul, abs_mul, unitX, unitY, one_mul, one_mul]
  rw [offset]
  exact near

/-- The points that are plotted follow one another along the line, however long it is. -/
theorem nsdlLinePoints_steps :
    (nsdlLinePoints startX startY endX endY).IsChain (LineStep startX startY endX endY) := by
  rw [nsdlLinePoints_eq, List.isChain_map, List.isChain_range]
  exact fun steps inside => linePoint_step startX startY endX endY steps (by omega)

end Line

example : nsdlLinePoints 1 2 3 (-3) = [(1, 2), (1, 1), (2, 0), (2, -1), (3, -2), (3, -3)] := by
  decide

end Hackterm
