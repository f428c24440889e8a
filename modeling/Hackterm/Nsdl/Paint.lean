import Hackterm.Glyph.Drawing

/-! # What a surface shows after painting

A loop that draws points leaves on a surface, at each pixel, what the last of its turns
painted there, and elsewhere what was there before. Where only one turn can paint a
pixel, the loop paints it as that turn does (`Hackterm.paintAll_of_unique`).
-/

namespace Hackterm

/-- The colour that is painted at each pixel, if any. -/
def Paint : Type := Int → Int → Option UInt32

/-- Painting one pixel. -/
def pointPaint (x y : Int) (value : UInt32) : Paint :=
  fun pX pY => if pX = x ∧ pY = y then some value else none

/-- The pixel lies on the surface. -/
def Surface.Covers (screen : Surface) (pX pY : Int) : Prop :=
  0 ≤ pX ∧ pX < screen.w ∧ 0 ≤ pY ∧ pY < screen.h

instance (screen : Surface) (pX pY : Int) : Decidable (screen.Covers pX pY) :=
  inferInstanceAs (Decidable (_ ∧ _ ∧ _ ∧ _))

/-- The surface has been painted, and is as before elsewhere. -/
structure Painted (before after : Surface) (paint : Paint) : Prop where
  w : after.w = before.w
  h : after.h = before.h
  pixel : ∀ pX pY, after.pixel pX pY =
    if before.Covers pX pY then (paint pX pY).getD (before.pixel pX pY) else before.pixel pX pY

theorem Painted.covers {before after : Surface} {paint : Paint}
    (painted : Painted before after paint) (pX pY : Int) :
    after.Covers pX pY ↔ before.Covers pX pY := by
  rw [Surface.Covers, Surface.Covers, painted.w, painted.h]

theorem painted_none (screen : Surface) : Painted screen screen fun _ _ => none :=
  ⟨rfl, rfl, fun _ _ => (ite_self _).symm⟩

/-- What is painted later covers what was painted before. -/
theorem Painted.trans {first second third : Surface} {under top : Paint}
    (painted : Painted first second under) (again : Painted second third top) :
    Painted first third fun pX pY => (top pX pY).or (under pX pY) where
  w := again.w.trans painted.w
  h := again.h.trans painted.h
  pixel pX pY := by
    rw [again.pixel, painted.pixel]
    by_cases covers : first.Covers pX pY
    · rw [if_pos ((painted.covers pX pY).mpr covers), if_pos covers, if_pos covers]
      cases top pX pY with
      | none => rfl
      | some value => rfl
    · rw [if_neg fun other => covers ((painted.covers pX pY).mp other), if_neg covers,
        if_neg covers]

theorem plot_painted (screen : Surface) (x y : Int) (value : UInt32) :
    Painted screen (screen.plot x y value) (pointPaint x y value) := by
  unfold Surface.plot
  split
  · rename_i outside
    refine ⟨rfl, rfl, fun pX pY => ?_⟩
    split
    · rename_i covers
      unfold pointPaint
      rw [if_neg]
      · rfl
      · rintro ⟨rfl, rfl⟩
        unfold Surface.Covers at covers
        omega
    · rfl
  · rename_i inside
    refine ⟨rfl, rfl, fun pX pY => ?_⟩
    unfold pointPaint
    dsimp only
    by_cases here : pX = x ∧ pY = y
    · have covers : screen.Covers pX pY := by
        unfold Surface.Covers
        omega
      rw [if_pos here, if_pos covers, if_pos here]
      rfl
    · rw [if_neg here, if_neg here]
      exact (ite_self _).symm

/-- A point drawn twice has the second colour. -/
theorem plot_twice (screen : Surface) (x y : Int) (under top : UInt32) :
    Painted screen ((screen.plot x y under).plot x y top) (pointPaint x y top) := by
  have twice := (plot_painted screen x y under).trans (plot_painted _ x y top)
  have same : (fun pX pY => (pointPaint x y top pX pY).or (pointPaint x y under pX pY)) =
      pointPaint x y top := by
    funext pX pY
    unfold pointPaint
    split_ifs
    · rfl
    · rfl
  rw [same] at twice
  exact twice

section Loops

variable {Item : Type}

/-- What a loop paints whose turns paint. -/
def paintAll (paint : Item → Paint) (items : List Item) : Paint :=
  fun pX pY => items.foldl (fun under item => (paint item pX pY).or under) none

theorem paintAll_cons (paint : Item → Paint) (item : Item) (items : List Item) (pX pY : Int) :
    paintAll paint (item :: items) pX pY =
      (paintAll paint items pX pY).or (paint item pX pY) := by
  have split : ∀ under : Option UInt32,
      items.foldl (fun under item => (paint item pX pY).or under) under =
        (paintAll paint items pX pY).or under := by
    unfold paintAll
    induction items with
    | nil => exact fun under => rfl
    | cons other items ih =>
        intro under
        rw [List.foldl_cons, List.foldl_cons, ih, ih ((paint other pX pY).or none), Option.or_none,
          Option.or_assoc]
  rw [paintAll, List.foldl_cons, split, Option.or_none]

/-- A pixel that only one turn can paint is painted by it, if the loop makes that turn. -/
theorem paintAll_of_unique [DecidableEq Item] {paint : Item → Paint} {items : List Item}
    {pX pY : Int} {turn : Item} (unique : ∀ item, (paint item pX pY).isSome → item = turn) :
    paintAll paint items pX pY = if turn ∈ items then paint turn pX pY else none := by
  induction items with
  | nil => rfl
  | cons item items ih =>
      rw [paintAll_cons, ih]
      by_cases here : item = turn
      · subst here
        rw [if_pos List.mem_cons_self]
        split_ifs
        · exact Option.or_self
        · exact Option.none_or
      · have missed : paint item pX pY = none := by
          by_contra painted
          exact here (unique item (Option.isSome_iff_ne_none.mpr painted))
        rw [missed, Option.or_none]
        exact if_congr (by rw [List.mem_cons, or_iff_right (Ne.symm here)]) rfl rfl

/-- A loop whose turns paint, on surfaces of one width, paints. -/
theorem foldlM_painted {items : List Item} {body : Surface → Item → Option Surface}
    {paint : Item → Paint} (screen : Surface)
    (turns : ∀ state : Surface, state.w = screen.w → ∀ item ∈ items, ∃ next,
      body state item = some next ∧ Painted state next (paint item)) :
    ∃ after, items.foldlM body screen = some after ∧
      Painted screen after (paintAll paint items) := by
  induction items generalizing screen with
  | nil => exact ⟨screen, rfl, painted_none screen⟩
  | cons item items ih =>
      obtain ⟨next, step, painted⟩ := turns screen rfl item List.mem_cons_self
      obtain ⟨after, rest, later⟩ := ih next fun state width other member =>
        turns state (width.trans painted.w) other (List.mem_cons_of_mem item member)
      refine ⟨after, ?_, ?_⟩
      · rw [List.foldlM_cons, step]
        exact rest
      · have both := painted.trans later
        have same : paintAll paint (item :: items) =
            fun pX pY => (paintAll paint items pX pY).or (paint item pX pY) := by
          funext pX pY
          exact paintAll_cons paint item items pX pY
        rw [same]
        exact both

end Loops

theorem pointPaint_isSome {x y pX pY : Int} {value : UInt32} :
    (pointPaint x y value pX pY).isSome ↔ pX = x ∧ pY = y := by
  unfold pointPaint
  split_ifs with here
  · exact iff_of_true rfl here
  · exact iff_of_false Bool.false_ne_true here

end Hackterm
