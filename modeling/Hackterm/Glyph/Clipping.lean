import Hackterm.Glyph.HexLine
import Hackterm.Nsdl.Paint

/-! # Glyphs at the edge of a surface

Points outside a surface are not drawn, so a glyph should be cut off at its edges. The
loops of `draw_character_surface` count in `size_t`, though: one that starts below zero
and stops above does not turn at all, and the whole glyph is missing. And the rows of
the underline and of the strike are those of the surface, not of the glyph. A glyph is
drawn as at the origin, moved and cut off, exactly when no such loop drops it, no row on
the surface is decorated differently and no `int` overflows, also none in the address of a point
that is not on the surface (`Hackterm.drawsClipped_iff`).
-/

namespace Hackterm

/-- The row is underlined or struck through. -/
def LookupKey.Decorates (chr : LookupKey) (row : Int) : Prop :=
  row = 15 ∧ chr.underline = 1 ∨ row = 8 ∧ chr.strike = 1

instance (chr : LookupKey) (row : Int) : Decidable (chr.Decorates row) :=
  inferInstanceAs (Decidable (_ ∨ _))

/-- How far italic moves a row that is not decorated. -/
def LookupKey.slant (chr : LookupKey) : Int := if chr.italic = 1 then 1 else 0

/-- The colour of a cell of the glyph, with bold worked in. -/
def cellColour (font : FontTables) (chr : LookupKey) (column row : Int) : UInt32 :=
  if 0 < (getPixel font chr.c column row).getD 0 ∨
      chr.bold = 1 ∧ 0 < (getPixel font chr.c (column + 1) row).getD 0 then chr.fg
  else chr.bg

/-- What a row of the glyph paints, by the column, when it is decorated or not. -/
def rowPaint (font : FontTables) (w : Nat) (chr : LookupKey) (decorated : Bool)
    (row column : Int) : Option UInt32 :=
  if decorated then if 0 ≤ column ∧ column < w then some chr.fg else none
  else if chr.slant ≤ column ∧ column < chr.slant + w then
    some (cellColour font chr (column - chr.slant) row)
  else none

/-- What the glyph paints at the origin of a surface without bounds. -/
def originPaint (font : FontTables) (w : Nat) (chr : LookupKey) : Paint := fun column row =>
  if 0 ≤ row ∧ row < 16 then rowPaint font w chr (chr.Decorates row) row column else none

/-- A loop in `size_t` over so many places from `first` on turns at all. -/
def Turns (first : Int) (count : Nat) : Prop := 0 ≤ first ∨ first + count < 0

instance (first : Int) (count : Nat) : Decidable (Turns first count) :=
  inferInstanceAs (Decidable (_ ∨ _))

/-- What `draw_character_surface` paints. -/
def drawnPaint (font : FontTables) (x y : Int) (w : Nat) (chr : LookupKey) : Paint := fun pX pY =>
  if (Turns y 16 ∧ Turns x w) ∧ 0 ≤ pY - y ∧ pY - y < 16 then
    rowPaint font w chr (chr.Decorates pY) (pY - y) (pX - x)
  else none

section Drawing

variable {font : FontTables} {chr : LookupKey}

/-- How often such a loop turns. -/
theorem sizeT_sub {first : Int} {count : Nat} (lower : -2 ^ 31 ≤ first)
    (upper : first + count < 2 ^ 31) :
    sizeT (first + count) - sizeT first = if Turns first count then count else 0 := by
  by_cases starts : 0 ≤ first
  · have turns : Turns first count := Or.inl starts
    rw [if_pos turns, sizeT_of_nonneg (by omega) upper, sizeT_of_nonneg starts (by omega)]
    omega
  by_cases stops : first + count < 0
  · have turns : Turns first count := Or.inr stops
    rw [if_pos turns, sizeT_of_neg (by omega) stops, sizeT_of_neg lower (by omega)]
    omega
  · have drops : ¬ Turns first count := not_or.mpr ⟨starts, stops⟩
    rw [if_neg drops, sizeT_of_nonneg (by omega) upper, sizeT_of_neg lower (by omega)]
    omega

/-- The places such a loop visits. -/
theorem mem_counter_iff {first : Int} {count : Nat} (lower : -2 ^ 31 ≤ first)
    (upper : first + count < 2 ^ 31) (place : Int) :
    place ∈ counter first (first + count) ↔
      Turns first count ∧ first ≤ place ∧ place < first + count := by
  have visited : place ∈ counter first (first + count) ↔
      ∃ turn < sizeT (first + count) - sizeT first, first + (turn : Nat) = place := by
    simp [counter]
  rw [visited, sizeT_sub lower upper]
  constructor
  · rintro ⟨turn, small, rfl⟩
    split_ifs at small with turns
    · exact ⟨turns, by omega⟩
    · exact absurd small (Nat.not_lt_zero turn)
  · rintro ⟨turns, below, above⟩
    refine ⟨(place - first).toNat, ?_, by omega⟩
    rw [if_pos turns]
    omega

/-- What one turn of the inner loop paints. -/
def cellPaint (font : FontTables) (x y : Int) (chr : LookupKey) (cY cX : Int) : Paint :=
  if chr.Decorates cY then pointPaint cX cY chr.fg
  else pointPaint (cX + chr.slant) cY (cellColour font chr (cX - x) (cY - y))

/-- The column of the point that is drawn for a column of the surface. -/
def LookupKey.drawnColumn (chr : LookupKey) (cY cX : Int) : Int :=
  if chr.Decorates cY then cX else cX + chr.slant

theorem drawCell_painted (full : font.Full) (small : chr.c.toNat < 65536) (x y cY : Int)
    (screen : Surface) (cX : Int) (addresses : screen.Addresses (chr.drawnColumn cY cX) cY) :
    ∃ next, drawCell font x y chr cY screen cX = some next ∧
      Painted screen next (cellPaint font x y chr cY cX) := by
  obtain ⟨value, here⟩ := Option.isSome_iff_exists.mp (getPixel_isSome full small (cX - x) (cY - y))
  obtain ⟨value1, beside⟩ :=
    Option.isSome_iff_exists.mp (getPixel_isSome full small (cX + 1 - x) (cY - y))
  have neighbour : cX - x + 1 = cX + 1 - x := by omega
  unfold LookupKey.drawnColumn at addresses
  unfold drawCell cellPaint
  by_cases underlined : cY = 15 ∧ chr.underline = 1
  · have decorated : chr.Decorates cY := Or.inl underlined
    rw [if_pos decorated] at addresses
    rw [if_pos underlined, if_pos decorated, drawPoint_of_addresses addresses]
    exact ⟨_, rfl, plot_painted _ _ _ _⟩
  by_cases struck : cY = 8 ∧ chr.strike = 1
  · have decorated : chr.Decorates cY := Or.inr struck
    rw [if_pos decorated] at addresses
    rw [if_neg underlined, if_pos struck, if_pos decorated, drawPoint_of_addresses addresses]
    exact ⟨_, rfl, plot_painted _ _ _ _⟩
  have plain : ¬ chr.Decorates cY := not_or.mpr ⟨underlined, struck⟩
  rw [if_neg plain] at addresses
  rw [if_neg underlined, if_neg struck, if_neg plain, here, beside, Option.bind_eq_bind,
    Option.bind_some, Option.bind_some, cellColour, here, neighbour, beside, Option.getD_some,
    Option.getD_some]
  dsimp only
  rw [← LookupKey.slant, drawPoint_of_addresses addresses, drawPoint_of_addresses addresses,
    Option.bind_eq_bind, Option.bind_some]
  by_cases inked : 0 < value
  · rw [if_pos inked, if_pos (Or.inl inked)]
    exact ⟨_, rfl, plot_painted _ _ _ _⟩
  by_cases bold : chr.bold = 1 ∧ 0 < value1
  · rw [if_neg inked, if_pos (Or.inr bold), if_pos bold,
      drawPoint_of_addresses ((addresses_congr (plot_w screen _ _ _) _ _).mpr addresses)]
    -- The background is painted over.
    exact ⟨_, rfl, plot_twice _ _ _ _ _⟩
  · rw [if_neg inked, if_neg (not_or.mpr ⟨inked, bold⟩), if_neg bold]
    exact ⟨_, rfl, plot_painted _ _ _ _⟩

/-- A cell whose point has no address is undefined. -/
theorem drawCell_addresses {x y cY cX : Int} {screen next : Surface}
    (drawn : drawCell font x y chr cY screen cX = some next) :
    screen.Addresses (chr.drawnColumn cY cX) cY ∧ next.w = screen.w := by
  have point {other after : Surface} {column : Int} {value : UInt32}
      (put : drawPoint other column cY value = some after) :
      other.Addresses column cY ∧ after.w = other.w := by
    obtain ⟨addresses, same⟩ := Option.ite_none_right_eq_some.mp put
    exact ⟨addresses, by rw [← Option.some.inj same, plot_w]⟩
  unfold drawCell at drawn
  unfold LookupKey.drawnColumn
  by_cases underlined : cY = 15 ∧ chr.underline = 1
  · have decorated : chr.Decorates cY := Or.inl underlined
    rw [if_pos underlined] at drawn
    rw [if_pos decorated]
    exact point drawn
  by_cases struck : cY = 8 ∧ chr.strike = 1
  · have decorated : chr.Decorates cY := Or.inr struck
    rw [if_neg underlined, if_pos struck] at drawn
    rw [if_pos decorated]
    exact point drawn
  have plain : ¬ chr.Decorates cY := not_or.mpr ⟨underlined, struck⟩
  rw [if_neg underlined, if_neg struck] at drawn
  rw [if_neg plain, LookupKey.slant]
  obtain ⟨value, -, drawn⟩ := Option.bind_eq_some_iff.mp drawn
  obtain ⟨value1, -, drawn⟩ := Option.bind_eq_some_iff.mp drawn
  dsimp only at drawn
  by_cases inked : 0 < value
  · rw [if_pos inked] at drawn
    exact point drawn
  rw [if_neg inked] at drawn
  obtain ⟨ground, under, drawn⟩ := Option.bind_eq_some_iff.mp drawn
  obtain ⟨addresses, width⟩ := point under
  refine ⟨addresses, ?_⟩
  by_cases bold : chr.bold = 1 ∧ 0 < value1
  · rw [if_pos bold] at drawn
    exact (point drawn).2.trans width
  · rw [if_neg bold] at drawn
    rw [← Option.some.inj drawn, width]

/-- What the inner loop paints. -/
theorem paintAll_cellPaint (x y cY pX pY : Int) {w : Nat} (lower : -2 ^ 31 ≤ x)
    (upper : x + w < 2 ^ 31) :
    paintAll (cellPaint font x y chr cY) (counter x (x + w)) pX pY =
      if Turns x w ∧ pY = cY then
        rowPaint font w chr (chr.Decorates cY) (cY - y) (pX - x)
      else none := by
  by_cases decorated : chr.Decorates cY
  · have unique : ∀ cX, (cellPaint font x y chr cY cX pX pY).isSome → cX = pX := by
      intro cX painted
      rw [cellPaint, if_pos decorated] at painted
      exact (pointPaint_isSome.mp painted).1.symm
    rw [paintAll_of_unique unique, rowPaint, if_pos (decide_eq_true decorated), cellPaint,
      if_pos decorated, pointPaint]
    rw [← ite_and, ← ite_and]
    apply if_congr _ rfl rfl
    rw [mem_counter_iff lower upper]
    constructor
    · rintro ⟨⟨turns, below, above⟩, -, row⟩
      exact ⟨⟨turns, row⟩, by omega⟩
    · rintro ⟨⟨turns, row⟩, below, above⟩
      exact ⟨⟨turns, by omega⟩, rfl, row⟩
  · have unique : ∀ cX, (cellPaint font x y chr cY cX pX pY).isSome → cX = pX - chr.slant := by
      intro cX painted
      rw [cellPaint, if_neg decorated] at painted
      have column := (pointPaint_isSome.mp painted).1
      omega
    have notDecorated : ¬ decide (chr.Decorates cY) = true := fun same =>
      decorated (of_decide_eq_true same)
    rw [paintAll_of_unique unique, rowPaint, if_neg notDecorated, cellPaint, if_neg decorated,
      pointPaint, Int.sub_add_cancel]
    have column : pX - chr.slant - x = pX - x - chr.slant := by omega
    rw [column]
    rw [← ite_and, ← ite_and]
    apply if_congr _ rfl rfl
    rw [mem_counter_iff lower upper]
    constructor
    · rintro ⟨⟨turns, below, above⟩, -, row⟩
      exact ⟨⟨turns, row⟩, by omega⟩
    · rintro ⟨⟨turns, row⟩, below, above⟩
      exact ⟨⟨turns, by omega⟩, rfl, row⟩

/-- No `int` overflows in the addresses of the points of a glyph. -/
def Addressed (screen : Surface) (x y : Int) (w : Nat) (chr : LookupKey) : Prop :=
  ∀ column row : Int, 0 ≤ column → column < w → 0 ≤ row → row < 16 →
    screen.Addresses (chr.drawnColumn (y + row) (x + column)) (y + row)

/-- Addresses are worked out for all points of a glyph that is drawn. -/
theorem addressed_of_drawn {screen after : Surface} {x y : Int} {w : Nat} (left : -2 ^ 31 ≤ x)
    (top : -2 ^ 31 ≤ y) (right : x + w < 2 ^ 31) (bottom : y + 16 < 2 ^ 31)
    (drawn : drawCharacterSurface font screen x y w chr = some after) (turnsY : Turns y 16)
    (turnsX : Turns x w) : Addressed screen x y w chr := by
  have cells (cY : Int) (state next : Surface)
      (row : (counter x (x + w)).foldlM (drawCell font x y chr cY) state = some next) :
      (∀ cX ∈ counter x (x + w), state.Addresses (chr.drawnColumn cY cX) cY) ∧
        next.w = state.w := by
    refine foldlM_visits (fun other => other.w = state.w)
      (fun cX => state.Addresses (chr.drawnColumn cY cX) cY) (fun other later cX width step => ?_)
      rfl row
    obtain ⟨addresses, same⟩ := drawCell_addresses step
    exact ⟨(addresses_congr width _ _).mp addresses, same.trans width⟩
  have rows := (foldlM_visits (fun other => other.w = screen.w)
    (fun cY => ∀ cX ∈ counter x (x + w), screen.Addresses (chr.drawnColumn cY cX) cY)
    (fun other later cY width step => by
      obtain ⟨addresses, same⟩ := cells cY other later step
      exact ⟨fun cX column => (addresses_congr width _ _).mp (addresses cX column),
        same.trans width⟩) rfl drawn).1
  intro column row start stop below above
  refine rows (y + row) ((@mem_counter_iff y 16 top bottom _).mpr ⟨turnsY, ?_⟩) (x + column)
    ((mem_counter_iff left right _).mpr ⟨turnsX, ?_⟩)
  · omega
  · omega

/-- **What is drawn.** -/
theorem drawCharacterSurface_painted (full : font.Full) (small : chr.c.toNat < 65536)
    (screen : Surface) (x y : Int) (w : Nat) (left : -2 ^ 31 ≤ x) (top : -2 ^ 31 ≤ y)
    (right : x + w < 2 ^ 31) (bottom : y + 16 < 2 ^ 31)
    (addressed : Turns y 16 → Turns x w → Addressed screen x y w chr) :
    ∃ after, drawCharacterSurface font screen x y w chr = some after ∧
      Painted screen after (drawnPaint font x y w chr) := by
  have rows : ∀ state : Surface, state.w = screen.w → ∀ cY ∈ counter y (y + 16), ∃ next,
      (counter x (x + w)).foldlM (drawCell font x y chr cY) state = some next ∧
        Painted state next (paintAll (cellPaint font x y chr cY) (counter x (x + w))) := by
    intro state width cY row
    refine foldlM_painted state fun other same cX column => ?_
    obtain ⟨turnsY, below, above⟩ := (@mem_counter_iff y 16 top bottom cY).mp row
    obtain ⟨turnsX, start, stop⟩ := (mem_counter_iff left right cX).mp column
    have addresses := addressed turnsY turnsX (cX - x) (cY - y) (by omega) (by omega) (by omega)
      (by omega)
    rw [add_sub_cancel, add_sub_cancel] at addresses
    exact drawCell_painted full small x y cY other cX
      ((addresses_congr (same.trans width) _ _).mpr addresses)
  obtain ⟨after, drawn, painted⟩ := foldlM_painted screen rows
  refine ⟨after, drawn, ?_⟩
  have same : paintAll (fun cY => paintAll (cellPaint font x y chr cY) (counter x (x + w)))
      (counter y (y + 16)) = drawnPaint font x y w chr := by
    funext pX pY
    have unique : ∀ cY, (paintAll (cellPaint font x y chr cY) (counter x (x + w)) pX pY).isSome →
        cY = pY := by
      intro cY painted
      rw [paintAll_cellPaint x y cY pX pY left right] at painted
      split_ifs at painted with row
      · exact row.2.symm
      · cases painted
    have visited : pY ∈ counter y (y + 16) ↔ Turns y 16 ∧ y ≤ pY ∧ pY < y + 16 :=
      mem_counter_iff top bottom pY
    rw [paintAll_of_unique unique, paintAll_cellPaint x y pY pX pY left right, drawnPaint,
      ← ite_and]
    apply if_congr _ rfl rfl
    rw [visited]
    constructor
    · rintro ⟨⟨rows, below, above⟩, columns, -⟩
      exact ⟨⟨rows, columns⟩, by omega⟩
    · rintro ⟨⟨rows, columns⟩, below, above⟩
      exact ⟨⟨rows, by omega⟩, columns, rfl⟩
  rw [← same]
  exact painted

end Drawing

/-- The pixel of a glyph at the origin is painted. -/
def LookupKey.Touches (chr : LookupKey) (w : Nat) (column row : Int) : Prop :=
  (0 ≤ row ∧ row < 16) ∧
    if chr.Decorates row then 0 ≤ column ∧ column < w
    else chr.slant ≤ column ∧ column < chr.slant + w

/-- A place on a surface of the given size. -/
structure Placement where
  width : Int
  height : Int
  x : Int
  y : Int

namespace Placement

/-- A surface of the size. -/
def surface (place : Placement) : Surface := createRGBSurface place.width place.height

/-- The pixel of a glyph that stands at the place lies on the surface. -/
def Shows (place : Placement) (column row : Int) : Prop :=
  (0 ≤ place.x + column ∧ place.x + column < place.width) ∧
    0 ≤ place.y + row ∧ place.y + row < place.height

/-- Some pixel the glyph paints lies on the surface. -/
def Reaches (place : Placement) (w : Nat) (chr : LookupKey) : Prop :=
  ∃ column row, chr.Touches w column row ∧ place.Shows column row

/-- A row of the glyph looks the same with the decoration of the surface as with its own:
it has both or neither, or it is not slanted and has the colour of the text as far as it
is on the surface. -/
def SameRow (place : Placement) (font : FontTables) (w : Nat) (chr : LookupKey) (row : Int) :
    Prop :=
  (chr.Decorates (place.y + row) ↔ chr.Decorates row) ∨
    ∀ column : Int, 0 ≤ column → column < w → place.x + column < place.width →
      chr.italic ≠ 1 ∧ cellColour font chr column row = chr.fg

end Placement

/-- The glyph is drawn as at the origin, moved to its place and cut off at the edges of the
surface, whatever is on it. No `int` overflows: the ends of the loops do not, and drawing is
defined, so that no address does either. -/
structure DrawsClipped (font : FontTables) (place : Placement) (w : Nat) (chr : LookupKey) :
    Prop where
  right : place.x + w < 2 ^ 31
  bottom : place.y + 16 < 2 ^ 31
  draws : ∀ screen : Surface, screen.w = place.width → screen.h = place.height →
    ∃ after, drawCharacterSurface font screen place.x place.y w chr = some after ∧
      Painted screen after fun pX pY => originPaint font w chr (pX - place.x) (pY - place.y)

section Clipping

variable {font : FontTables} {chr : LookupKey} {w : Nat} {place : Placement}

theorem rowPaint_isSome_iff (decorated : Bool) (row column : Int) :
    (rowPaint font w chr decorated row column).isSome ↔
      if decorated then 0 ≤ column ∧ column < w
      else chr.slant ≤ column ∧ column < chr.slant + w := by
  unfold rowPaint
  split_ifs
  all_goals simp_all

theorem originPaint_isSome_iff (font : FontTables) (column row : Int) :
    (originPaint font w chr column row).isSome ↔ chr.Touches w column row := by
  unfold originPaint LookupKey.Touches
  by_cases inside : 0 ≤ row ∧ row < 16
  · rw [if_pos inside, rowPaint_isSome_iff, and_iff_right inside]
    simp only [decide_eq_true_eq]
  · rw [if_neg inside]
    exact iff_of_false Bool.false_ne_true fun both => inside both.1

/-- Paints that leave the same pixels on every ground are the same. -/
theorem eq_of_getD {first second : Option UInt32}
    (same : ∀ ground, first.getD ground = second.getD ground) : first = second := by
  have distinct : ∀ value : UInt32, value ≠ value + 1 := by
    intro value equal
    have next := congrArg UInt32.toNat equal
    have bound := value.toNat_lt
    rw [UInt32.toNat_add, UInt32.toNat_one] at next
    omega
  cases first with
  | none =>
      cases second with
      | none => rfl
      | some value => exact absurd (same (value + 1)).symm (distinct value)
  | some value =>
      cases second with
      | none => exact absurd (same (value + 1)) (distinct value)
      | some other => exact congrArg some (same 0)

/-- A glyph is drawn as it should be exactly when no `int` overflows and it is painted so on the
surface. -/
theorem drawsClipped_iff_paint (full : font.Full) (small : chr.c.toNat < 65536)
    (left : -2 ^ 31 ≤ place.x) (top : -2 ^ 31 ≤ place.y) :
    DrawsClipped font place w chr ↔
      place.x + w < 2 ^ 31 ∧ place.y + 16 < 2 ^ 31 ∧
        (Turns place.y 16 → Turns place.x w → Addressed place.surface place.x place.y w chr) ∧
        ∀ column row, place.Shows column row →
          drawnPaint font place.x place.y w chr (place.x + column) (place.y + row) =
            originPaint font w chr column row := by
  constructor
  · rintro ⟨right, bottom, draws⟩
    have addressed : Turns place.y 16 → Turns place.x w →
        Addressed place.surface place.x place.y w chr := by
      obtain ⟨after, drawn, -⟩ := draws place.surface rfl rfl
      exact addressed_of_drawn left top right bottom drawn
    refine ⟨right, bottom, addressed, fun column row shows => eq_of_getD fun ground => ?_⟩
    obtain ⟨after, drawn, painted⟩ :=
      draws ⟨place.width, place.height, fun _ _ => ground⟩ rfl rfl
    obtain ⟨other, drawn', painted'⟩ := drawCharacterSurface_painted full small
      ⟨place.width, place.height, fun _ _ => ground⟩ place.x place.y w left top right bottom addressed
    obtain rfl := Option.some.inj (drawn.symm.trans drawn')
    have covers : Surface.Covers ⟨place.width, place.height, fun _ _ => ground⟩
        (place.x + column) (place.y + row) :=
      ⟨shows.1.1, shows.1.2, shows.2.1, shows.2.2⟩
    have pixel := painted.pixel (place.x + column) (place.y + row)
    rw [painted'.pixel, if_pos covers, if_pos covers, add_sub_cancel_left,
      add_sub_cancel_left] at pixel
    exact pixel
  · rintro ⟨right, bottom, addressed, same⟩
    refine ⟨right, bottom, fun screen width height => ?_⟩
    obtain ⟨after, drawn, painted⟩ :=
      drawCharacterSurface_painted full small screen place.x place.y w left top right bottom
        fun turnsY turnsX column row start stop below above =>
          (addresses_congr width _ _).mpr
            (addressed turnsY turnsX column row start stop below above)
    refine ⟨after, drawn, painted.w, painted.h, fun pX pY => ?_⟩
    rw [painted.pixel]
    by_cases covers : screen.Covers pX pY
    · have shows : place.Shows (pX - place.x) (pY - place.y) := by
        unfold Surface.Covers at covers
        unfold Placement.Shows
        omega
      have paint := same _ _ shows
      rw [add_sub_cancel, add_sub_cancel] at paint
      rw [if_pos covers, if_pos covers, paint]
    · rw [if_neg covers, if_neg covers]

/-- A decorated row and one that is not look the same on the surface exactly when the row
is not slanted and has the colour of the text there. -/
theorem rowPaint_decorated_eq_iff (inside : 0 ≤ place.x) (row : Int) :
    (∀ column, 0 ≤ place.x + column → place.x + column < place.width →
        rowPaint font w chr true row column = rowPaint font w chr false row column) ↔
      ∀ column : Int, 0 ≤ column → column < w → place.x + column < place.width →
        chr.italic ≠ 1 ∧ cellColour font chr column row = chr.fg := by
  constructor
  · intro same column start stop shown
    have upright : chr.italic ≠ 1 := by
      -- The first column of a slanted row is not painted.
      intro slanted
      have first := same 0 (by omega) (by omega)
      have bound : (0 : Int) ≤ 0 ∧ (0 : Int) < w := by omega
      rw [rowPaint, if_pos rfl, if_pos bound, rowPaint, if_neg Bool.false_ne_true,
        LookupKey.slant, if_pos slanted, if_neg (by omega)] at first
      cases first
    have here := same column (by omega) shown
    have bound : 0 ≤ column ∧ column < w := ⟨start, stop⟩
    have slant : chr.slant = 0 := if_neg upright
    rw [rowPaint, if_pos rfl, if_pos bound, rowPaint, if_neg Bool.false_ne_true, slant,
      if_pos (by omega), Int.sub_zero, Option.some.injEq] at here
    exact ⟨upright, here.symm⟩
  · intro same column start stop
    unfold rowPaint
    rw [if_pos rfl, if_neg Bool.false_ne_true]
    by_cases within : 0 ≤ column ∧ column < w
    · obtain ⟨upright, colour⟩ := same column within.1 within.2 stop
      have slant : chr.slant = 0 := if_neg upright
      rw [slant, if_pos within, if_pos (by omega), Int.sub_zero, colour]
    · rw [if_neg within]
      by_cases upright : chr.italic ≠ 1
      · have slant : chr.slant = 0 := if_neg upright
        rw [slant, if_neg (by omega)]
      · have slant : chr.slant = 1 := if_pos (not_not.mp upright)
        rw [slant, if_neg]
        rintro ⟨behind, before⟩
        exact upright (same 0 (by omega) (by omega) (by omega)).1

/-- Nothing is painted on a surface left of which or above which the glyph starts. -/
theorem drawnPaint_outside (outside : ¬ (0 ≤ place.x ∧ 0 ≤ place.y)) {column row : Int}
    (shows : place.Shows column row) :
    drawnPaint font place.x place.y w chr (place.x + column) (place.y + row) = none := by
  obtain ⟨⟨start, -⟩, first, -⟩ := shows
  rw [drawnPaint]
  split_ifs with painted
  · obtain ⟨⟨rows, columns⟩, below, above⟩ := painted
    unfold Turns at rows columns
    have slant : chr.slant ≤ 1 := by
      unfold LookupKey.slant
      split_ifs
      all_goals decide
    rw [add_sub_cancel_left, rowPaint]
    split_ifs
    all_goals first | rfl | omega
  · rfl

/-- On the other surfaces a glyph is painted by its rows. -/
theorem drawnPaint_inside (inside : 0 ≤ place.x ∧ 0 ≤ place.y) (column row : Int) :
    drawnPaint font place.x place.y w chr (place.x + column) (place.y + row) =
      if 0 ≤ row ∧ row < 16 then
        rowPaint font w chr (chr.Decorates (place.y + row)) row column
      else none := by
  rw [drawnPaint, add_sub_cancel_left, add_sub_cancel_left]
  apply if_congr _ rfl rfl
  exact and_iff_right ⟨Or.inl inside.2, Or.inl inside.1⟩

/-- A row is painted as at the origin exactly when it looks the same. -/
theorem sameRow_iff (inside : 0 ≤ place.x) (row : Int) :
    place.SameRow font w chr row ↔
      ∀ column, 0 ≤ place.x + column → place.x + column < place.width →
        rowPaint font w chr (chr.Decorates (place.y + row)) row column =
          rowPaint font w chr (chr.Decorates row) row column := by
  unfold Placement.SameRow
  by_cases there : chr.Decorates (place.y + row)
  · by_cases own : chr.Decorates row
    · rw [decide_eq_true there, decide_eq_true own]
      exact iff_of_true (Or.inl (iff_of_true there own)) fun _ _ _ => rfl
    · rw [decide_eq_true there, decide_eq_false own, rowPaint_decorated_eq_iff inside]
      exact or_iff_right fun both => own (both.mp there)
  · by_cases own : chr.Decorates row
    · rw [decide_eq_false there, decide_eq_true own, ← rowPaint_decorated_eq_iff inside,
        or_iff_right fun both => there (both.mpr own)]
      constructor
      · intro same column start stop
        exact (same column start stop).symm
      · intro same column start stop
        exact (same column start stop).symm
    · rw [decide_eq_false there, decide_eq_false own]
      exact iff_of_true (Or.inl (iff_of_false there own)) fun _ _ _ => rfl

/-- On the surface, and right of it and below, the paint is the same when the rows are. -/
theorem samePaint_inside_iff (inside : 0 ≤ place.x ∧ 0 ≤ place.y) :
    (∀ column row, place.Shows column row →
        drawnPaint font place.x place.y w chr (place.x + column) (place.y + row) =
          originPaint font w chr column row) ↔
      ∀ row, 0 ≤ row → row < 16 → place.y + row < place.height →
        place.SameRow font w chr row := by
  constructor
  · intro same row start stop shown
    rw [sameRow_iff inside.1]
    intro column first last
    have paint := same column row ⟨⟨first, last⟩, by omega⟩
    have bound : 0 ≤ row ∧ row < 16 := ⟨start, stop⟩
    rwa [drawnPaint_inside inside, if_pos bound, originPaint, if_pos bound] at paint
  · intro rows column row shows
    rw [drawnPaint_inside inside, originPaint]
    split_ifs with bound
    · have same := rows row bound.1 bound.2 shows.2.2
      exact (sameRow_iff inside.1 row).mp same column shows.1.1 shows.1.2
    · rfl

/-- Left of the surface or above it the paint is the same when the glyph does not reach the
surface. -/
theorem samePaint_outside_iff (outside : ¬ (0 ≤ place.x ∧ 0 ≤ place.y)) :
    (∀ column row, place.Shows column row →
        drawnPaint font place.x place.y w chr (place.x + column) (place.y + row) =
          originPaint font w chr column row) ↔
      ¬ place.Reaches w chr := by
  constructor
  · rintro same ⟨column, row, touches, shows⟩
    have painted := (originPaint_isSome_iff font column row).mpr touches
    rw [← same column row shows, drawnPaint_outside outside shows] at painted
    cases painted
  · intro missed column row shows
    rw [drawnPaint_outside outside shows]
    by_contra painted
    apply missed
    exact ⟨column, row, (originPaint_isSome_iff font column row).mp
      (Option.isSome_iff_ne_none.mpr fun none => painted none.symm), shows⟩

/-- **Glyphs.** A glyph is drawn as at the origin, moved and cut off, exactly when no `int`
overflows at the ends of the loops and, where they turn, in the addresses of its points, it starts
on the surface or right of it and below if it reaches it at all, and its rows on the surface look
the same with the decoration of the surface. -/
theorem drawsClipped_iff (font : FontTables) (full : font.Full) (place : Placement) (w : Nat)
    (chr : LookupKey) (small : chr.c.toNat < 65536) (left : -2 ^ 31 ≤ place.x)
    (top : -2 ^ 31 ≤ place.y) :
    DrawsClipped font place w chr ↔
      place.x + w < 2 ^ 31 ∧ place.y + 16 < 2 ^ 31 ∧
        (Turns place.y 16 → Turns place.x w → Addressed place.surface place.x place.y w chr) ∧
        (place.Reaches w chr → 0 ≤ place.x ∧ 0 ≤ place.y) ∧
        (0 ≤ place.x → 0 ≤ place.y → ∀ row, 0 ≤ row → row < 16 → place.y + row < place.height →
          place.SameRow font w chr row) := by
  rw [drawsClipped_iff_paint full small left top]
  apply and_congr_right
  intro right
  apply and_congr_right
  intro bottom
  apply and_congr_right
  intro addressed
  by_cases inside : 0 ≤ place.x ∧ 0 ≤ place.y
  · rw [samePaint_inside_iff inside]
    constructor
    · intro rows
      exact ⟨fun _ => inside, fun _ _ => rows⟩
    · rintro ⟨-, rows⟩
      exact rows inside.1 inside.2
  · rw [samePaint_outside_iff inside]
    constructor
    · intro missed
      exact ⟨fun reaches => absurd reaches missed, fun first second => absurd ⟨first, second⟩ inside⟩
    · rintro ⟨starts, -⟩ reaches
      exact inside (starts reaches)

end Clipping

/-- White text on black, in no style. -/
def plainKey : LookupKey := ⟨0x41, 0, 0xFFFFFF, 0, 0, 0, 0⟩

/-- A plain glyph at the right edge is cut off. -/
theorem drawsClipped_right : DrawsClipped clearedTables ⟨20, 20, 15, 2⟩ 8 plainKey := by
  refine (drawsClipped_iff clearedTables clearedTables_full ⟨20, 20, 15, 2⟩ 8 plainKey (by decide)
    (by decide) (by decide)).mpr ⟨by decide, by decide, fun _ _ => ?_, fun _ => by decide, ?_⟩
  · intro column row start stop below above
    have plain : ¬ plainKey.Decorates (2 + row) := by
      rintro (⟨-, underlined⟩ | ⟨-, struck⟩)
      · exact absurd underlined (by decide)
      · exact absurd struck (by decide)
    have slant : plainKey.slant = 0 := rfl
    rw [LookupKey.drawnColumn, if_neg plain, slant]
    unfold Surface.Addresses IsInt Surface.pitch Placement.surface createRGBSurface
    dsimp only
    omega
  intro _ _ row _ _ _
  have plain : ∀ row, ¬ plainKey.Decorates row := by
    rintro row (⟨-, underlined⟩ | ⟨-, struck⟩)
    · exact absurd underlined (by decide)
    · exact absurd struck (by decide)
  exact Or.inl (iff_of_false (plain _) (plain row))

/-- A glyph that starts one row above the surface is not drawn at all. -/
theorem drawsClipped_above : ¬ DrawsClipped clearedTables ⟨20, 20, 0, -1⟩ 8 plainKey := by
  rw [drawsClipped_iff_paint clearedTables_full (by decide) (by decide) (by decide)]
  rintro ⟨-, -, -, same⟩
  have shows : Placement.Shows ⟨20, 20, 0, -1⟩ 0 1 := ⟨⟨by decide, by decide⟩, by decide, by decide⟩
  have paint := same 0 1 shows
  rw [drawnPaint_outside (by decide) shows] at paint
  have touched : plainKey.Touches 8 0 1 := by
    unfold LookupKey.Touches
    decide
  have painted := (originPaint_isSome_iff clearedTables 0 1).mpr touched
  rw [← paint] at painted
  cases painted

end Hackterm
