import Hackterm.Bits.CInt
import Mathlib.Data.List.Basic

/-! # Drawing a glyph

The font is two tables: 32 bytes of bitmap for each character, and one bit that says
whether it is narrow. A glyph is drawn point by point on a surface, with the style of
the text worked into the bitmap (`Hackterm.drawCharacterSurface`). Reading behind the
end of a table is undefined, which is `none`, and so is a point whose address does not fit in
an `int`; with full tables, no character of 16 bits reads there, and none whose points have
addresses is undefined (`Hackterm.drawCharacterSurface_isSome`).
-/

namespace Hackterm

/-- `fontmap` and `widthmap`. -/
structure FontTables where
  fontmap : List UInt8
  widthmap : List UInt8

/-- `get_widthmap`: whether a character is narrow. -/
def getWidthmap (font : FontTables) (p : UInt16) : Option Bool := do
  let byte ← font.widthmap[p.toNat / 8]?
  return byte.toNat.testBit (p.toNat % 8)

/-- `get_pixel`. -/
def getPixel (font : FontTables) (c : UInt32) (cX cY : Int) : Option UInt32 :=
  if cX < 0 then some 0
  else if cY < 0 then some 0
  else if 15 < cX then some 0
  else if 15 < cY then some 0
  else
    let pos := (cY * 16 + cX).toNat
    (font.fontmap[32 * c.toNat + pos / 8]?).map fun byte =>
      if byte.toNat.testBit (pos % 8) then 65535 else 0

/-- The size and the pixels of an `SDL_Surface` with four bytes a pixel. -/
structure Surface where
  w : Int
  h : Int
  pixel : Int → Int → UInt32

/-- `SDL_CreateRGBSurface`: all pixels are zero. -/
def createRGBSurface (w h : Int) : Surface := { w := w, h := h, pixel := fun _ _ => 0 }

/-- `pitch`: the bytes of a row, which is not padded. -/
def Surface.pitch (screen : Surface) : Int := 4 * screen.w

/-- A pixel is written if it lies on the surface. -/
def Surface.plot (screen : Surface) (x y : Int) (value : UInt32) : Surface :=
  if x < 0 ∨ y < 0 ∨ screen.w ≤ x ∨ screen.h ≤ y then screen
  else
    { screen with
      pixel := fun pX pY => if pX = x ∧ pY = y then value else screen.pixel pX pY }

/-- The products `y * pitch` and `x * bpp` in the address of a pixel do not overflow. -/
def Surface.Addresses (screen : Surface) (x y : Int) : Prop :=
  IsInt (y * screen.pitch) ∧ IsInt (x * 4)

instance (screen : Surface) (x y : Int) : Decidable (screen.Addresses x y) :=
  inferInstanceAs (Decidable (_ ∧ _))

/-- `draw_point`. The address is worked out before the pixel is looked for on the surface. -/
def drawPoint (screen : Surface) (x y : Int) (value : UInt32) : Option Surface :=
  if screen.Addresses x y then some (screen.plot x y value) else none

/-- What `draw_character_surface` draws: the character, the colours and the style. -/
structure LookupKey where
  c : UInt32
  bg : UInt32
  fg : UInt32
  bold : Int32
  underline : Int32
  italic : Int32
  strike : Int32
deriving DecidableEq

/-- The `int` values of a `size_t` counter that starts at `first` and stops at `last`. -/
def counter (first last : Int) : List Int :=
  (List.range (sizeT last - sizeT first)).map fun turn => first + turn

/-- The body of the loops of `draw_character_surface`. -/
def drawCell (font : FontTables) (x y : Int) (chr : LookupKey) (cY : Int) (screen : Surface)
    (cX : Int) : Option Surface :=
  if cY = 15 ∧ chr.underline = 1 then drawPoint screen cX cY chr.fg
  else if cY = 8 ∧ chr.strike = 1 then drawPoint screen cX cY chr.fg
  else do
    let value ← getPixel font chr.c (cX - x) (cY - y)
    let value1 ← getPixel font chr.c (cX + 1 - x) (cY - y)
    let i := if chr.italic = 1 then 1 else 0
    if 0 < value then drawPoint screen (cX + i) cY chr.fg
    else
      let screen ← drawPoint screen (cX + i) cY chr.bg
      if chr.bold = 1 ∧ 0 < value1 then drawPoint screen (cX + i) cY chr.fg else pure screen

/-- `draw_character_surface`. -/
def drawCharacterSurface (font : FontTables) (screen : Surface) (x y w : Int) (chr : LookupKey) :
    Option Surface :=
  (counter y (y + 16)).foldlM
    (fun screen cY => (counter x (x + w)).foldlM (drawCell font x y chr cY) screen) screen

/-- There is an entry for each of the 65536 characters. -/
structure FontTables.Full (font : FontTables) : Prop where
  fontmap : font.fontmap.length = 32 * 65536
  widthmap : font.widthmap.length = 65536 / 8

section Full

variable {font : FontTables}

theorem getWidthmap_isSome (full : font.Full) (p : UInt16) : (getWidthmap font p).isSome := by
  have inside : p.toNat / 8 < font.widthmap.length := by
    rw [full.widthmap]
    exact Nat.div_lt_div_of_lt_of_dvd (by decide) p.toNat_lt
  rw [getWidthmap, List.getElem?_eq_getElem inside]
  rfl

theorem getPixel_isSome (full : font.Full) {c : UInt32} (small : c.toNat < 65536) (cX cY : Int) :
    (getPixel font c cX cY).isSome := by
  unfold getPixel
  split
  · rfl
  split
  · rfl
  split
  · rfl
  split
  · rfl
  · have inside : 32 * c.toNat + (cY * 16 + cX).toNat / 8 < font.fontmap.length := by
      rw [full.fontmap]
      omega
    dsimp only
    rw [List.getElem?_eq_getElem inside]
    rfl

/-- A loop whose body is defined and keeps an invariant is defined. -/
theorem foldlM_isSome {State Item : Type} {body : State → Item → Option State} {items : List Item}
    (holds : State → Prop)
    (defined : ∀ state, holds state → ∀ item ∈ items, ∃ next, body state item = some next ∧
      holds next) (state : State) (start : holds state) :
    ∃ after, items.foldlM body state = some after ∧ holds after := by
  induction items generalizing state with
  | nil => exact ⟨state, rfl, start⟩
  | cons item items ih =>
      obtain ⟨next, step, kept⟩ := defined state start item List.mem_cons_self
      rw [List.foldlM_cons, step]
      exact ih (fun state held other member =>
        defined state held other (List.mem_cons_of_mem item member)) next kept

/-- What is reached by a loop that keeps an invariant, and what holds at each of its items. -/
theorem foldlM_visits {State Item : Type} {body : State → Item → Option State} {items : List Item}
    (holds : State → Prop) (visited : Item → Prop)
    (visits : ∀ state next item, holds state → body state item = some next →
      visited item ∧ holds next) {state after : State} (start : holds state)
    (run : items.foldlM body state = some after) :
    (∀ item ∈ items, visited item) ∧ holds after := by
  induction items generalizing state with
  | nil =>
      cases run
      exact ⟨by simp, start⟩
  | cons item items ih =>
      rw [List.foldlM_cons] at run
      obtain ⟨next, step, rest⟩ := Option.bind_eq_some_iff.mp run
      obtain ⟨here, kept⟩ := visits state next item start step
      obtain ⟨others, reached⟩ := ih kept rest
      exact ⟨List.forall_mem_cons.mpr ⟨here, others⟩, reached⟩

@[simp] theorem plot_w (screen : Surface) (x y : Int) (value : UInt32) :
    (screen.plot x y value).w = screen.w := by
  unfold Surface.plot
  split <;> rfl

/-- Addresses depend on the width of the surface only. -/
theorem addresses_congr {screen other : Surface} (same : other.w = screen.w) (x y : Int) :
    other.Addresses x y ↔ screen.Addresses x y := by
  rw [Surface.Addresses, Surface.Addresses, Surface.pitch, Surface.pitch, same]

theorem drawPoint_of_addresses {screen : Surface} {x y : Int} (addresses : screen.Addresses x y)
    (value : UInt32) : drawPoint screen x y value = some (screen.plot x y value) :=
  if_pos addresses

theorem drawCell_isSome (full : font.Full) {chr : LookupKey} (small : chr.c.toNat < 65536)
    (x y cY : Int) (screen : Surface) (cX : Int) (upright : screen.Addresses cX cY)
    (slanted : screen.Addresses (cX + if chr.italic = 1 then 1 else 0) cY) :
    ∃ next, drawCell font x y chr cY screen cX = some next ∧ next.w = screen.w := by
  obtain ⟨value, here⟩ := Option.isSome_iff_exists.mp (getPixel_isSome full small (cX - x) (cY - y))
  obtain ⟨value1, next⟩ :=
    Option.isSome_iff_exists.mp (getPixel_isSome full small (cX + 1 - x) (cY - y))
  unfold drawCell
  rw [here, next, drawPoint_of_addresses upright, Option.bind_eq_bind, Option.bind_some,
    Option.bind_some]
  dsimp only
  rw [drawPoint_of_addresses slanted, drawPoint_of_addresses slanted, Option.bind_eq_bind,
    Option.bind_some]
  rw [drawPoint_of_addresses ((addresses_congr (plot_w screen _ _ _) _ _).mpr slanted)]
  split_ifs
  all_goals exact ⟨_, rfl, by simp⟩

/-- **Full tables.** Any character of 16 bits can be drawn, on any surface and at any place whose
points have addresses. -/
theorem drawCharacterSurface_isSome (full : font.Full) {chr : LookupKey}
    (small : chr.c.toNat < 65536) (screen : Surface) (x y w : Int)
    (addresses : ∀ cY ∈ counter y (y + 16), ∀ cX ∈ counter x (x + w),
      screen.Addresses cX cY ∧ screen.Addresses (cX + 1) cY) :
    (drawCharacterSurface font screen x y w chr).isSome := by
  have whole : ∃ after, drawCharacterSurface font screen x y w chr = some after ∧
      after.w = screen.w := by
    refine foldlM_isSome (fun next => next.w = screen.w) ?_ screen rfl
    intro state width cY row
    refine foldlM_isSome (fun next => next.w = screen.w) ?_ state width
    intro state width cX column
    obtain ⟨upright, slanted⟩ := addresses cY row cX column
    have shifted : screen.Addresses (cX + if chr.italic = 1 then 1 else 0) cY := by
      split_ifs
      · exact slanted
      · rwa [Int.add_zero]
    obtain ⟨next, drawn, kept⟩ := drawCell_isSome full small x y cY state cX
      ((addresses_congr width _ _).mpr upright) ((addresses_congr width _ _).mpr shifted)
    exact ⟨next, drawn, kept.trans width⟩
  obtain ⟨after, drawn, -⟩ := whole
  rw [drawn]
  rfl

end Full

end Hackterm
