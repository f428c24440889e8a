import Hackterm.Glyph.Drawing
import Hackterm.Nunifont
import Mathlib.Algebra.GroupWithZero.Nat

/-! # The glyph cache

`draw_character` keeps one texture for each character, pair of colours and style. The
cache is a `uthash` table on raw memory: the bytes of a `lookup_key_t` are compared with
the bytes that start at the field `c` of a `char_render_t`. Textures belong to the
renderer they were made with; SDL is a parameter (`Hackterm.Sdl`).
-/

namespace Hackterm

/-- The bytes of a 32 bit field, least significant first. -/
def bytesOf (value : UInt32) : List UInt8 :=
  (List.range 4).map fun n => UInt8.ofNat (value.toNat / 256 ^ n)

/-- The bytes of a `lookup_key_t`. -/
def LookupKey.bytes (chr : LookupKey) : List UInt8 :=
  [chr.c, chr.bg, chr.fg, chr.bold.toUInt32, chr.underline.toUInt32, chr.italic.toUInt32,
    chr.strike.toUInt32].flatMap bytesOf

/-- `char_render_t`. Of `hh` only the length of the key is kept: the key itself starts
at `c`. The texture is `none` when it could not be created. -/
structure CharRender (Texture : Type) where
  keylen : Int
  c : UInt32
  bg : UInt32
  fg : UInt32
  bold : Int32
  underline : Int32
  italic : Int32
  strike : Int32
  texture : Option Texture

/-- The bytes of a `char_render_t` from `c` to `strike`. -/
def CharRender.bytes {Texture : Type} (mchr : CharRender Texture) : List UInt8 :=
  [mchr.c, mchr.bg, mchr.fg, mchr.bold.toUInt32, mchr.underline.toUInt32, mchr.italic.toUInt32,
    mchr.strike.toUInt32].flatMap bytesOf

/-- A call about textures. `nunifont_initcache` passes entries of the cache to
`SDL_DestroyTexture`. -/
inductive TextureCall (Texture : Type) where
  | create (texture : Option Texture)
  | destroy (mchr : CharRender Texture)

/-- The textures of SDL. What a creation returns may depend on all calls before. -/
structure Sdl (Renderer Texture : Type) where
  createTextureFromSurface :
    List (TextureCall Texture) → Renderer → Surface → Option Texture
  owner : Texture → Renderer
  pixels : Texture → Surface

/-- `SDL_CreateTextureFromSurface` returns a texture of the renderer it is given, with
the pixels of the surface. -/
def Sdl.Creates {Renderer Texture : Type} (sdl : Sdl Renderer Texture) : Prop :=
  ∀ calls renderer surface, ∃ texture,
    sdl.createTextureFromSurface calls renderer surface = some texture ∧
      sdl.owner texture = renderer ∧ sdl.pixels texture = surface

/-- The globals of the font code. `font` is `none` until the tables are loaded, and
`renderer` the one the window is drawn with; `calls` are the calls about textures so
far. -/
structure GlyphState (Renderer Texture : Type) where
  font : Option FontTables
  nunifont : Nunifont
  keylen : Int
  displayCache : List (CharRender Texture)
  renderer : Renderer
  calls : List (TextureCall Texture)

/-- `SDL_Rect`. -/
structure SdlRect where
  x : Int
  y : Int
  w : Int
  h : Int
deriving DecidableEq

/-- A call of `SDL_RenderCopy` with a whole texture. -/
structure RenderCopy (Renderer Texture : Type) where
  renderer : Renderer
  texture : Option Texture
  dstRect : SdlRect

section Cache

variable {Renderer Texture : Type}

/-- The globals at the start of the program, with the renderer of the window. -/
def glyphStart (renderer : Renderer) : GlyphState Renderer Texture :=
  { font := none, nunifont := { width := 0, height := 0, space := 0 }, keylen := -1
    displayCache := [], renderer := renderer, calls := [] }

/-- The offset of `c` in `char_render_t`, behind the `UT_hash_handle`. -/
def offsetofC : Int := 56

/-- The offset of `strike`, the seventh field of four bytes. -/
def offsetofStrike : Int := offsetofC + 6 * 4

/-- `nunifont_initcache`. An entry is no texture, and `SDL_DestroyTexture` refuses it. -/
def nunifontInitcache (st : GlyphState Renderer Texture) : GlyphState Renderer Texture :=
  { st with
    calls := st.calls ++ st.displayCache.map .destroy
    keylen := offsetofStrike + 4 - offsetofC
    displayCache := [] }

/-- `nunifont_load_staticmap`, and `nunifont_init` with the tables `load_fonts` makes. -/
def nunifontLoad (font : FontTables) (st : GlyphState Renderer Texture) :
    GlyphState Renderer Texture :=
  nunifontInitcache { st with font := some font }

/-- A renderer is replaced in `process_resize` and in `main`. -/
def replaceRenderer (renderer : Renderer) (st : GlyphState Renderer Texture) :
    GlyphState Renderer Texture :=
  nunifontInitcache { st with renderer := renderer }

/-- The bytes of a key of the given length; `none` when they leave the fields of the key. -/
def rawKey (keylen : Int) (bytes : List UInt8) : Option (List UInt8) :=
  if 0 ≤ keylen ∧ keylen ≤ bytes.length then some (bytes.take keylen.toNat) else none

/-- `HASH_FIND`. -/
def hashFind (cache : List (CharRender Texture)) (chr : LookupKey) (keylen : Int) :
    Option (Option (CharRender Texture)) := do
  let key ← rawKey keylen chr.bytes
  return cache.find? fun mchr => mchr.keylen = keylen ∧ rawKey mchr.keylen mchr.bytes = some key

/-- The width of a glyph in the bitmap. -/
def glyphWidth (font : FontTables) (c : UInt32) : Option Int := do
  return if (← getWidthmap font c.toUInt16) then 8 else 16

/-- The branch of `draw_character` for a glyph that is not in the cache. -/
def renderCharacter (sdl : Sdl Renderer Texture) (st : GlyphState Renderer Texture)
    (font : FontTables) (w : Int) (chr : LookupKey) :
    Option (GlyphState Renderer Texture × CharRender Texture) := do
  let converted ← drawCharacterSurface font (createRGBSurface w 16) 0 0 w chr
  let texture := sdl.createTextureFromSurface st.calls st.renderer converted
  let mchr : CharRender Texture :=
    { keylen := st.keylen, c := chr.c, bg := chr.bg, fg := chr.fg, bold := chr.bold
      underline := chr.underline, italic := chr.italic, strike := chr.strike, texture := texture }
  return ({ st with
    calls := st.calls ++ [.create texture]
    displayCache := st.displayCache ++ [mchr] }, mchr)

/-- The entry `draw_character` takes its texture from. -/
def cachedCharacter (sdl : Sdl Renderer Texture) (st : GlyphState Renderer Texture)
    (font : FontTables) (w : Int) (chr : LookupKey) :
    Option (GlyphState Renderer Texture × CharRender Texture) := do
  match (← hashFind st.displayCache chr st.keylen) with
  | some mchr => return (st, mchr)
  | none => renderCharacter sdl st font w chr

/-- `draw_character` on the renderer of the window. The width it is passed is not used. -/
def drawCharacter (sdl : Sdl Renderer Texture) (st : GlyphState Renderer Texture) (x y : Int)
    (chr : LookupKey) : Option (GlyphState Renderer Texture × RenderCopy Renderer Texture) := do
  let font ← st.font
  let w ← glyphWidth font chr.c
  let (st, mchr) ← cachedCharacter sdl st font w chr
  let mw := if w = 16 then st.nunifont.width * 2 else st.nunifont.width
  let dstRect := { x := x, y := y, w := mw, h := st.nunifont.height }
  return (st, { renderer := st.renderer, texture := mchr.texture, dstRect := dstRect })

/-- What the program does to the font code. -/
inductive GlyphEvent (Renderer : Type) where
  | load (font : FontTables)
  | renderer (renderer : Renderer)
  | size (size : Int)
  | draw (x y : Int) (chr : LookupKey)

/-- The globals after an event. -/
def glyphStep (sdl : Sdl Renderer Texture) (st : GlyphState Renderer Texture) :
    GlyphEvent Renderer → Option (GlyphState Renderer Texture)
  | .load font => some (nunifontLoad font st)
  | .renderer renderer => some (replaceRenderer renderer st)
  | .size size => some { st with nunifont := nunifontSize size st.nunifont }
  | .draw x y chr => (drawCharacter sdl st x y chr).map Prod.fst

/-- The globals after a run. -/
def glyphRun (sdl : Sdl Renderer Texture) (st : GlyphState Renderer Texture)
    (events : List (GlyphEvent Renderer)) : Option (GlyphState Renderer Texture) :=
  events.foldlM (glyphStep sdl) st

end Cache

end Hackterm
