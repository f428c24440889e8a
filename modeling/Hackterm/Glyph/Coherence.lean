import Hackterm.Glyph.Cache
import Hackterm.Memo.Table
import Mathlib.Data.List.Find

/-! # Coherence of the glyph cache

Equal key bytes mean equal keys, so the cache is a memo table of the drawn glyphs
(`Hackterm.cachedCharacter_fetch`). It is emptied whenever the font or the renderer
changes, and so, in every run, `draw_character` shows what it would show without a
cache (`Hackterm.drawCharacter_coherent`). With full tables every run is defined
(`Hackterm.glyphRun_isSome`).
-/

namespace Hackterm

section KeyBytes

theorem bytesOf_length (value : UInt32) : (bytesOf value).length = 4 := by
  rw [bytesOf, List.length_map, List.length_range]

theorem bytesOf_injective : Function.Injective bytesOf := by
  intro left right same
  have digit : ∀ n < 4, left.toNat / 256 ^ n % 256 = right.toNat / 256 ^ n % 256 := by
    intro n small
    have same := congrArg UInt8.toNat (List.map_inj_left.mp same n (List.mem_range.mpr small))
    rwa [UInt8.toNat_ofNat', UInt8.toNat_ofNat'] at same
  have first := digit 0 (by decide)
  have second := digit 1 (by decide)
  have third := digit 2 (by decide)
  have fourth := digit 3 (by decide)
  apply UInt32.toNat_inj.mp
  have leftSmall := left.toNat_lt
  have rightSmall := right.toNat_lt
  omega

/-- Fields of four bytes can be read off their bytes. -/
theorem flatMap_bytesOf_injective {left right : List UInt32} (same : left.length = right.length)
    (bytes : left.flatMap bytesOf = right.flatMap bytesOf) : left = right := by
  induction left generalizing right with
  | nil => exact (List.length_eq_zero_iff.mp same.symm).symm
  | cons value left ih =>
      cases right with
      | nil => cases same
      | cons other right =>
          rw [List.flatMap_cons, List.flatMap_cons] at bytes
          obtain ⟨first, rest⟩ := List.append_inj bytes
            ((bytesOf_length value).trans (bytesOf_length other).symm)
          rw [bytesOf_injective first, ih (Nat.succ.inj same) rest]

/-- The key of an entry. -/
def CharRender.lookupKey {Texture : Type} (mchr : CharRender Texture) : LookupKey :=
  { c := mchr.c, bg := mchr.bg, fg := mchr.fg, bold := mchr.bold, underline := mchr.underline
    italic := mchr.italic, strike := mchr.strike }

/-- The two structures lay the fields out alike. -/
theorem CharRender.bytes_eq {Texture : Type} (mchr : CharRender Texture) :
    mchr.bytes = mchr.lookupKey.bytes := rfl

theorem LookupKey.bytes_length (chr : LookupKey) : chr.bytes.length = 28 := by
  rw [LookupKey.bytes, List.length_flatMap]
  simp only [List.map_cons, List.map_nil, bytesOf_length]
  rfl

theorem toUInt32_injective : Function.Injective Int32.toUInt32 := by
  intro left right same
  cases left
  cases right
  exact congrArg Int32.ofUInt32 same

theorem LookupKey.bytes_injective : Function.Injective LookupKey.bytes := by
  intro left right same
  have fields := flatMap_bytesOf_injective (by rfl) same
  cases left
  cases right
  simp only [List.cons.injEq] at fields
  obtain ⟨c, bg, fg, bold, underline, italic, strike, -⟩ := fields
  rw [LookupKey.mk.injEq]
  exact ⟨c, bg, fg, toUInt32_injective bold, toUInt32_injective underline,
    toUInt32_injective italic, toUInt32_injective strike⟩

/-- A key of 28 bytes is all of the fields. -/
theorem rawKey_bytes (chr : LookupKey) : rawKey 28 chr.bytes = some chr.bytes := by
  rw [rawKey, chr.bytes_length, if_pos (by decide), List.take_of_length_le]
  exact Nat.le_of_eq chr.bytes_length

/-- The hash table finds the entry of a key. -/
theorem hashFind_eq {Texture : Type} {cache : List (CharRender Texture)}
    (keys : ∀ mchr ∈ cache, mchr.keylen = 28) (chr : LookupKey) :
    hashFind cache chr 28 = some (Memo.find CharRender.lookupKey cache chr) := by
  rw [hashFind, rawKey_bytes]
  apply congrArg some
  apply List.find?_congr
  intro mchr member
  rw [keys mchr member, mchr.bytes_eq, rawKey_bytes]
  simp only [Option.some.injEq, true_and, LookupKey.bytes_injective.eq_iff]

end KeyBytes

section Draw

variable {Renderer Texture : Type} {sdl : Sdl Renderer Texture}
  {st after : GlyphState Renderer Texture} {font : FontTables} {chr : LookupKey} {w : Int}

/-- The glyph on a fresh surface. -/
def glyphSurface (font : FontTables) (chr : LookupKey) : Option Surface := do
  let w ← glyphWidth font chr.c
  drawCharacterSurface font (createRGBSurface w 16) 0 0 w chr

/-- What is copied to the window: for the texture, its renderer and its pixels. -/
structure Picture (Renderer : Type) where
  renderer : Renderer
  texture : Option (Renderer × Surface)
  dstRect : SdlRect

/-- The renderer and the pixels of an entry's texture. -/
def CharRender.shown (sdl : Sdl Renderer Texture) (mchr : CharRender Texture) :
    Option (Renderer × Surface) :=
  mchr.texture.map fun texture => (sdl.owner texture, sdl.pixels texture)

/-- What a copy shows. -/
def RenderCopy.shown (sdl : Sdl Renderer Texture) (copy : RenderCopy Renderer Texture) :
    Picture Renderer :=
  { renderer := copy.renderer
    texture := copy.texture.map fun texture => (sdl.owner texture, sdl.pixels texture)
    dstRect := copy.dstRect }

/-- Drawing without a cache: the glyph is drawn on a fresh surface with the tables that
are loaded now, for the renderer that is in use now. -/
def uncachedCharacter (st : GlyphState Renderer Texture) (x y : Int) (chr : LookupKey) :
    Option (Picture Renderer) := do
  let font ← st.font
  let w ← glyphWidth font chr.c
  let surface ← drawCharacterSurface font (createRGBSurface w 16) 0 0 w chr
  let mw := if w = 16 then st.nunifont.width * 2 else st.nunifont.width
  let dstRect := { x := x, y := y, w := mw, h := st.nunifont.height }
  return { renderer := st.renderer, texture := some (st.renderer, surface), dstRect := dstRect }

/-- What the cache remembers. -/
def glyphShown (renderer : Renderer) (font : FontTables) (chr : LookupKey) :
    Option (Option (Renderer × Surface)) :=
  (glyphSurface font chr).map fun surface => some (renderer, surface)

/-- The entry that is made for a key. -/
def madeCharacter (sdl : Sdl Renderer Texture) (st : GlyphState Renderer Texture)
    (font : FontTables) (chr : LookupKey) : Option (CharRender Texture) := do
  let w ← glyphWidth font chr.c
  let rendered ← renderCharacter sdl st font w chr
  return rendered.2

/-- What holds of the cache in every run. -/
structure Coherent (sdl : Sdl Renderer Texture) (st : GlyphState Renderer Texture) : Prop where
  keylen : ∀ font, st.font = some font → st.keylen = 28
  keys : ∀ mchr ∈ st.displayCache, mchr.keylen = 28
  sound : ∀ font, st.font = some font →
    Memo.Sound CharRender.lookupKey (CharRender.shown sdl) (glyphShown st.renderer font)
      st.displayCache

theorem nunifontInitcache_coherent : Coherent sdl (nunifontInitcache st) where
  keylen _ _ := rfl
  keys _ member := absurd member List.not_mem_nil
  sound _ _ := Memo.sound_nil

/-- Entries are made with the drawn glyph. -/
theorem madeCharacter_makes (creates : sdl.Creates) :
    Memo.Makes CharRender.lookupKey (CharRender.shown sdl) (glyphShown st.renderer font)
      (madeCharacter sdl st font) := by
  intro chr
  cases width : glyphWidth font chr.c with
  | none => simp [madeCharacter, glyphShown, glyphSurface, width]
  | some w =>
      cases drawn : drawCharacterSurface font (createRGBSurface w 16) 0 0 w chr with
      | none => simp [madeCharacter, renderCharacter, glyphShown, glyphSurface, width, drawn]
      | some surface =>
          obtain ⟨texture, created, owner, pixels⟩ := creates st.calls st.renderer surface
          simp [madeCharacter, renderCharacter, glyphShown, glyphSurface, width, drawn, created,
            CharRender.shown, CharRender.lookupKey, owner, pixels]

/-- **Refinement.** The glyph cache is a memo table. -/
theorem cachedCharacter_fetch (coherent : Coherent sdl st) (loaded : st.font = some font)
    (width : glyphWidth font chr.c = some w) :
    (cachedCharacter sdl st font w chr).map (fun call => (call.1.displayCache, call.2)) =
      Memo.fetch CharRender.lookupKey (madeCharacter sdl st font) st.displayCache chr := by
  rw [cachedCharacter, coherent.keylen font loaded, hashFind_eq coherent.keys, Memo.fetch]
  cases Memo.find CharRender.lookupKey st.displayCache chr with
  | some mchr => rfl
  | none =>
      simp only [madeCharacter, width, renderCharacter, Option.bind_eq_bind, Option.bind_some]
      cases drawCharacterSurface font (createRGBSurface w 16) 0 0 w chr with
      | none => rfl
      | some surface => rfl

/-- A lookup changes nothing but the cache. -/
theorem cachedCharacter_kept {mchr : CharRender Texture}
    (cached : cachedCharacter sdl st font w chr = some (after, mchr)) :
    after.renderer = st.renderer ∧ after.nunifont = st.nunifont ∧ after.font = st.font ∧
      after.keylen = st.keylen := by
  obtain ⟨found, -, cached⟩ := Option.bind_eq_some_iff.mp cached
  cases found with
  | some entry =>
      obtain ⟨rfl, -⟩ := Prod.mk.inj (Option.some.inj cached)
      exact ⟨rfl, rfl, rfl, rfl⟩
  | none =>
      obtain ⟨surface, -, same⟩ := Option.bind_eq_some_iff.mp cached
      obtain ⟨rfl, -⟩ := Prod.mk.inj (Option.some.inj same)
      exact ⟨rfl, rfl, rfl, rfl⟩

/-- The entries after a lookup have keys of the length in force. -/
theorem cachedCharacter_keys {mchr : CharRender Texture}
    (keys : ∀ mchr ∈ st.displayCache, mchr.keylen = st.keylen)
    (cached : cachedCharacter sdl st font w chr = some (after, mchr)) :
    ∀ mchr ∈ after.displayCache, mchr.keylen = st.keylen := by
  obtain ⟨found, -, cached⟩ := Option.bind_eq_some_iff.mp cached
  cases found with
  | some entry =>
      obtain ⟨rfl, -⟩ := Prod.mk.inj (Option.some.inj cached)
      exact keys
  | none =>
      obtain ⟨surface, -, same⟩ := Option.bind_eq_some_iff.mp cached
      obtain ⟨rfl, -⟩ := Prod.mk.inj (Option.some.inj same)
      intro entry member
      rcases List.mem_append.mp member with old | new
      · exact keys entry old
      · rw [List.mem_singleton.mp new]

/-- A lookup keeps the cache coherent. -/
theorem cachedCharacter_coherent (creates : sdl.Creates) (coherent : Coherent sdl st)
    (loaded : st.font = some font) (width : glyphWidth font chr.c = some w)
    {mchr : CharRender Texture}
    (cached : cachedCharacter sdl st font w chr = some (after, mchr)) : Coherent sdl after := by
  have inForce : st.keylen = 28 := coherent.keylen font loaded
  obtain ⟨renderer, -, fonts, keylen⟩ := cachedCharacter_kept cached
  have fetched := cachedCharacter_fetch coherent loaded width
  rw [cached] at fetched
  constructor
  · intro _ _
    exact keylen.trans inForce
  · rw [← inForce]
    apply cachedCharacter_keys _ cached
    rw [inForce]
    exact coherent.keys
  · intro other loadedAfter
    rw [fonts, loaded] at loadedAfter
    cases loadedAfter
    rw [renderer]
    exact (coherent.sound font loaded).fetch_table (madeCharacter_makes creates) fetched.symm

/-- What is drawn with a coherent cache is what is drawn without one. -/
theorem Coherent.drawCharacter_shown (creates : sdl.Creates) (coherent : Coherent sdl st)
    (x y : Int) (chr : LookupKey) :
    (drawCharacter sdl st x y chr).map (fun call => call.2.shown sdl) =
      uncachedCharacter st x y chr := by
  unfold drawCharacter uncachedCharacter
  cases loaded : st.font with
  | none => rfl
  | some font =>
      simp only [Option.bind_eq_bind, Option.bind_some]
      cases width : glyphWidth font chr.c with
      | none => rfl
      | some w =>
          have value : ((Memo.fetch CharRender.lookupKey (madeCharacter sdl st font)
              st.displayCache chr).map fun fetched => fetched.2.shown sdl) =
                glyphShown st.renderer font chr :=
            (coherent.sound font loaded).fetch_value (madeCharacter_makes creates)
          rw [← cachedCharacter_fetch coherent loaded width, Option.map_map, glyphShown,
            glyphSurface, width] at value
          simp only [Option.bind_eq_bind, Option.bind_some] at value ⊢
          cases cached : cachedCharacter sdl st font w chr with
          | none =>
              rw [cached] at value
              rw [Option.map_eq_none_iff.mp value.symm]
              rfl
          | some call =>
              obtain ⟨renderer, nunifont, -, -⟩ := cachedCharacter_kept cached
              rw [cached] at value
              obtain ⟨surface, drawn, shown⟩ := Option.map_eq_some_iff.mp value.symm
              rw [drawn]
              simp only [Option.bind_some, Option.pure_def, Option.map_some, RenderCopy.shown,
                renderer, nunifont, shown]
              rfl

theorem glyphStep_coherent (creates : sdl.Creates) (coherent : Coherent sdl st)
    (event : GlyphEvent Renderer) (step : glyphStep sdl st event = some after) :
    Coherent sdl after := by
  cases event with
  | load font =>
      cases step
      exact nunifontInitcache_coherent
  | renderer renderer =>
      cases step
      exact nunifontInitcache_coherent
  | size size =>
      cases step
      exact ⟨coherent.keylen, coherent.keys, coherent.sound⟩
  | draw x y chr =>
      obtain ⟨⟨st', copy⟩, drawn, rfl⟩ := Option.map_eq_some_iff.mp step
      obtain ⟨font, loaded, drawn⟩ := Option.bind_eq_some_iff.mp drawn
      obtain ⟨w, width, drawn⟩ := Option.bind_eq_some_iff.mp drawn
      obtain ⟨⟨cache, mchr⟩, cached, drawn⟩ := Option.bind_eq_some_iff.mp drawn
      obtain ⟨rfl, -⟩ := Prod.mk.inj (Option.some.inj drawn)
      exact cachedCharacter_coherent creates coherent loaded width cached

theorem glyphRun_coherent (creates : sdl.Creates) (coherent : Coherent sdl st)
    {events : List (GlyphEvent Renderer)} (run : glyphRun sdl st events = some after) :
    Coherent sdl after := by
  induction events generalizing st with
  | nil =>
      cases run
      exact coherent
  | cons event events ih =>
      obtain ⟨middle, step, run⟩ := Option.bind_eq_some_iff.mp run
      exact ih (glyphStep_coherent creates coherent event step) run

theorem glyphStart_coherent (renderer : Renderer) :
    Coherent sdl (glyphStart renderer : GlyphState Renderer Texture) where
  keylen _ loaded := by cases loaded
  keys _ member := absurd member List.not_mem_nil
  sound _ _ := Memo.sound_nil

/-- **Coherence of the glyph cache.** Whatever was loaded, replaced and drawn before, a
character is shown as if it were drawn now: with a texture of the current renderer that
has the pixels of the glyph on a fresh surface. -/
theorem drawCharacter_coherent (creates : sdl.Creates) {renderer : Renderer}
    {events : List (GlyphEvent Renderer)} (run : glyphRun sdl (glyphStart renderer) events = some st)
    (x y : Int) (chr : LookupKey) :
    (drawCharacter sdl st x y chr).map (fun call => call.2.shown sdl) =
      uncachedCharacter st x y chr :=
  (glyphRun_coherent creates (glyphStart_coherent renderer) run).drawCharacter_shown creates x y chr

theorem Coherent.drawCharacter_isSome (creates : sdl.Creates) (coherent : Coherent sdl st)
    (loaded : st.font = some font) (full : font.Full) (x y : Int) (small : chr.c.toNat < 65536) :
    (drawCharacter sdl st x y chr).isSome := by
  have shown := coherent.drawCharacter_shown creates x y chr
  obtain ⟨narrow, width⟩ := Option.isSome_iff_exists.mp (getWidthmap_isSome full chr.c.toUInt16)
  have drawn : (uncachedCharacter st x y chr).isSome := by
    rw [uncachedCharacter, loaded]
    simp only [glyphWidth, width, Option.bind_eq_bind, Option.bind_some, Option.pure_def]
    obtain ⟨surface, drawn⟩ := Option.isSome_iff_exists.mp (drawCharacterSurface_isSome full small
      (createRGBSurface (if narrow = true then 8 else 16) 16) 0 0 (if narrow = true then 8 else 16)
      (by cases narrow <;> decide))
    rw [drawn]
    rfl
  rw [← shown, Option.isSome_map] at drawn
  exact drawn

/-- Full tables are loaded, and characters of 16 bits drawn. -/
def GlyphEvent.WithinTables : GlyphEvent Renderer → Prop
  | .load font => font.Full
  | .draw _ _ chr => chr.c.toNat < 65536
  | .renderer _ => True
  | .size _ => True

theorem drawCharacter_font {x y : Int} {copy : RenderCopy Renderer Texture}
    (drawn : drawCharacter sdl st x y chr = some (after, copy)) : after.font = st.font := by
  obtain ⟨font, loaded, drawn⟩ := Option.bind_eq_some_iff.mp drawn
  obtain ⟨w, width, drawn⟩ := Option.bind_eq_some_iff.mp drawn
  obtain ⟨⟨cache, mchr⟩, cached, drawn⟩ := Option.bind_eq_some_iff.mp drawn
  obtain ⟨rfl, -⟩ := Prod.mk.inj (Option.some.inj drawn)
  exact (cachedCharacter_kept cached).2.2.1

/-- Once full tables are loaded, every event leads on to a state with full tables. -/
theorem glyphStep_within (creates : sdl.Creates) (coherent : Coherent sdl st)
    (loaded : ∃ font, st.font = some font ∧ font.Full) (event : GlyphEvent Renderer)
    (within : event.WithinTables) :
    ∃ after, glyphStep sdl st event = some after ∧ ∃ font, after.font = some font ∧ font.Full := by
  cases event with
  | load font => exact ⟨_, rfl, font, rfl, within⟩
  | renderer renderer => exact ⟨_, rfl, loaded⟩
  | size size => exact ⟨_, rfl, loaded⟩
  | draw x y chr =>
      obtain ⟨font, has, full⟩ := loaded
      obtain ⟨⟨after, copy⟩, drawn⟩ := Option.isSome_iff_exists.mp
        (coherent.drawCharacter_isSome creates has full x y within)
      refine ⟨after, ?_, font, (drawCharacter_font drawn).trans has, full⟩
      rw [glyphStep, drawn]
      rfl

/-- **No draw is undefined.** After full tables are loaded, any run within them goes on to
its end. -/
theorem glyphRun_isSome (creates : sdl.Creates) (renderer : Renderer) (full : font.Full)
    (events : List (GlyphEvent Renderer)) (within : ∀ event ∈ events, event.WithinTables) :
    (glyphRun sdl (glyphStart renderer) (.load font :: events)).isSome := by
  have goesOn : ∀ (st : GlyphState Renderer Texture), Coherent sdl st →
      (∃ font, st.font = some font ∧ font.Full) → (glyphRun sdl st events).isSome := by
    induction events with
    | nil => exact fun _ _ _ => rfl
    | cons event events ih =>
        intro st coherent loaded
        obtain ⟨first, others⟩ := List.forall_mem_cons.mp within
        obtain ⟨after, step, kept⟩ := glyphStep_within creates coherent loaded event first
        rw [glyphRun, List.foldlM_cons, step]
        exact ih others after (glyphStep_coherent creates coherent event step) kept
  exact goesOn _ nunifontInitcache_coherent ⟨font, rfl, full⟩

end Draw

/-- Textures that are a renderer and a surface. -/
def plainSdl : Sdl Nat (Nat × Surface) where
  createTextureFromSurface _ renderer surface := some (renderer, surface)
  owner := Prod.fst
  pixels := Prod.snd

theorem plainSdl_creates : plainSdl.Creates :=
  fun _ renderer surface => ⟨(renderer, surface), rfl, rfl, rfl⟩

/-- A font of one narrow character, a striped box. -/
def stripes : FontTables :=
  { fontmap := (List.replicate 16 [0x55, 0]).flatten, widthmap := [1] }

/-- The character, struck through. -/
def struckBox : LookupKey :=
  { c := 0, bg := 0, fg := 255, bold := 0, underline := 0, italic := 0, strike := 1 }

/-- A character is drawn, the renderer replaced, and the character drawn twice. -/
theorem drawCharacter_coherent_resize : ∃ st,
    glyphRun plainSdl (glyphStart 0)
      [.load stripes, .size 16, .draw 0 0 struckBox, .renderer 1, .draw 0 0 struckBox] = some st ∧
    (drawCharacter plainSdl st 8 0 struckBox).isSome ∧
    (drawCharacter plainSdl st 8 0 struckBox).map (fun call => call.2.shown plainSdl) =
      uncachedCharacter st 8 0 struckBox := by
  have defined : ((glyphRun plainSdl (glyphStart 0)
      [.load stripes, .size 16, .draw 0 0 struckBox, .renderer 1, .draw 0 0 struckBox]).bind
        fun st => drawCharacter plainSdl st 8 0 struckBox).isSome := by decide +kernel
  cases run : glyphRun plainSdl (glyphStart 0)
      [.load stripes, .size 16, .draw 0 0 struckBox, .renderer 1, .draw 0 0 struckBox] with
  | none =>
      rw [run] at defined
      cases defined
  | some st =>
      rw [run] at defined
      exact ⟨st, rfl, defined, drawCharacter_coherent plainSdl_creates run 8 0 struckBox⟩

end Hackterm
