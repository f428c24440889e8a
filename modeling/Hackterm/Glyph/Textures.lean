import Hackterm.Glyph.Coherence
import Hackterm.Streaming.Run

/-! # Who owns the glyph textures

`draw_character` creates a texture for every entry it adds to the cache, and keeps it
there. `nunifont_initcache` passes the entries themselves to `SDL_DestroyTexture`, which
are no textures, and forgets them. So the textures in the world are those in the cache
exactly as long as the cache is empty whenever it is initialised
(`Hackterm.texturesOwned_iff`), and otherwise all textures of the cache are lost
(`Hackterm.nunifontInitcache_loses`).
-/

namespace Hackterm

/-- The calls that deal with textures. -/
inductive TextureEvent where
  | draw (x y : Int) (chr : LookupKey)
  | initcache

section Textures

variable {Renderer Texture : Type} {sdl : Sdl Renderer Texture}
  {st after : GlyphState Renderer Texture}

/-- The globals after a call. -/
def textureStep (sdl : Sdl Renderer Texture) (st : GlyphState Renderer Texture) :
    TextureEvent → Option (GlyphState Renderer Texture)
  | .draw x y chr => (drawCharacter sdl st x y chr).map Prod.fst
  | .initcache => some (nunifontInitcache st)

/-- The globals before the first of the calls: whatever font, size and renderer there are,
the cache is empty. -/
def textureStart (font : Option FontTables) (nunifont : Nunifont) (renderer : Renderer) :
    GlyphState Renderer Texture :=
  { glyphStart renderer with font, nunifont }

/-- The textures that were created and not passed to `SDL_DestroyTexture`. What
`nunifont_initcache` passes are entries, so no texture ever was. -/
def outstandingTextures (st : GlyphState Renderer Texture) : Set Texture :=
  {texture | .create (some texture) ∈ st.calls}

/-- The texture that a call made. -/
def TextureCall.created : TextureCall Texture → Option Texture
  | .create texture => texture
  | .destroy _ => none

theorem mem_outstandingTextures {texture : Texture} :
    texture ∈ outstandingTextures st ↔ texture ∈ st.calls.filterMap TextureCall.created := by
  rw [List.mem_filterMap]
  constructor
  · exact fun made => ⟨_, made, rfl⟩
  · rintro ⟨call, made, same⟩
    cases call with
    | create other =>
        obtain rfl : other = some texture := same
        exact made
    | destroy mchr => cases same

/-- The textures reachable from `display_cache`. -/
def cachedTextures (st : GlyphState Renderer Texture) : Set Texture :=
  {texture | ∃ mchr ∈ st.displayCache, mchr.texture = some texture}

/-- The cache owns all textures there are, and `SDL_DestroyTexture` was never called on
anything but a texture. -/
structure TexturesOwned (st : GlyphState Renderer Texture) : Prop where
  outstanding : outstandingTextures st = cachedTextures st
  destroyed : ∀ mchr, .destroy mchr ∉ st.calls

/-- The cache is empty when it is initialised. -/
def InitsEmpty (st : GlyphState Renderer Texture) : TextureEvent → Prop
  | .draw _ _ _ => True
  | .initcache => st.displayCache = []

/-- A draw adds an entry with the texture it creates, or finds its entry. -/
theorem drawCharacter_textures {x y : Int} {chr : LookupKey} {copy : RenderCopy Renderer Texture}
    (drawn : drawCharacter sdl st x y chr = some (after, copy)) :
    after = st ∨ ∃ mchr : CharRender Texture, after =
      { st with
        calls := st.calls ++ [.create mchr.texture]
        displayCache := st.displayCache ++ [mchr] } := by
  obtain ⟨font, -, drawn⟩ := Option.bind_eq_some_iff.mp drawn
  obtain ⟨w, -, drawn⟩ := Option.bind_eq_some_iff.mp drawn
  obtain ⟨⟨cache, mchr⟩, cached, drawn⟩ := Option.bind_eq_some_iff.mp drawn
  obtain ⟨rfl, -⟩ := Prod.mk.inj (Option.some.inj drawn)
  obtain ⟨found, -, cached⟩ := Option.bind_eq_some_iff.mp cached
  cases found with
  | some entry =>
      obtain ⟨rfl, -⟩ := Prod.mk.inj (Option.some.inj cached)
      exact Or.inl rfl
  | none =>
      obtain ⟨surface, -, same⟩ := Option.bind_eq_some_iff.mp cached
      obtain ⟨rfl, rfl⟩ := Prod.mk.inj (Option.some.inj same)
      exact Or.inr ⟨_, rfl⟩

/-- A new entry brings its texture with it. -/
theorem TexturesOwned.add (owned : TexturesOwned st) (mchr : CharRender Texture) :
    TexturesOwned { st with
      calls := st.calls ++ [.create mchr.texture]
      displayCache := st.displayCache ++ [mchr] } where
  outstanding := by
    ext texture
    have before : .create (some texture) ∈ st.calls ↔
        ∃ entry ∈ st.displayCache, entry.texture = some texture :=
      Set.ext_iff.mp owned.outstanding texture
    simp only [outstandingTextures, cachedTextures, Set.mem_ofPred_eq, List.mem_append,
      List.mem_singleton, TextureCall.create.injEq, or_and_right, exists_or, exists_eq_left, before,
      eq_comm (a := some texture)]
  destroyed entry member := by
    rcases List.mem_append.mp member with old | new
    · exact owned.destroyed entry old
    · cases List.mem_singleton.mp new

/-- Initialising the cache destroys no texture, and reaches none any more. -/
theorem nunifontInitcache_loses (st : GlyphState Renderer Texture) :
    outstandingTextures (nunifontInitcache st) = outstandingTextures st ∧
      cachedTextures (nunifontInitcache st) = ∅ := by
  constructor
  · ext texture
    simp [outstandingTextures, nunifontInitcache]
  · ext texture
    simp [cachedTextures, nunifontInitcache]

/-- Initialising the cache passes no entry to `SDL_DestroyTexture` only if there is none. -/
theorem nunifontInitcache_owned_iff (owned : TexturesOwned st) :
    TexturesOwned (nunifontInitcache st) ↔ st.displayCache = [] := by
  constructor
  · intro after
    rw [List.eq_nil_iff_forall_not_mem]
    intro mchr member
    exact after.destroyed mchr (List.mem_append_right _ (List.mem_map_of_mem member))
  · intro empty
    have calls : (nunifontInitcache st).calls = st.calls := by
      rw [nunifontInitcache, empty]
      exact List.append_nil _
    refine ⟨?_, ?_⟩
    · obtain ⟨same, none_⟩ := nunifontInitcache_loses st
      rw [same, none_, owned.outstanding, cachedTextures, empty]
      simp
    · rw [calls]
      exact owned.destroyed

/-- **The cache owns its textures.** In any run of draws and initialisations, the textures
created and not destroyed are those reachable from the cache, and nothing but textures is
passed to `SDL_DestroyTexture`, exactly as long as every initialisation finds the cache
empty. -/
theorem texturesOwned_iff (sdl : Sdl Renderer Texture) (font : Option FontTables)
    (nunifont : Nunifont) (renderer : Renderer) (events : List TextureEvent) :
    Streaming.Throughout (textureStep sdl) (textureStart font nunifont renderer) events
        TexturesOwned ↔
      Streaming.EveryStep (textureStep sdl) (textureStart font nunifont renderer) events
        InitsEmpty := by
  apply Streaming.throughout_iff_everyStep TexturesOwned
  case sound => exact fun _ owned => owned
  case advances =>
    intro before event next owned stepped empty
    cases event with
    | draw x y chr =>
        obtain ⟨⟨after, copy⟩, drawn, rfl⟩ := Option.map_eq_some_iff.mp stepped
        rcases drawCharacter_textures drawn with rfl | ⟨mchr, rfl⟩
        · exact owned
        · exact owned.add mchr
    | initcache =>
        cases stepped
        exact (nunifontInitcache_owned_iff owned).mpr empty
  case exposes =>
    intro before event next owned stepped kept
    cases event with
    | draw x y chr => trivial
    | initcache =>
        cases stepped
        exact (nunifontInitcache_owned_iff owned).mp kept
  case begins =>
    refine ⟨?_, fun mchr member => absurd member List.not_mem_nil⟩
    ext texture
    simp [outstandingTextures, cachedTextures, textureStart, glyphStart]

end Textures

/-- A character is drawn and the cache initialised: the texture is there still, the cache
no longer reaches it, and `SDL_DestroyTexture` was given its entry. -/
theorem texturesOwned_counterexample :
    let start := textureStart (some stripes) { width := 8, height := 16, space := 0 } 0
    let events : List TextureEvent := [.initcache, .draw 0 0 struckBox, .initcache]
    (∃ last texture, events.foldlM (textureStep plainSdl) start = some last ∧
        texture ∈ outstandingTextures last ∧ texture ∉ cachedTextures last) ∧
      ¬ Streaming.Throughout (textureStep plainSdl) start events TexturesOwned := by
  intro start events
  have computed : ((events.foldlM (textureStep plainSdl) start).map fun last =>
      last.displayCache.isEmpty && (last.calls.filterMap TextureCall.created).head?.isSome) =
        some true := by decide +kernel
  obtain ⟨last, reached, shape⟩ := Option.map_eq_some_iff.mp computed
  obtain ⟨empty, made⟩ := Bool.and_eq_true_iff.mp shape
  obtain ⟨texture, first⟩ := Option.isSome_iff_exists.mp made
  have outstanding : texture ∈ outstandingTextures last :=
    mem_outstandingTextures.mpr (List.mem_of_head? first)
  have forgotten : texture ∉ cachedTextures last := by
    rintro ⟨mchr, cached, -⟩
    rw [List.isEmpty_iff.mp empty] at cached
    exact List.not_mem_nil cached
  refine ⟨⟨last, texture, reached, outstanding, forgotten⟩, fun throughout => ?_⟩
  have owned := throughout events last (List.prefix_refl events) reached
  exact forgotten (owned.outstanding ▸ outstanding)

end Hackterm
