import Hackterm.Inline.Fragmentation

/-! # Images one after the other

Transfers follow each other, each starting at a chunk boundary, and the reader ends
every image at its last byte. All of them are delivered if and only if each one's
opening share fits the array of its call, and each one but the last has a chunk
after its opening one (`Hackterm.successive_transfers`). An image that ends in the
very call that found its magic word leaves `processing_png` set, and the next chunk
is dropped unseen.
-/

namespace Hackterm

open Streaming

/-- An image and the chunks that bring it, with the magic word in front and no other
text. -/
structure Transfer where
  image : List UInt8
  chunks : List (List UInt8)
  present : image ≠ []
  sizes : ∀ chunk ∈ chunks, 1 ≤ chunk.length ∧ chunk.length ≤ consolePollSize
  stream : chunks.flatten = inlineMagic ++ Rfc4648.encode image

namespace Transfer

/-- The share of the image in the opening chunk fits the array of that call. -/
def Fits (transfer : Transfer) : Prop :=
  OpeningFits transfer.image inlineMagic.length transfer.chunks

/-- There is a chunk after the opening one. -/
def Continues (transfer : Transfer) : Prop :=
  afterOpening inlineMagic.length transfer.chunks ≠ []

end Transfer

/-- After each transfer of the list, the run is defined and every image so far was
given, whole and alone, to a reader of its own. -/
def AllDelivered (png : Libpng) (st : InlineData) (transfers : List Transfer) : Prop :=
  ∀ count ≤ transfers.length, ∃ last codes,
    feed (inlineDataReceive png) st ((transfers.take count).flatMap Transfer.chunks) =
        some (last, codes) ∧
      last.readers = st.readers ++ (transfers.take count).map Transfer.image

/-- Every transfer fits, and every one but the last continues. -/
def AllFit (transfers : List Transfer) : Prop :=
  (∀ transfer ∈ transfers, transfer.Fits) ∧ ∀ transfer ∈ transfers.dropLast, transfer.Continues

theorem allFit_cons (transfer : Transfer) (transfers : List Transfer) :
    AllFit (transfer :: transfers) ↔
      transfer.Fits ∧ (transfers ≠ [] → transfer.Continues) ∧ AllFit transfers := by
  cases transfers with
  | nil => simp [AllFit]
  | cons next transfers =>
      simp only [AllFit, List.forall_mem_cons, List.dropLast_cons_cons, ne_eq, reduceCtorEq,
        not_false_eq_true, true_implies]
      tauto

section Successive

variable (png : Libpng)

/-- The first transfer is delivered, and then the others from the state it leaves. -/
theorem allDelivered_cons (st : InlineData) (transfer : Transfer) (transfers : List Transfer) :
    AllDelivered png st (transfer :: transfers) ↔
      ∃ next codes, feed (inlineDataReceive png) st transfer.chunks = some (next, codes) ∧
        next.readers = st.readers ++ [transfer.image] ∧ AllDelivered png next transfers := by
  constructor
  · intro all
    obtain ⟨next, codes, fed, readers⟩ := all 1 (by simp)
    simp only [List.take_succ_cons, List.take_zero, List.flatMap_cons, List.flatMap_nil,
      List.append_nil, List.map_cons, List.map_nil] at fed readers
    refine ⟨next, codes, fed, readers, fun count inside => ?_⟩
    obtain ⟨last, others, run, given⟩ := all (count + 1) (by simpa using inside)
    rw [List.take_succ_cons, List.flatMap_cons, feed_append, fed, Option.bind_some] at run
    obtain ⟨⟨final, rest⟩, later, same⟩ := Option.map_eq_some_iff.mp run
    obtain ⟨rfl, -⟩ := Prod.mk.inj same
    exact ⟨final, rest, later, by rw [given, readers, List.take_succ_cons]; simp⟩
  · rintro ⟨next, codes, fed, readers, all⟩ count inside
    cases count with
    | zero => exact ⟨st, [], rfl, (List.append_nil _).symm⟩
    | succ count =>
        obtain ⟨last, others, later, given⟩ := all count (by simpa using inside)
        refine ⟨last, codes ++ others, ?_, ?_⟩
        · rw [List.take_succ_cons, List.flatMap_cons, feed_append, fed, Option.bind_some, later]
          rfl
        · rw [given, readers, List.take_succ_cons]
          simp

/-- Once a transfer is delivered, the others are decided from the state it leaves. -/
theorem allDelivered_cons_fed {st last : InlineData} {transfer : Transfer}
    {transfers : List Transfer} {codes : List Nat}
    (fed : feed (inlineDataReceive png) st transfer.chunks = some (last, codes))
    (readers : last.readers = st.readers ++ [transfer.image]) :
    AllDelivered png st (transfer :: transfers) ↔ AllDelivered png last transfers := by
  rw [allDelivered_cons]
  constructor
  · rintro ⟨next, _, same, _, all⟩
    rw [fed] at same
    obtain ⟨rfl, -⟩ := Prod.mk.inj (Option.some.inj same)
    exact all
  · exact fun all => ⟨last, codes, fed, readers, all⟩

/-- A transfer that leaves the readers short of its image is not delivered. -/
theorem not_allDelivered_of_short {st : InlineData} {transfer : Transfer}
    (short : ∀ last codes, feed (inlineDataReceive png) st transfer.chunks = some (last, codes) →
      last.readers.flatten.length < st.readers.flatten.length + transfer.image.length)
    (transfers : List Transfer) : ¬ AllDelivered png st (transfer :: transfers) := by
  rw [allDelivered_cons]
  rintro ⟨next, codes, fed, readers, -⟩
  have less := short next codes fed
  rw [readers, List.flatten_append, List.length_append, List.flatten_singleton] at less
  exact Nat.lt_irrefl _ less

/-- After a transfer whose opening chunk was its last, the next one loses its first
chunk, and with it a part of the magic word. -/
theorem stuck_lost (st : InlineData) (stuck : st.processingPng = true) (ended : st.fileEnd = true)
    (drained : st.buffer = Window.empty) (transfer : Transfer) (last : InlineData)
    (codes : List Nat)
    (fed : feed (inlineDataReceive png) st transfer.chunks = some (last, codes)) :
    last.readers.flatten.length < st.readers.flatten.length + transfer.image.length := by
  have stream := transfer.stream
  cases cut : transfer.chunks with
  | nil =>
      rw [cut] at stream
      exact absurd stream.symm (by simp [inlineMagic, CString.ascii])
  | cons chunk chunks =>
      have some : chunk ≠ [] := by
        rw [← List.length_pos_iff]
        exact (transfer.sizes chunk (by rw [cut]; exact List.mem_cons_self)).1
      have dropped : inlineDataReceive png st chunk = Option.some (st.setProcessingPng false, 1) := by
        rw [inlineDataReceive_image png st chunk stuck]
        exact if_pos ended
      rw [cut, feed_cons, dropped, Option.bind_some] at fed
      obtain ⟨⟨final, others⟩, later, same⟩ := Option.map_eq_some_iff.mp fed
      obtain ⟨reached, -⟩ := Prod.mk.inj same
      dsimp only at reached later
      subst reached
      have started : (st.setProcessingPng false).Metered st.handedData.length 0 := by
        refine ⟨fun _ => Or.inl ⟨rfl, ?_⟩, nofun, nofun, nofun⟩
        change 6 * letters st.buffer.contents ≤ 0
        rw [drained]
        exact le_rfl
      obtain ⟨paid, volume⟩ := feed_metered png chunks _ final 0 others started later
      rw [cut, List.flatten_cons] at stream
      have fewer := letters_behind_cut chunks.flatten _ ⟨chunk, some, stream⟩
      have less := underpaid transfer.image transfer.present _ _ _ (by omega) paid
      change final.readers.flatten.length + st.handedData.length ≤
        st.readers.flatten.length + final.handedData.length at volume
      omega

variable (created : ∀ count, png.createReadStruct count = true)

include created in
/-- From a state that waits for text, all transfers are delivered if they fit; from a
state stuck after an image, only if there are none. -/
theorem allDelivered_iff (transfers : List Transfer)
    (completes : ∀ transfer ∈ transfers, png.Accepts transfer.image ∧ png.Ends transfer.image)
    (st : InlineData) :
    (st.processingPng = false → st.buffer.contents.length ≤ 2 →
        (AllDelivered png st transfers ↔ AllFit transfers)) ∧
      (st.processingPng = true → st.fileEnd = true → st.buffer = Window.empty →
        (AllDelivered png st transfers ↔ transfers = [])) := by
  induction transfers generalizing st with
  | nil =>
      have none : AllDelivered png st [] := fun count _ => ⟨st, [], by simp, by simp⟩
      exact ⟨fun _ _ => by simp [none, AllFit], fun _ _ _ => by simp [none]⟩
  | cons transfer transfers ih =>
      obtain ⟨⟨accepted, ends⟩, others⟩ := List.forall_mem_cons.mp completes
      constructor
      · intro idle short
        have plain : ¬ Occurs inlineMagic (st.buffer.contents ++ []) :=
          not_occurs_of_length_lt (by
            rw [List.append_nil, length_inlineMagic]
            omega)
        rw [allFit_cons]
        by_cases fits : transfer.Fits
        · obtain ⟨last, codes, fed, _, readers, ended⟩ := transfer_delivered png st idle [] plain
            transfer.present transfer.chunks transfer.stream accepted created
            (fun chunk member => (transfer.sizes chunk member).2) fits
          obtain ⟨delivered, mode⟩ := ended ends
          obtain ⟨waiting, stuck⟩ := ih others last
          rw [allDelivered_cons_fed png fed readers]
          by_cases continues : transfer.Continues
          · have off : last.processingPng = false := by
              rw [← Bool.not_eq_true, mode]
              exact continues
            rw [waiting off (by simpa using delivered.buffered)]
            simp [fits, continues]
          · have on : last.processingPng = true := by
              rw [mode]
              exact not_not.mp continues
            rw [stuck on (delivered.ended on) (delivered.drained on)]
            constructor
            · rintro rfl
              exact ⟨fits, fun more => absurd rfl more, by simp [AllFit]⟩
            · rintro ⟨-, more, -⟩
              by_contra present
              exact continues (more present)
        · refine iff_of_false (not_allDelivered_of_short png (fun next codes fed => ?_) transfers)
            fun all => fits all.1
          exact (transfer_lost png st idle [] plain transfer.present transfer.chunks
            transfer.stream fits next codes fed).2
      · intro stuck ended drained
        have short := stuck_lost png st stuck ended drained transfer
        exact iff_of_false (not_allDelivered_of_short png short transfers) (List.cons_ne_nil _ _)

include created in
/-- **Successive transfers.** When the reader ends each image at its last byte, all
transfers are delivered if and only if every opening share fits its array and every
transfer but the last has a chunk after its opening one. -/
theorem successive_transfers (st : InlineData) (idle : st.Idle) (transfers : List Transfer)
    (completes : ∀ transfer ∈ transfers, png.Accepts transfer.image ∧ png.Ends transfer.image) :
    AllDelivered png st transfers ↔ AllFit transfers :=
  (allDelivered_iff png created transfers completes st).1 idle.waiting (by
    rw [idle.drained]
    exact Nat.zero_le _)

end Successive

/-- An image that comes in one chunk with its magic word. -/
def pixelTransfer : Transfer where
  image := pixelPng []
  chunks := [inlineMagic ++ Rfc4648.encode (pixelPng [])]
  present := by decide
  sizes := by decide +kernel
  stream := List.flatten_singleton

/-- The same image in two chunks. -/
def pixelTransferCut : Transfer where
  image := pixelPng []
  chunks := [inlineMagic ++ (Rfc4648.encode (pixelPng [])).take 7,
    (Rfc4648.encode (pixelPng [])).drop 7]
  present := by decide
  sizes := by decide +kernel
  stream := by
    rw [List.flatten_cons, List.flatten_singleton, List.append_assoc, List.take_append_drop]

theorem libpngOn_ends (header : Nat) (image : List UInt8) (present : image ≠ []) :
    (libpngOn header image.length).Ends image := by
  refine ⟨image.dropLast, image.getLast present, (List.dropLast_append_getLast present).symm, ?_⟩
  have positive := List.length_pos_iff.mpr present
  simp only [libpngOn, List.length_dropLast]
  rw [if_pos (by omega)]

/-- The same image twice, the first time in two chunks. -/
theorem successive_transfers_pixel :
    AllDelivered (libpngOn 41 (pixelPng []).length) inlineStatic
        [pixelTransferCut, pixelTransfer] ↔ AllFit [pixelTransferCut, pixelTransfer] :=
  successive_transfers (libpngOn 41 (pixelPng []).length) (fun _ => rfl) inlineStatic
    inlineStatic_idle _ (by
      rintro transfer member
      have same : transfer.image = pixelPng [] := by
        rcases List.mem_pair.mp member with rfl | rfl <;> rfl
      rw [same]
      exact ⟨libpngOn_accepts 41 _, libpngOn_ends 41 _ (by decide)⟩)

/-- The same image twice, each time in one chunk: the second one is dropped. -/
theorem successive_transfers_dropped :
    let png := libpngOn 41 (pixelPng []).length
    let transfers := [pixelTransfer, pixelTransfer]
    (∀ count, png.createReadStruct count = true) ∧ inlineStatic.Idle ∧
      (∀ transfer ∈ transfers, png.Accepts transfer.image ∧ png.Ends transfer.image) ∧
      ¬ AllDelivered png inlineStatic transfers := by
  intro png transfers
  have completes : ∀ transfer ∈ transfers, png.Accepts transfer.image ∧ png.Ends transfer.image := by
    intro transfer member
    obtain rfl : transfer = pixelTransfer := by simpa [transfers] using member
    exact ⟨libpngOn_accepts 41 _, libpngOn_ends 41 _ (by decide)⟩
  refine ⟨fun _ => rfl, inlineStatic_idle, completes, ?_⟩
  rw [(allDelivered_iff png (fun _ => rfl) transfers completes inlineStatic).1 rfl (by decide)]
  rintro ⟨_, continues⟩
  have whole : afterOpening inlineMagic.length pixelTransfer.chunks = [] := by decide +kernel
  exact continues pixelTransfer (by simp [transfers]) whole

end Hackterm
