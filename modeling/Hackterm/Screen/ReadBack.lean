import Hackterm.Screen.Typing

/-! # Documents are read back

The glyphs that can be drawn of a terminal, those of the scrollback and then those of the
screen, are the code points of the document that was typed (`Hackterm.document_read_back`):
none is lost, doubled or out of its place, until the scrollback is full.
-/

namespace Hackterm

open Planes Layout

/-- The glyph that is shown, if one is. -/
def Shown.glyphs : Shown → List (List UInt32)
  | .glyph chars => [chars]
  | .blank | .gap => []

/-- The glyphs of a line that is drawn, from left to right. -/
def lineGlyphs (line : Line) : List (List UInt32) :=
  line.flatMap fun cell => (shownChars cell.chars).glyphs

/-- The glyphs of the looks of a line. -/
def looksGlyphs (looks : List (Look × Nat)) : List (List UInt32) :=
  looks.flatMap fun look => look.1.shown.glyphs

/-- The glyphs of text. -/
def textGlyphs (text : List Nat) : List (List UInt32) := text.map fun code => [UInt32.ofNat code]

theorem looksGlyphs_lineLook (line : Line) : looksGlyphs (lineLook line) = lineGlyphs line :=
  List.flatMap_map _ _ _

/-- The glyphs of a row are read from its plane. -/
theorem looksGlyphs_rowSeen (cols : Nat) (reverse : Bool) (plane : Plane Look) (row : Int) :
    looksGlyphs (rowSeen cols reverse plane row) =
      (List.range cols).flatMap fun col : Nat =>
        (plane row col).elim [] fun look => look.shown.glyphs := by
  unfold looksGlyphs rowSeen
  rw [List.filterMap_eq_flatMap_toList, List.flatMap_assoc]
  refine List.flatMap_congr fun col _ => ?_
  cases plane row col with
  | none => rfl
  | some look => exact List.append_nil _

section Rows

variable (pen : ScreenPen)

/-- Gaps show no glyphs. -/
theorem flatMap_glyphs_gaps (count : Nat) :
    (List.replicate count (⟨.gap, pen⟩ : Look)).flatMap (fun look => look.shown.glyphs) = [] := by
  rw [List.flatMap_eq_nil_iff]
  intro look member
  rw [List.eq_of_mem_replicate member]
  rfl

/-- The glyphs of a row of text are the text, also where the last one is cut off at the right
margin. -/
theorem flatMap_glyphs_rowLooks {cols : Nat} {row : List Nat}
    (begins : Begins codeColumns cols row) :
    ((rowLooks pen row).take cols).flatMap (fun look => look.shown.glyphs) = textGlyphs row := by
  have whole : ∀ row, (rowLooks pen row).flatMap (fun look => look.shown.glyphs) =
      textGlyphs row := by
    intro row
    unfold rowLooks textGlyphs
    rw [List.flatMap_assoc, List.map_eq_flatMap]
    refine List.flatMap_congr fun code _ => ?_
    rw [codeLooks, List.flatMap_cons, flatMap_glyphs_gaps]
    rfl
  rcases List.eq_nil_or_concat row with rfl | ⟨front, last, rfl⟩
  · rw [rowLooks, List.flatMap_nil, List.take_nil]
    rfl
  · rw [List.concat_eq_append] at begins ⊢
    have room := begins front last rfl
    have split : rowLooks pen (front ++ [last]) = rowLooks pen front ++ codeLooks pen last := by
      unfold rowLooks
      rw [List.flatMap_append, List.flatMap_singleton]
    obtain ⟨more, left⟩ : ∃ more, cols - filled codeColumns front = more + 1 :=
      Nat.exists_eq_succ_of_ne_zero (by omega)
    rw [split, List.take_append, length_rowLooks, left, List.take_of_length_le
      (by rw [length_rowLooks]; exact room.le), List.flatMap_append, whole, codeLooks,
      List.take_succ_cons, List.flatMap_cons, List.take_replicate, flatMap_glyphs_gaps]
    unfold textGlyphs
    rw [List.map_append]
    rfl

end Rows

/-- The glyphs of rows of text on a screen. -/
theorem glyphs_ofRows (pen : ScreenPen) (reverse : Bool) (height cols : Nat)
    (rows : List (List Nat)) (fits : rows.length ≤ height)
    (begins : ∀ row ∈ rows, Begins codeColumns cols row) :
    ((List.range height).map fun row : Nat => rowSeen cols reverse
        (ofRows height cols (.blank pen) (rows.map (rowLooks pen))) row).flatMap looksGlyphs =
      textGlyphs rows.flatten := by
  have each : ∀ row ∈ rows, ((rowLooks pen row).take cols).flatMap
      (fun look => look.shown.glyphs) = textGlyphs row :=
    fun row member => flatMap_glyphs_rowLooks pen (begins row member)
  have skips : Shown.glyphs (Look.blank pen).shown = [] := rfl
  rw [List.flatMap_map]
  simp only [looksGlyphs_rowSeen]
  rw [readAll_ofRows height cols (Look.blank pen) (fun look => look.shown.glyphs) skips _
    (by rwa [List.length_map]), List.flatMap_map, List.flatMap_congr each]
  unfold textGlyphs
  rw [List.map_flatten, List.flatMap_def]

/-- The glyphs of rows of text that were scrolled off. -/
theorem glyphs_rowReported (pen : ScreenPen) (reverse : Bool) (cols : Nat)
    (rows : List (List Nat)) (begins : ∀ row ∈ rows, Begins codeColumns cols row) :
    (rows.map (rowReported cols pen reverse)).flatMap looksGlyphs = textGlyphs rows.flatten := by
  have each : ∀ row ∈ rows, looksGlyphs (rowReported cols pen reverse row) = textGlyphs row := by
    intro row member
    have one := glyphs_ofRows pen reverse 1 cols [row] (Nat.le_refl 1)
      fun other here => List.mem_singleton.mp here ▸ begins row member
    rw [List.flatten_singleton] at one
    rw [← one]
    exact (List.append_nil _).symm
  rw [List.flatMap_map, List.flatMap_congr each]
  unfold textGlyphs
  rw [List.map_flatten, List.flatMap_def]

/-- The last rows that have left the screen and those on it are the last rows of the page. -/
theorem rtake_take_append_drop (rows count : Nat) (page : Page Nat) :
    (page.rows.take (rowsGone rows page)).rtake count ++ page.rows.drop (rowsGone rows page) =
      page.rows.rtake (count + rows) := by
  have total : page.rows.length = page.done.length + 1 := by
    rw [Page.rows, List.length_append, List.length_singleton]
  have size : (page.rows.take (rowsGone rows page)).length = rowsGone rows page := by
    unfold rowsGone
    rw [List.length_take, total]
    omega
  have same : page.rows.length - (count + rows) = rowsGone rows page - count := by
    unfold rowsGone
    omega
  unfold List.rtake
  rw [size, same, ← List.drop_append_of_le_length (by omega), List.take_append_drop]

/-- The glyphs of what is drawn of a page: those of its last rows. -/
theorem glyphs_pageDisplay {rows cols : Nat} {terminal : Terminal rows cols} {base : Display}
    {page : Page Nat} (isBase : IsBase base)
    (begins : ∀ row ∈ page.rows, Begins codeColumns base.cols row)
    (shows : terminal.Shows (pageDisplay base page)) :
    ∃ drawn, screenRows terminal.screen.current = some drawn ∧
      (bufferLines terminal.scrollback ++ drawn).flatMap lineGlyphs =
        textGlyphs (page.rows.rtake (scrollBufferInitialSize + base.rows)).flatten := by
  obtain ⟨scrollback, drawn, found, screen⟩ := shows
  refine ⟨drawn, found, ?_⟩
  have glyphs : ∀ lines : List Line,
      lines.flatMap lineGlyphs = (lines.map lineLook).flatMap looksGlyphs := by
    intro lines
    rw [List.flatMap_map]
    exact List.flatMap_congr fun line _ => (looksGlyphs_lineLook line).symm
  have gone : (pageDisplay base page).history.rtake scrollBufferInitialSize =
      ((page.rows.take (rowsGone base.rows page)).rtake scrollBufferInitialSize).map
        (rowReported base.cols base.pen base.globalReverse) := rtake_map _ _ _
  have few : (page.rows.drop (rowsGone base.rows page)).length ≤ base.rows := by
    unfold rowsGone
    rw [List.length_drop, Page.rows, List.length_append, List.length_singleton]
    omega
  have above := glyphs_rowReported base.pen base.globalReverse base.cols
    ((page.rows.take (rowsGone base.rows page)).rtake scrollBufferInitialSize) fun row member =>
      begins row (List.mem_of_mem_take (List.mem_of_mem_drop member))
  have below := glyphs_ofRows base.pen base.globalReverse base.rows base.cols _ few
    fun row member => begins row (List.mem_of_mem_drop member)
  have together := rtake_take_append_drop base.rows scrollBufferInitialSize page
  rw [List.flatMap_append, glyphs, glyphs, scrollback, screen, gone, above,
    current_pageDisplay isBase, ← together, List.flatten_append, textGlyphs, textGlyphs,
    List.map_append]
  exact congrArg _ below

/-- **What was typed can be read back.** The glyphs of the scrollback and the screen are those
of the last rows that the document is wrapped into, and all of its text while they fit. -/
theorem document_read_back (rows cols : Nat) (size : UsualSize rows cols) (high : 2 ≤ rows)
    (wide : 3 ≤ cols) (first : List Nat) (more : List (List Nat))
    (plain : ∀ line ∈ first :: more, ∀ code ∈ line, IsPlain code) (chunks : List (List UInt8))
    (cut : chunks.flatten = (documentCodes (first :: more)).flatMap fillUtf8) :
    ∃ terminal last drawn, Terminal.start rows cols = some terminal ∧
      chunks.foldlM readTerminal (vtermStart, terminal) =
        some (vtermStart.readUtf8 chunks.flatten, last) ∧
      screenRows last.screen.current = some drawn ∧
      (bufferLines last.scrollback ++ drawn).flatMap lineGlyphs =
        textGlyphs (((first :: more).flatMap (wrap codeColumns cols)).rtake
          (scrollBufferInitialSize + rows)).flatten ∧
      (((first :: more).flatMap (wrap codeColumns cols)).length ≤ scrollBufferInitialSize + rows →
        (bufferLines last.scrollback ++ drawn).flatMap lineGlyphs =
          textGlyphs (first :: more).flatten) := by
  obtain ⟨terminal, last, started, done, types⟩ := readTerminal_document size high wide plain cut
  obtain ⟨-, display, carries, writes⟩ := types
  have wrapped : (Page.blank.typeLines codeColumns cols first more).rows =
      (first :: more).flatMap (wrap codeColumns cols) :=
    Page.rows_typeLines codeColumns cols Page.blank first more
  have shows := carries.shows
  rw [writes.display] at shows
  obtain ⟨drawn, found, read⟩ := glyphs_pageDisplay (isBase_startDisplay high wide) (by
    rw [wrapped]
    intro row member
    obtain ⟨line, -, here⟩ := List.mem_flatMap.mp member
    have width : 0 < cols := by omega
    exact begins_of_mem_wrapFrom codeColumns cols width (begins_nil codeColumns cols) row here)
    shows
  rw [wrapped] at read
  refine ⟨terminal, last, drawn, started, done, found, read, fun fits => ?_⟩
  rw [read]
  have all : ((first :: more).flatMap (wrap codeColumns cols)).rtake
      (scrollBufferInitialSize + rows) = (first :: more).flatMap (wrap codeColumns cols) := by
    unfold List.rtake
    rw [Nat.sub_eq_zero_of_le fits, List.drop_zero]
  have unwrapped : ((first :: more).flatMap (wrap codeColumns cols)).flatten =
      (first :: more).flatten := by
    rw [List.flatMap_def, List.flatten_flatten, List.map_map]
    exact congrArg List.flatten (List.map_id'' (fun line => flatten_wrapFrom codeColumns cols []
      line) (first :: more))
  exact congrArg textGlyphs ((congrArg List.flatten all).trans unwrapped)

/-- An A and an é, which is cut, and on the next line a wide character, are read back. -/
theorem document_read_back_cut :
    ∃ terminal last drawn, Terminal.start 24 80 = some terminal ∧
      [[0x41, 0xC3], [0xA9, 0x0D], [0x0A, 0xE4, 0xB8, 0xAD]].foldlM readTerminal
          (vtermStart, terminal) =
        some (vtermStart.readUtf8 [0x41, 0xC3, 0xA9, 0x0D, 0x0A, 0xE4, 0xB8, 0xAD], last) ∧
      screenRows last.screen.current = some drawn ∧
      (bufferLines last.scrollback ++ drawn).flatMap lineGlyphs = [[0x41], [0xE9], [0x4E2D]] := by
  obtain ⟨terminal, last, drawn, started, done, found, -, all⟩ :=
    document_read_back 24 80 usualSize_common (by decide) (by decide) [0x41, 0xE9] [[0x4E2D]]
      isPlain_sample [[0x41, 0xC3], [0xA9, 0x0D], [0x0A, 0xE4, 0xB8, 0xAD]] (by decide)
  have fits : ([[0x41, 0xE9], [0x4E2D]].flatMap (wrap codeColumns 80)).length ≤
      scrollBufferInitialSize + 24 := le_add_of_le_right (by decide)
  exact ⟨terminal, last, drawn, started, done, found, all fits⟩

end Hackterm
