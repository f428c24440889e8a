import Hackterm.Screen.Drawing
import Hackterm.Screen.Typing

/-! # Drawing documents

The frame of a document, plain text in UTF-8 that arrives in any reads, has every code point of
the rows on the screen at the column that the code points before it leave it, blanks behind them,
and the cursor behind the last one (`Hackterm.document_drawn`). A code point of more than 16 bits
is drawn as another one (`Hackterm.rtext_eq_iff`).
-/

namespace Hackterm

open Planes Layout

/-- The look of a gap. -/
def Look.isGap (look : Look) : Bool := look.shown = .gap

/-- The pen as it is reported. -/
def ScreenPen.reported (pen : ScreenPen) (reverse : Bool) : ScreenPen :=
  { pen with reverse := pen.reverse ^^ reverse }

/-- A look as it is reported. -/
def Look.reported (reverse : Bool) (look : Look) : Look :=
  { look with pen := look.pen.reported reverse }

/-- The cells of a row of text, with blanks behind it. -/
def textCells (cols : Nat) (pen : ScreenPen) (text : List Nat) : List (Look × Nat) :=
  measured Look.isGap ((rowLooks pen text ++ List.replicate cols (Look.blank pen)).take cols)

/-- The text in a row of the screen. -/
def pageRow (rows : Nat) (page : Page Nat) (row : Nat) : List Nat :=
  (page.rows.drop (rowsGone rows page)).getD row []

section Rows

variable (pen : ScreenPen)

theorem rowLooks_eq (row : List Nat) :
    rowLooks pen row = row.flatMap (cellsOf codeColumns
      (fun code => (⟨.glyph [UInt32.ofNat code], pen⟩ : Look)) ⟨.gap, pen⟩) := rfl

/-- The looks of a row with another pen. -/
theorem map_rowLooks (reverse : Bool) (row : List Nat) :
    (rowLooks pen row).map (Look.reported reverse) =
      rowLooks (pen.reported reverse) row := by
  unfold rowLooks
  rw [List.map_flatMap]
  refine List.flatMap_congr fun code _ => ?_
  rw [codeLooks, List.map_cons, List.map_replicate]
  rfl

/-- Rows of text as they are reported. -/
theorem rowSeen_ofRows (height cols : Nat) (reverse : Bool) (rows : List (List Nat)) {row : Nat}
    (inside : row < height) :
    rowSeen cols reverse (ofRows height cols (.blank pen) (rows.map (rowLooks pen))) row =
      textCells cols (pen.reported reverse) (rows.getD row []) := by
  have line : (rows.map (rowLooks pen)).getD row [] = rowLooks pen (rows.getD row []) :=
    List.getD_map rows [] (rowLooks pen)
  have there : ∀ col : Nat, ofRows height cols (.blank pen) (rows.map (rowLooks pen)) row col =
      if col < cols then some ((rowLooks pen (rows.getD row [])).getD col (.blank pen))
      else none := by
    intro col
    have window : Window height cols (row : Int) (col : Int) ↔ col < cols := by
      unfold Window
      omega
    unfold ofRows
    simp only [window, Int.toNat_natCast, line]
  have here : ∀ col, (rowLooks (pen.reported reverse) (rows.getD row [])).getD col
      (.blank (pen.reported reverse)) =
        ((rowLooks pen (rows.getD row [])).getD col (.blank pen)).reported reverse := by
    intro col
    rw [← map_rowLooks]
    exact List.getD_map _ (Look.blank pen) (Look.reported reverse)
  rw [textCells, take_append_blanks, measured_range]
  unfold rowSeen
  rw [List.filterMap_eq_map_iff_forall_eq_some]
  intro col member
  have inside : col < cols := List.mem_range.mp member
  have next : ((col : Int) + 1) = ((col + 1 : Nat) : Int) := rfl
  rw [next, there, there, if_pos inside, Option.map_some, here, here]
  by_cases more : col + 1 < cols
  · rw [if_pos more, Option.any_some]
    have same : (col : Int) < (cols : Int) - 1 := by omega
    simp only [same, more, true_and]
    rfl
  · have same : ¬ (col : Int) < (cols : Int) - 1 := by omega
    simp only [same, more, false_and]
    rfl

end Rows

/-- A code point is drawn as itself if it has at most 16 bits. -/
theorem rtext_eq_iff {codepoint : Nat} (plain : IsPlain codepoint) :
    (rtext [UInt32.ofNat codepoint]).toNat = codepoint ↔ codepoint < 0x10000 := by
  have value : (UInt32.ofNat codepoint).toUInt16.toNat = codepoint % 0x10000 := by
    rw [UInt32.toNat_toUInt16,
      UInt32.toNat_ofNat_of_lt' (plain.decodable.bits.trans (by decide))]
  constructor
  · intro same
    rw [← same]
    exact UInt16.toNat_lt _
  · intro small
    rw [Nat.mod_eq_of_lt small] at value
    have some_ : (UInt32.ofNat codepoint).toUInt16 ≠ 0 := by
      intro zero
      rw [zero] at value
      exact plain.visible.1 value.symm
    unfold rtext
    dsimp only [List.headD_cons]
    rw [if_neg some_, value]

section Drawn

variable (font : Nunifont) (blinkValue : Bool)

/-- What is drawn of a row of text: its code points, each at its column, and spaces behind. -/
def drawText (cols row : Nat) (pen : ScreenPen) (text : List Nat) : List UnitextCall :=
  let draw (column : Nat) (character : UInt16) : UnitextCall :=
    drawUnitextFancyRenderer blinkValue (column * font.advance) (row * font.lineHeight) character
      pen.bg.pack pen.fg.pack pen
  (placed codeColumns (fun code => rtext [UInt32.ofNat code]) 0 text).map
      (fun (column, character) => draw column character) ++
    (List.range' (filled codeColumns text) (cols - filled codeColumns text)).map fun column =>
      draw column 0x20

/-- The looks of a row of text are drawn as the text. -/
theorem drawLooks_textCells (cols row : Nat) (pen : ScreenPen) {text : List Nat}
    (begins : Begins codeColumns cols text) :
    drawLooks font blinkValue (row * font.lineHeight) (textCells cols pen text) =
      drawText font blinkValue cols row pen text := by
  unfold drawLooks drawText textCells
  rw [rowLooks_eq, visible_row codeColumns _ _ codeColumns_bounds rfl (fun _ => rfl) rfl begins,
    List.map_append, List.map_map]
  congr 1
  refine map_placed _ _ ?_ _ _
  intro column code
  rfl

theorem length_textCells (cols : Nat) (pen : ScreenPen) (text : List Nat) :
    (textCells cols pen text).length = cols := by
  rw [textCells, length_measured, List.length_take, List.length_append, List.length_replicate]
  omega

/-- The cell behind the text of a row has one column. -/
theorem textCells_end {cols : Nat} (pen : ScreenPen) {text : List Nat}
    (room : filled codeColumns text < cols) :
    (textCells cols pen text)[filled codeColumns text]? = some (Look.blank pen, 1) := by
  have blank : ∀ column, filled codeColumns text ≤ column →
      (rowLooks pen text).getD column (Look.blank pen) = Look.blank pen := by
    intro column behind
    exact List.getD_eq_default _ _ (by rw [length_rowLooks]; exact behind)
  have noGap : ¬ (filled codeColumns text + 1 < cols ∧ (Look.blank pen).isGap = true) :=
    fun both => Bool.false_ne_true both.2
  rw [textCells, take_append_blanks, measured_range, List.getElem?_map,
    List.getElem?_range room, Option.map_some, blank _ (Nat.le_refl _), blank _ (Nat.le_succ _),
    if_neg noGap]

variable {base : Display} {page : Page Nat}

/-- The last row of a page is where the page ends. -/
theorem pageRow_lastRow (isBase : IsBase base) (page : Page Nat) :
    pageRow base.rows page (lastRow base.rows page) = page.last := by
  have size : (page.done.drop (rowsGone base.rows page)).length = lastRow base.rows page := by
    rw [List.length_drop]
    rfl
  rw [pageRow, drop_rowsGone isBase, List.getD_append_right _ _ _ _ size.le, size, Nat.sub_self]
  rfl

/-- A row of a page is drawn as its text. -/
theorem displayRow_pageDisplay (isBase : IsBase base)
    (begins : ∀ row ∈ page.rows, Begins codeColumns base.cols row) (pos : VTermPos) {row : Nat}
    (inside : row < base.rows) :
    displayRow font blinkValue (pageDisplay base page) pos row =
      ⟨drawText font blinkValue base.cols row (base.pen.reported base.globalReverse)
          (pageRow base.rows page row),
        if pos.row = row then (textCells base.cols (base.pen.reported base.globalReverse)
            (pageRow base.rows page row))[pos.col.toNat]?.map
          fun look => cursorRect font pos.col row look.2
        else none⟩ := by
  have looks : rowSeen (pageDisplay base page).cols (pageDisplay base page).globalReverse
      (pageDisplay base page).current row = _ :=
    (congrArg (rowSeen base.cols base.globalReverse · row) (current_pageDisplay isBase page)).trans
      (rowSeen_ofRows base.pen base.rows base.cols base.globalReverse _ inside)
  have text : Begins codeColumns base.cols (pageRow base.rows page row) := by
    rw [pageRow, List.getD_eq_getElem?_getD]
    cases there : (page.rows.drop (rowsGone base.rows page))[row]? with
    | none => exact begins_nil codeColumns base.cols
    | some line => exact begins line (List.mem_of_mem_drop (List.mem_of_getElem? there))
  rw [displayRow, looks]
  exact congrArg (DrawnRow.mk · _) (drawLooks_textCells font blinkValue base.cols row _ text)

end Drawn

/-- **A document is drawn as it is wrapped.** In the frame, every row of the window has the code
points of its row of text, each at the column where those before it end, and spaces behind them.
The cursor is behind the last row of text, if that is not full. Code points of up to 16 bits are
drawn as they are. -/
theorem document_drawn (rows cols : Nat) (size : UsualSize rows cols) (high : 2 ≤ rows)
    (wide : 3 ≤ cols) (font : Nunifont) (blinkValue : Bool) (first : List Nat)
    (more : List (List Nat)) (plain : ∀ line ∈ first :: more, ∀ code ∈ line, IsPlain code)
    (chunks : List (List UInt8))
    (cut : chunks.flatten = (documentCodes (first :: more)).flatMap fillUtf8) :
    ∃ terminal last page column width, Terminal.start rows cols = some terminal ∧
      chunks.foldlM readTerminal (vtermStart, terminal) =
        some (vtermStart.readUtf8 chunks.flatten, last) ∧
      page.rows = (first :: more).flatMap (wrap codeColumns cols) ∧
      redrawTextFrame font blinkValue last 0 = some ((List.range rows).map fun row =>
        ⟨drawText font blinkValue cols row (startDisplay rows cols).pen (pageRow rows page row),
          if row = lastRow rows page then some (cursorRect font column row width) else none⟩) ∧
      (filled codeColumns page.last < cols →
        column = filled codeColumns page.last ∧ width = 1) ∧
      ∀ line ∈ first :: more, ∀ code ∈ line,
        ((rtext [UInt32.ofNat code]).toNat = code ↔ code < 0x10000) := by
  obtain ⟨terminal, last, started, done, sound, display, carries, writes⟩ :=
    readTerminal_document size high wide plain cut
  generalize typed : Page.blank.typeLines codeColumns cols first more = page at writes
  have wrapped : page.rows = (first :: more).flatMap (wrap codeColumns cols) := by
    rw [← typed]
    exact Page.rows_typeLines codeColumns cols Page.blank first more
  have isBase : IsBase (startDisplay rows cols) := isBase_startDisplay high wide
  obtain ⟨placed, cursor, displayed⟩ := writes
  have cursor : AtEnd (startDisplay rows cols) page last.state := cursor
  have here : last.state.pos.row = lastRow rows page := placed.row
  have shows := carries.shows
  rw [displayed] at shows
  have begins : ∀ row ∈ page.rows, Begins codeColumns cols row := by
    rw [wrapped]
    intro row member
    obtain ⟨line, -, here⟩ := List.mem_flatMap.mp member
    exact begins_of_mem_wrapFrom codeColumns cols (by omega) (begins_nil codeColumns cols) row here
  have inside := sound.state.cursor.2
  rw [sound.sized.2] at inside
  have frame := redrawTextFrame_shows font blinkValue shows rfl inside
  -- the cell of the cursor
  have length := length_textCells cols (startDisplay rows cols).pen page.last
  obtain ⟨look, there⟩ : ∃ look, (textCells cols (startDisplay rows cols).pen
      page.last)[last.state.pos.col.toNat]? = some look :=
    ⟨_, List.getElem?_eq_getElem (by omega)⟩
  refine ⟨terminal, last, page, last.state.pos.col, look.2, started, done, wrapped, ?_, ?_,
    fun line inText code inLine => rtext_eq_iff (plain line inText code inLine)⟩
  · rw [frame]
    refine congrArg some (List.map_congr_left fun row member => ?_)
    have shown : row < rows := List.mem_range.mp member
    have drawn : displayRow font blinkValue (pageDisplay (startDisplay rows cols) page)
        last.state.pos row = ⟨drawText font blinkValue cols row (startDisplay rows cols).pen
          (pageRow rows page row),
        if last.state.pos.row = row then (textCells cols (startDisplay rows cols).pen
            (pageRow rows page row))[last.state.pos.col.toNat]?.map
          fun look => cursorRect font last.state.pos.col row look.2
        else none⟩ := displayRow_pageDisplay font blinkValue isBase begins last.state.pos shown
    rw [drawn, here]
    by_cases ends : row = lastRow rows page
    · have same : ((lastRow rows page : Nat) : Int) = row := congrArg Nat.cast ends.symm
      have text : pageRow rows page row = page.last := ends ▸ pageRow_lastRow isBase page
      rw [if_pos same, if_pos ends, text, there, Option.map_some]
    · have other : ¬ ((lastRow rows page : Nat) : Int) = row :=
        fun same => ends (Int.natCast_inj.mp same).symm
      rw [if_neg other, if_neg ends]
  · intro room
    unfold AtEnd at cursor
    rw [if_pos (show filled codeColumns page.last < (startDisplay rows cols).cols from room)]
      at cursor
    rw [cursor.1, Int.toNat_natCast, textCells_end _ room] at there
    exact ⟨cursor.1, congrArg Prod.snd (Option.some.inj there).symm⟩

/-- The frame of an A and an é, which is cut, and on the next line a wide character. -/
theorem document_drawn_cut :
    ∃ terminal last page column width, Terminal.start 24 80 = some terminal ∧
      [[0x41, 0xC3], [0xA9, 0x0D], [0x0A, 0xE4, 0xB8, 0xAD]].foldlM readTerminal
          (vtermStart, terminal) =
        some (vtermStart.readUtf8 [0x41, 0xC3, 0xA9, 0x0D, 0x0A, 0xE4, 0xB8, 0xAD], last) ∧
      page.rows = [[0x41, 0xE9], [0x4E2D]].flatMap (wrap codeColumns 80) ∧
      redrawTextFrame ⟨8, 16, 0⟩ false last 0 = some ((List.range 24).map fun row =>
        ⟨drawText ⟨8, 16, 0⟩ false 80 row (startDisplay 24 80).pen (pageRow 24 page row),
          if row = lastRow 24 page then some (cursorRect ⟨8, 16, 0⟩ column row width)
          else none⟩) := by
  obtain ⟨terminal, last, page, column, width, started, done, wrapped, drawn, -, -⟩ :=
    document_drawn 24 80 usualSize_common (by decide) (by decide) ⟨8, 16, 0⟩ false [0x41, 0xE9]
      [[0x4E2D]] isPlain_sample [[0x41, 0xC3], [0xA9, 0x0D], [0x0A, 0xE4, 0xB8, 0xAD]] (by decide)
  exact ⟨terminal, last, page, column, width, started, done, wrapped, drawn⟩

end Hackterm
