import Hackterm.Encoding.Utf8
import Hackterm.Layout.Pages
import Hackterm.Screen.Session

/-! # Documents on the terminal

Text and new lines are typed behind a page (`Hackterm.TypedPage`), and the terminal displays the
page: its last rows on the screen, and those before them in the scrollback
(`Hackterm.pageDisplay`). Every call for text, every carriage return and every line feed of a
document goes on so (`Hackterm.Writes.handled`).
-/

namespace Hackterm

open BitFields Planes Layout VTermState

/-- A code point that can be encoded and takes columns of its own. -/
structure IsPlain (codepoint : Nat) : Prop where
  decodable : IsDecodable codepoint
  visible : IsVisible codepoint
  alone : vtermUnicodeIsCombining codepoint = false

/-- The columns of a plain code point. -/
def codeColumns (codepoint : Nat) : Nat := if isWide codepoint then 2 else 1

section Plain

variable {codepoint : Nat}

theorem codeColumns_bounds (codepoint : Nat) :
    1 ≤ codeColumns codepoint ∧ codeColumns codepoint ≤ 2 := by
  unfold codeColumns
  split_ifs <;> decide

theorem IsPlain.columnsOf (plain : IsPlain codepoint) :
    columnsOf [codepoint] = codeColumns codepoint := by
  have width := (vtermUnicodeWidth_text plain.visible).2 plain.alone
  unfold Hackterm.columnsOf codeColumns
  rw [List.map_singleton, List.sum_singleton, width]
  split_ifs <;> rfl

/-- The code point is stored as it is. -/
theorem IsPlain.glyphCodes (plain : IsPlain codepoint) :
    glyphCodes [codepoint] = [UInt32.ofNat codepoint] ∧
      shownChars [UInt32.ofNat codepoint] = .glyph [UInt32.ofNat codepoint] := by
  have value : (UInt32.ofNat codepoint).toNat = codepoint :=
    UInt32.toNat_ofNat_of_lt' (plain.decodable.bits.trans (by decide))
  have nonzero : UInt32.ofNat codepoint ≠ 0 := by
    intro zero
    rw [zero] at value
    exact plain.visible.1 value.symm
  have noGap : UInt32.ofNat codepoint ≠ gapChar := by
    intro gap
    rw [gap] at value
    exact absurd (value ▸ plain.decodable.bits) (by decide)
  constructor
  · unfold Hackterm.glyphCodes
    rw [List.map_singleton, List.takeWhile_cons_of_pos (by simpa using nonzero),
      List.takeWhile_nil]
  · rw [shownChars, if_neg noGap]

/-- Plain code points are glyphs of their own. -/
theorem glyphsOf_plain {codepoints : List Nat} (plain : ∀ code ∈ codepoints, IsPlain code) :
    glyphsOf codepoints = codepoints.map ([·]) := by
  induction codepoints with
  | nil => rfl
  | cons first rest ih =>
      obtain ⟨-, others⟩ := List.forall_mem_cons.mp plain
      have split : glyphsOf ([first] ++ rest) = glyphsOf [first] ++ glyphsOf rest := by
        apply List.splitBy_append
        intro last _ next member
        exact (others next (List.mem_of_mem_head? member)).alone
      rw [← List.singleton_append, split, ih others]
      rfl

end Plain

/-- The looks of a code point: its glyph, and the gap behind it if it is wide. -/
def codeLooks (pen : ScreenPen) (codepoint : Nat) : List Look :=
  ⟨.glyph [UInt32.ofNat codepoint], pen⟩ ::
    List.replicate (codeColumns codepoint - 1) ⟨.gap, pen⟩

/-- The looks of a row of text. -/
def rowLooks (pen : ScreenPen) (row : List Nat) : List Look := row.flatMap (codeLooks pen)

/-- A row of text as it is reported. -/
def rowReported (cols : Nat) (pen : ScreenPen) (reverse : Bool) (row : List Nat) :
    List (Look × Nat) :=
  rowSeen cols reverse (ofRows 1 cols (.blank pen) [rowLooks pen row]) 0

/-- How many rows of a page have left a screen. -/
def rowsGone (rows : Nat) (page : Page Nat) : Nat := page.done.length + 1 - rows

/-- The row of the screen in which a page ends. -/
def lastRow (rows : Nat) (page : Page Nat) : Nat := page.done.length - rowsGone rows page

/-- The display of a page: the last rows on the screen, the others scrolled off. -/
def pageDisplay (base : Display) (page : Page Nat) : Display :=
  { base with
    primary := ofRows base.rows base.cols (.blank base.pen)
      ((page.rows.drop (rowsGone base.rows page)).map (rowLooks base.pen))
    history := (page.rows.take (rowsGone base.rows page)).map
      (rowReported base.cols base.pen base.globalReverse) }

section Looks

theorem length_rowLooks (pen : ScreenPen) (row : List Nat) :
    (rowLooks pen row).length = filled codeColumns row := by
  unfold rowLooks filled
  rw [List.length_flatMap]
  congr 1
  refine List.map_congr_left fun codepoint _ => ?_
  have one := (codeColumns_bounds codepoint).1
  rw [codeLooks, List.length_cons, List.length_replicate]
  omega

/-- Rows with the same looks are reported alike. -/
theorem rowSeen_congr {cols : Nat} {reverse : Bool} {plane other : Plane Look} {row here : Int}
    (same : ∀ col, plane row col = other here col) :
    rowSeen cols reverse plane row = rowSeen cols reverse other here := by
  unfold rowSeen
  simp only [same]

theorem ofRows_first (height width : Nat) (positive : 0 < height) (blank : Look)
    (first : List Look) (rest : List (List Look)) (col : Int) :
    ofRows height width blank (first :: rest) 0 col = ofRows 1 width blank [first] 0 col := by
  unfold ofRows
  have same : Window height width 0 col ↔ Window 1 width 0 col := by
    unfold Window
    omega
  simp only [same]
  rfl

end Looks

/-- The display before a document: the primary buffer of a screen that is neither too low nor
too narrow. -/
structure IsBase (base : Display) : Prop where
  rows : 2 ≤ base.rows
  cols : 3 ≤ base.cols
  primary : base.onAlternate = false

section Displays

variable {base : Display} {page : Page Nat}

theorem current_pageDisplay (isBase : IsBase base) (page : Page Nat) :
    (pageDisplay base page).current = (pageDisplay base page).primary :=
  if_neg (by rw [pageDisplay, isBase.primary]; decide)

theorem rowsGone_le (isBase : IsBase base) (page : Page Nat) :
    rowsGone base.rows page ≤ page.done.length := by
  have rows := isBase.rows
  unfold rowsGone
  omega

/-- The rows of a page that are on the screen. -/
theorem drop_rowsGone (isBase : IsBase base) (page : Page Nat) :
    page.rows.drop (rowsGone base.rows page) =
      page.done.drop (rowsGone base.rows page) ++ [page.last] :=
  List.drop_append_of_le_length (rowsGone_le isBase page)

/-- The rows of a page that have left the screen. -/
theorem take_rowsGone (isBase : IsBase base) (page : Page Nat) :
    page.rows.take (rowsGone base.rows page) = page.done.take (rowsGone base.rows page) :=
  List.take_append_of_le_length (rowsGone_le isBase page)

/-- **A glyph at the end** of the last row is one of the page. -/
theorem call_putglyph (isBase : IsBase base) {codepoint : Nat} (plain : IsPlain codepoint)
    {pos : VTermPos} (row : pos.row = lastRow base.rows page)
    (col : pos.col = filled codeColumns page.last)
    (room : filled codeColumns page.last < base.cols) :
    (pageDisplay base page).call (.putglyph [codepoint] (codeColumns codepoint) pos) =
      pageDisplay base (page.append codepoint) := by
  obtain ⟨codes, shown⟩ := plain.glyphCodes
  have height := isBase.rows
  have one := (codeColumns_bounds codepoint).1
  have front : ((page.done.drop (rowsGone base.rows page)).map (rowLooks base.pen)).length =
      lastRow base.rows page := by
    rw [List.length_map, List.length_drop]
    rfl
  have below : lastRow base.rows page < base.rows := by
    unfold lastRow rowsGone
    omega
  rw [Display.call, current_pageDisplay isBase, Display.put,
    if_neg (show ¬ (pageDisplay base page).onAlternate = true by
      rw [pageDisplay, isBase.primary]; decide)]
  unfold pageDisplay
  dsimp only
  rw [take_rowsGone isBase, take_rowsGone isBase, drop_rowsGone isBase, drop_rowsGone isBase,
    List.map_append, List.map_singleton, List.map_append, List.map_singleton]
  congr 1
  unfold glyphSeen
  rw [if_pos (by
    unfold ofRows
    rw [if_pos (show Window base.rows base.cols pos.row pos.col by
      unfold Window
      omega)]
    rfl), codes]
  rw [change_end _ _ _ _ _ _ 1 (Look.drawn base.pen [UInt32.ofNat codepoint]) fun r c => by
      rw [front, length_rowLooks]
      omega,
    change_end _ _ _ _ _ _ (codeColumns codepoint - 1) Look.gap fun r c => by
      rw [front, List.length_append, length_rowLooks, List.length_replicate]
      omega]
  have looks : rowLooks base.pen (page.append codepoint).last =
      rowLooks base.pen page.last ++ List.replicate 1
          (Look.drawn base.pen [UInt32.ofNat codepoint] (.blank base.pen)) ++
        List.replicate (codeColumns codepoint - 1) (Look.gap (.blank base.pen)) := by
    rw [Look.drawn, shown, if_neg (List.cons_ne_nil _ _)]
    unfold rowLooks Page.append
    rw [List.flatMap_append, List.flatMap_singleton, List.append_assoc]
    rfl
  rw [looks]
  rfl

/-- A row is begun on the screen. -/
theorem pageDisplay_newline (room : lastRow base.rows page < base.rows - 1) :
    pageDisplay base page.newline = pageDisplay base page := by
  have here : rowsGone base.rows page = 0 := by
    unfold lastRow at room
    unfold rowsGone at room ⊢
    omega
  have there : rowsGone base.rows page.newline = 0 := by
    unfold lastRow rowsGone at room
    unfold rowsGone Page.newline Page.rows
    rw [List.length_append, List.length_singleton]
    omega
  unfold pageDisplay
  rw [here, there, List.drop_zero, List.drop_zero, List.take_zero, List.take_zero]
  have shown : page.newline.rows.map (rowLooks base.pen) =
      page.rows.map (rowLooks base.pen) ++ [[]] := by
    rw [Page.newline, Page.rows, List.map_append]
    rfl
  rw [shown, ofRows_concat_nil]

/-- **A row is begun below the screen**, whose first row is scrolled off. -/
theorem call_scrollrect (isBase : IsBase base) (full : lastRow base.rows page = base.rows - 1) :
    (pageDisplay base page).call (.scrollrect ⟨0, base.rows, 0, base.cols⟩ 1 0) =
      pageDisplay base page.newline := by
  have height := isBase.rows
  have width := isBase.cols
  have gone : rowsGone base.rows page.newline = rowsGone base.rows page + 1 := by
    unfold lastRow at full
    unfold rowsGone at full ⊢
    unfold Page.newline Page.rows
    rw [List.length_append, List.length_singleton]
    omega
  -- the row that is scrolled off and those that stay
  have size : (page.rows.drop (rowsGone base.rows page)).length = base.rows := by
    unfold lastRow at full
    unfold rowsGone at full ⊢
    unfold Page.rows
    rw [List.length_drop, List.length_append, List.length_singleton]
    omega
  obtain ⟨first, rest, split⟩ := List.exists_cons_of_length_pos (show
    0 < (page.rows.drop (rowsGone base.rows page)).length by omega)
  have few : rest.length < base.rows := by
    rw [split, List.length_cons] at size
    omega
  have inside : rowsGone base.rows page < page.rows.length := by
    rw [List.length_drop] at size
    omega
  have later : page.newline.rows.drop (rowsGone base.rows page + 1) = rest ++ [[]] := by
    rw [← List.drop_drop, Page.newline, Page.rows, List.drop_append_of_le_length inside.le, split]
    rfl
  have earlier : page.newline.rows.take (rowsGone base.rows page + 1) =
      page.rows.take (rowsGone base.rows page) ++ [first] := by
    have here : page.rows[rowsGone base.rows page] = first := by
      rw [List.drop_eq_getElem_cons inside] at split
      exact (List.cons.inj split).1
    rw [Page.newline, Page.rows, List.take_append_of_le_length inside,
      List.take_succ_eq_append_getElem inside, here]
  rw [Display.call, Display.leaving, current_pageDisplay isBase, Display.put,
    if_neg (show ¬ (pageDisplay base page).onAlternate = true by
      rw [pageDisplay, isBase.primary]; decide)]
  unfold pageDisplay
  dsimp only
  rw [gone, later, earlier, split, List.map_append, List.map_cons, List.map_append,
    if_neg (by omega), if_pos ⟨rfl, rfl, rfl⟩]
  congr 1
  · have low : (rest.map (rowLooks base.pen)).length < base.rows := by rwa [List.length_map]
    exact (shift_first _ _ _ _ _ _ low fun r c => Iff.rfl).trans
      (ofRows_concat_nil _ _ _ _).symm
  · congr 1
    exact congrArg ([·]) (rowSeen_congr fun col => ofRows_first _ _ (by omega) _ _ _ col)

theorem lastRow_newline (rows : Nat) (page : Page Nat) (positive : 0 < rows) :
    lastRow rows page.newline =
      if lastRow rows page = rows - 1 then rows - 1 else lastRow rows page + 1 := by
  have more : page.newline.done.length = page.done.length + 1 := by
    unfold Page.newline Page.rows
    rw [List.length_append, List.length_singleton]
  unfold lastRow rowsGone
  rw [more]
  split_ifs <;> omega

theorem lastRow_lt (isBase : IsBase base) (page : Page Nat) :
    lastRow base.rows page < base.rows := by
  have height := isBase.rows
  unfold lastRow rowsGone
  omega

end Displays

/-- What is typed: a page, and a carriage return that waits for its line feed. -/
structure TypedPage where
  page : Page Nat
  returned : Bool

/-- A code point is typed. -/
def TypedPage.code (cols : Nat) (typing : TypedPage) (codepoint : Nat) : Option TypedPage :=
  if typing.returned then
    if codepoint = 0x0A then some ⟨typing.page.newline, false⟩ else none
  else if codepoint = 0x0D then some ⟨typing.page, true⟩
  else if codepoint = 0x0A then none
  else some ⟨typing.page.put codeColumns cols codepoint, false⟩

/-- The modes of the state, and the row of the cursor. -/
structure Placed (base : Display) (page : Page Nat) (state : VTermState) : Prop where
  size : state.rows = base.rows ∧ state.cols = base.cols
  region : state.scrollregionStart = 0 ∧ state.scrollregionBottom = base.rows
  modes : state.mode.autowrap = true ∧ state.mode.insert = false
  row : state.pos.row = lastRow base.rows page

/-- The cursor is behind the last row, or in the phantom column. -/
def AtEnd (base : Display) (page : Page Nat) (state : VTermState) : Prop :=
  if filled codeColumns page.last < base.cols then
    state.pos.col = filled codeColumns page.last ∧ state.atPhantom = false
  else 0 < state.pos.col ∧ state.atPhantom = true

/-- The cursor is in the first column. -/
def AtStart (state : VTermState) : Prop := state.pos.col = 0 ∧ state.atPhantom = false

/-- A row without text ends in the first column. -/
theorem AtStart.atEnd {base : Display} {page : Page Nat} {state : VTermState} (isBase : IsBase base)
    (empty : page.last = []) (start : AtStart state) : AtEnd base page state := by
  have width := isBase.cols
  unfold AtEnd
  rw [empty, filled_nil, if_pos (by omega)]
  exact start

/-- The terminal has typed what is typed, and displays it. -/
structure Writes (base : Display) (typing : TypedPage) (state : VTermState) (display : Display) :
    Prop where
  placed : Placed base typing.page state
  cursor : if typing.returned then AtStart state else AtEnd base typing.page state
  display : display = pageDisplay base typing.page

section Handlers

variable {base : Display} {page : Page Nat} {state : VTermState} {display : Display}

/-- A line feed begins a row. -/
theorem Placed.linefeed (isBase : IsBase base) (placed : Placed base page state) :
    ∃ row, (linefeed state).1 = state.setRow row ∧ Placed base page.newline (state.setRow row) ∧
      (linefeed state).2.foldl Display.call (pageDisplay base page) =
        pageDisplay base page.newline := by
  obtain ⟨⟨rows, cols⟩, ⟨start, bottom⟩, modes, row⟩ := placed
  have height := isBase.rows
  have below := lastRow_lt isBase page
  have next := lastRow_newline base.rows page (by omega)
  unfold Hackterm.linefeed
  by_cases full : lastRow base.rows page = base.rows - 1
  · have region : state.scrollregion = ⟨0, base.rows, 0, base.cols⟩ := by
      rw [VTermState.scrollregion, start, bottom, cols]
    rw [if_pos (by omega), region]
    refine ⟨state.pos.row, rfl, ⟨⟨rows, cols⟩, ⟨start, bottom⟩, modes, ?_⟩, ?_⟩
    · rw [next, if_pos full, setRow_row]
      omega
    · exact call_scrollrect isBase full
  · rw [if_neg (by omega), if_pos (by omega)]
    refine ⟨state.pos.row + 1, rfl, ⟨⟨rows, cols⟩, ⟨start, bottom⟩, modes, ?_⟩, ?_⟩
    · rw [next, if_neg full, setRow_row, row]
      rfl
    · exact (pageDisplay_newline (by omega)).symm

/-- The page whose last row has room. -/
def Roomy (base : Display) (page : Page Nat) : Page Nat :=
  if base.cols ≤ filled codeColumns page.last then page.newline else page

/-- The cursor leaves the phantom column for the next row. -/
theorem Placed.wrap (isBase : IsBase base) (placed : Placed base page state)
    (cursor : AtEnd base page state) :
    Placed base (Roomy base page) state.wrap.1 ∧
      (filled codeColumns (Roomy base page).last < base.cols ∧
        state.wrap.1.pos.col = filled codeColumns (Roomy base page).last ∧
        state.wrap.1.atPhantom = false) ∧
      state.wrap.2.foldl Display.call (pageDisplay base page) =
        pageDisplay base (Roomy base page) := by
  have width := isBase.cols
  unfold AtEnd at cursor
  by_cases room : filled codeColumns page.last < base.cols
  · rw [if_pos room] at cursor
    have stays : state.wrap = (state, []) := if_neg (by rw [cursor.2]; decide)
    have roomy : Roomy base page = page := if_neg (Nat.not_le.mpr room)
    rw [stays, roomy]
    exact ⟨placed, ⟨room, cursor⟩, rfl⟩
  · rw [if_neg room] at cursor
    have feeds : state.wrap = ({ (Hackterm.linefeed state).1.setCol 0 with atPhantom := false },
        (Hackterm.linefeed state).2) := if_pos cursor.2
    have roomy : Roomy base page = page.newline := if_pos (Nat.not_lt.mp room)
    obtain ⟨row, moved, held, displays⟩ := placed.linefeed isBase
    rw [feeds, roomy, moved]
    refine ⟨⟨held.size, held.region, held.modes, held.row⟩, ⟨?_, rfl, rfl⟩, displays⟩
    rw [Page.newline, filled_nil]
    omega

/-- The cursor advances in its row. -/
theorem Placed.advance (placed : Placed base page state) (width : Int) :
    Placed base page (state.advance width) := by
  obtain ⟨size, region, modes, row⟩ := placed
  unfold VTermState.advance
  split_ifs <;> exact ⟨size, region, modes, row⟩

theorem put_eq_append (page : Page Nat) (codepoint : Nat) :
    page.put codeColumns base.cols codepoint = (Roomy base page).append codepoint := by
  unfold Page.put Roomy
  split_ifs <;> rfl

/-- **A glyph goes on with the page.** -/
theorem Writes.putGlyph (isBase : IsBase base) (writes : Writes base ⟨page, false⟩ state display)
    {codepoint : Nat} (plain : IsPlain codepoint) {isLast : Bool} {reaction : Reaction}
    (put : state.putGlyph [codepoint] isLast = some reaction) :
    Writes base ⟨page.put codeColumns base.cols codepoint, false⟩ reaction.1
      (reaction.2.foldl Display.call display) := by
  obtain ⟨placed, cursor, rfl⟩ := writes
  obtain ⟨⟨size, region, modes, row⟩, ⟨room, col, noPhantom⟩, displays⟩ :=
    placed.wrap isBase cursor
  have width := isBase.cols
  obtain ⟨one, two⟩ := codeColumns_bounds codepoint
  unfold VTermState.putGlyph at put
  dsimp only at put
  obtain ⟨kept, keeps, rfl⟩ := Option.map_eq_some_iff.mp put
  -- keeping the glyph does not move the cursor
  have held : Placed base ((Roomy base page).append codepoint) kept ∧
      kept.pos.col = filled codeColumns (Roomy base page).last ∧ kept.atPhantom = false := by
    cases isLast with
    | true =>
        obtain ⟨stored, -, rfl⟩ := Option.map_eq_some_iff.mp keeps
        exact ⟨⟨size, region, modes, row⟩, col, noPhantom⟩
    | false =>
        obtain rfl := Option.some.inj keeps
        exact ⟨⟨size, region, modes, row⟩, col, noPhantom⟩
  obtain ⟨placed', col', noPhantom'⟩ := held
  rw [put_eq_append, plain.columnsOf]
  refine ⟨placed'.advance _, ?_, ?_⟩
  · have appended : filled codeColumns ((Roomy base page).append codepoint).last =
        filled codeColumns (Roomy base page).last + codeColumns codepoint := filled_concat _ _ _
    have cols := placed'.size.2
    show AtEnd base ((Roomy base page).append codepoint) _
    unfold AtEnd VTermState.advance
    dsimp only
    rw [appended]
    by_cases fits : filled codeColumns (Roomy base page).last + codeColumns codepoint < base.cols
    · rw [if_pos fits, if_neg (by omega)]
      exact ⟨by rw [setCol_col, col']; rfl, noPhantom'⟩
    · rw [if_neg fits, if_pos (by omega), if_pos placed'.modes.1]
      exact ⟨by dsimp only; omega, rfl⟩
  · dsimp only
    rw [if_neg (by rw [modes.2]; decide), List.append_nil, List.foldl_append, displays]
    exact call_putglyph isBase plain row col room

/-- Glyphs go on with the page. -/
theorem Writes.putGlyphs (isBase : IsBase base) (writes : Writes base ⟨page, false⟩ state display)
    {codepoints : List Nat} (plain : ∀ code ∈ codepoints, IsPlain code) {reaction : Reaction}
    (put : VTermState.putGlyphs (codepoints.map ([·])) state = some reaction) :
    Writes base ⟨page.type codeColumns base.cols codepoints, false⟩ reaction.1
      (reaction.2.foldl Display.call display) := by
  induction codepoints generalizing page state display reaction with
  | nil =>
      obtain rfl := Option.some.inj put
      exact writes
  | cons codepoint codepoints ih =>
      obtain ⟨first, others⟩ := List.forall_mem_cons.mp plain
      obtain ⟨one, drawn, rest⟩ := Option.bind_eq_some_iff.mp put
      obtain ⟨later, behind, rfl⟩ := Option.map_eq_some_iff.mp rest
      have next := ih (writes.putGlyph isBase first drawn) others behind
      rw [Page.type_cons, List.foldl_append]
      exact next

/-- **A call for text goes on with the page.** -/
theorem Writes.text (isBase : IsBase base) (writes : Writes base ⟨page, false⟩ state display)
    {codepoints : List Nat} (plain : ∀ code ∈ codepoints, IsPlain code) {reaction : Reaction}
    (put : state.putCodepoints codepoints = some reaction) :
    Writes base ⟨page.type codeColumns base.cols codepoints, false⟩ reaction.1
      (reaction.2.foldl Display.call display) := by
  have alone : vtermUnicodeIsCombining (codepoints.headD 0) = false := by
    cases codepoints with
    | nil => decide
    | cons first rest => exact (plain first List.mem_cons_self).alone
  have nothing : state.putCombined codepoints = some ((state, []), codepoints) := by
    unfold VTermState.putCombined
    rw [if_neg (by rw [alone]; simp)]
  rw [VTermState.putCodepoints, nothing, Option.bind_some] at put
  obtain ⟨later, drawn, rfl⟩ := Option.map_eq_some_iff.mp put
  rw [glyphsOf_plain plain] at drawn
  exact writes.putGlyphs isBase plain drawn

/-- A cursor that has not moved, or has left the phantom column. -/
theorem updatecursor_pos (state : VTermState) (oldpos : VTermPos) :
    (state.updatecursor oldpos true).pos = state.pos := by
  unfold VTermState.updatecursor
  split_ifs <;> rfl

theorem updatecursor_noPhantom (still : state.atPhantom = false) (oldpos : VTermPos)
    (cancel : Bool) : (state.updatecursor oldpos cancel).atPhantom = false := by
  unfold VTermState.updatecursor
  split_ifs
  · exact still
  · rfl
  · exact still

/-- A carriage return goes to the first column. -/
theorem Writes.carriageReturn (writes : Writes base ⟨page, false⟩ state display)
    {reaction : Reaction} (done : state.onControl 0x0D = some reaction) :
    Writes base ⟨page, true⟩ reaction.1 (reaction.2.foldl Display.call display) := by
  obtain ⟨⟨size, region, modes, row⟩, cursor, same⟩ := writes
  have returns : state.onControl 0x0D =
      some ((state.setCol 0).updatecursor state.pos true, []) := rfl
  rw [returns] at done
  obtain rfl := Option.some.inj done
  refine ⟨?_, ?_, same⟩
  · unfold VTermState.updatecursor
    split_ifs <;> exact ⟨size, region, modes, row⟩
  · refine ⟨by rw [updatecursor_pos, setCol_col], ?_⟩
    have atEnd : AtEnd base page state := cursor
    unfold AtEnd at atEnd
    by_cases stays : (state.setCol 0).pos.col = state.pos.col ∧
        (state.setCol 0).pos.row = state.pos.row
    · rw [VTermState.updatecursor, if_pos stays]
      by_cases room : filled codeColumns page.last < base.cols
      · rw [if_pos room] at atEnd
        exact atEnd.2
      · -- the cursor in the phantom column moves
        rw [if_neg room] at atEnd
        rw [setCol_col] at stays
        omega
    · rw [VTermState.updatecursor, if_neg stays, if_pos rfl]

/-- **A line feed behind it begins a row.** -/
theorem Writes.lineFeed (isBase : IsBase base) (writes : Writes base ⟨page, true⟩ state display)
    {reaction : Reaction} (done : state.onControl 0x0A = some reaction) :
    Writes base ⟨page.newline, false⟩ reaction.1 (reaction.2.foldl Display.call display) := by
  obtain ⟨placed, cursor, rfl⟩ := writes
  obtain ⟨first, noPhantom⟩ : AtStart state := cursor
  obtain ⟨row, moved, held, displays⟩ := placed.linefeed isBase
  have width := isBase.cols
  have feeds : state.onControl 0x0A = some
      (((if (linefeed state).1.mode.newline then (linefeed state).1.setCol 0
          else (linefeed state).1).updatecursor state.pos true), (linefeed state).2 ++ []) := rfl
  rw [feeds] at done
  obtain rfl := Option.some.inj done
  have column : ∃ next : VTermState, (if (linefeed state).1.mode.newline then
      (linefeed state).1.setCol 0 else (linefeed state).1) = next ∧
      Placed base page.newline next ∧ next.pos.col = 0 ∧ next.atPhantom = false := by
    rw [moved]
    split_ifs
    · exact ⟨_, rfl, ⟨held.size, held.region, held.modes, held.row⟩, rfl, noPhantom⟩
    · exact ⟨_, rfl, held, first, noPhantom⟩
  obtain ⟨next, same, reached, col, still⟩ := column
  dsimp only
  rw [same]
  obtain ⟨atPhantom, updated⟩ := placed_updatecursor next state.pos true
  refine ⟨?_, ?_, ?_⟩
  · rw [updated]
    exact ⟨reached.size, reached.region, reached.modes, reached.row⟩
  · exact AtStart.atEnd isBase rfl
      ⟨by rw [updatecursor_pos, col], updatecursor_noPhantom still _ _⟩
  · rw [List.append_nil]
    exact displays

end Handlers

/-- The calls of a document: plain text, carriage returns and line feeds. -/
inductive DocumentCall (encodings : Encodings) : ParserCall → Encodings → List Nat → Prop where
  | text {bytes : List UInt8} {after : Encodings} {codepoints : List Nat}
      (decodes : encodings.call (.text bytes) = some (after, codepoints))
      (plain : ∀ code ∈ codepoints, IsPlain code) :
      DocumentCall encodings (.text bytes) after codepoints
  | carriageReturn : DocumentCall encodings (.control 0x0D) encodings [0x0D]
  | lineFeed : DocumentCall encodings (.control 0x0A) encodings [0x0A]

section Calls

variable {base : Display} {typing next : TypedPage} {state : VTermState} {display : Display}
  {call : ParserCall} {after : Encodings} {codes : List Nat}

/-- Plain code points are typed behind the page. -/
theorem foldlM_code_plain (cols : Nat) (page : Page Nat) (plain : ∀ code ∈ codes, IsPlain code) :
    codes.foldlM (TypedPage.code cols) ⟨page, false⟩ =
      some ⟨page.type codeColumns cols codes, false⟩ := by
  induction codes generalizing page with
  | nil => rfl
  | cons code codes ih =>
      obtain ⟨first, others⟩ := List.forall_mem_cons.mp plain
      have high : ¬ code < 32 := fun low => first.visible.2 (.inl low)
      have put : TypedPage.code cols ⟨page, false⟩ code =
          some ⟨page.put codeColumns cols code, false⟩ := by
        unfold TypedPage.code
        rw [if_neg Bool.false_ne_true, if_neg (by omega), if_neg (by omega)]
      rw [List.foldlM_cons, put, Page.type_cons]
      exact ih _ others

/-- **A call of a document goes on with what is typed.** -/
theorem Writes.handled (isBase : IsBase base) (writes : Writes base typing state display)
    (document : DocumentCall state.encodings call after codes)
    (typed : codes.foldlM (TypedPage.code base.cols) typing = some next) {reaction : Reaction}
    (done : state.handle call = some reaction) :
    Writes base next reaction.1 (reaction.2.foldl Display.call display) := by
  obtain ⟨page, returned⟩ := typing
  cases document with
  | text decodes plain =>
      obtain ⟨encodings, codepoints, called, put⟩ := handle_text done
      rw [decodes] at called
      obtain ⟨rfl, rfl⟩ := Prod.mk.inj (Option.some.inj called)
      have decoded : Writes base ⟨page, returned⟩ { state with encodings := after } display :=
        ⟨⟨writes.placed.size, writes.placed.region, writes.placed.modes, writes.placed.row⟩,
          writes.cursor, writes.display⟩
      cases returned with
      | false =>
          rw [foldlM_code_plain _ _ plain] at typed
          obtain rfl := Option.some.inj typed
          exact decoded.text isBase plain put
      | true =>
          -- no text comes between a carriage return and its line feed
          cases codes with
          | nil =>
              obtain rfl := Option.some.inj typed
              obtain rfl := Option.some.inj put
              exact decoded
          | cons code codes =>
              have high : ¬ code < 32 := fun low =>
                (plain code List.mem_cons_self).visible.2 (.inl low)
              rw [List.foldlM_cons, TypedPage.code, if_pos rfl, if_neg (by omega)] at typed
              cases typed
  | carriageReturn =>
      cases returned with
      | false =>
          obtain rfl := Option.some.inj typed
          exact writes.carriageReturn done
      | true => cases typed
  | lineFeed =>
      cases returned with
      | false => cases typed
      | true =>
          obtain rfl := Option.some.inj typed
          exact writes.lineFeed isBase done

/-- The calls of a document are careful. -/
theorem DocumentCall.careful (document : DocumentCall state.encodings call after codes)
    (sound : state.Sound) : state.Careful call := by
  cases document with
  | text decodes plain =>
      obtain ⟨⟨encodings, codepoints, eaten⟩, decoded, same⟩ := Option.map_eq_some_iff.mp decodes
      obtain ⟨rfl, rfl⟩ := Prod.mk.inj same
      refine ⟨_, _, eaten, decoded, fun code member => (plain code member).visible, ?_, ?_⟩
      · have none_ : codepoints.takeWhile vtermUnicodeIsCombining = [] := by
          cases codepoints with
          | nil => rfl
          | cons code rest =>
              exact List.takeWhile_cons_of_neg (by rw [(plain code List.mem_cons_self).alone]; simp)
        rw [none_, List.append_nil]
        exact sound.kept.short
      · intro glyph member
        rw [glyphsOf_plain plain] at member
        obtain ⟨code, -, rfl⟩ := List.mem_map.mp member
        exact (List.length_singleton).trans_lt (by decide)
  | carriageReturn => trivial
  | lineFeed => trivial

/-- The character sets behind a call of a document. -/
theorem DocumentCall.encodings (document : DocumentCall state.encodings call after codes)
    {reaction : Reaction} (done : state.handle call = some reaction) :
    reaction.1.encodings = after := by
  obtain ⟨codepoints, called⟩ := handle_encodings done
  cases document with
  | text decodes plain =>
      rw [decodes] at called
      exact (Prod.mk.inj (Option.some.inj called)).1.symm
  | carriageReturn => exact (Prod.mk.inj (Option.some.inj called)).1.symm
  | lineFeed => exact (Prod.mk.inj (Option.some.inj called)).1.symm

end Calls

/-- The terminal displays what is typed. -/
structure Terminal.Types {rows cols : Nat} (terminal : Terminal rows cols) (base : Display)
    (typing : TypedPage) : Prop where
  sound : terminal.Sound
  writes : ∃ display, terminal.Carries display ∧ Writes base typing terminal.state display

/-- **A call of a document** is carried out. -/
theorem Terminal.Types.push {rows cols : Nat} {terminal : Terminal rows cols} {base : Display}
    {typing next : TypedPage} {call : ParserCall} {after : Encodings} {codes : List Nat}
    (isBase : IsBase base) (types : terminal.Types base typing)
    (document : DocumentCall terminal.state.encodings call after codes)
    (typed : codes.foldlM (TypedPage.code base.cols) typing = some next) :
    ∃ last, terminal.push call = some last ∧ last.Types base next ∧
      last.state.encodings = after := by
  obtain ⟨sound, display, carries, writes⟩ := types
  obtain ⟨last, reaction, pushed, handled, same, held, shows⟩ :=
    sound.push_carries carries (document.careful sound.state)
  have goes := writes.handled isBase document typed handled
  refine ⟨last, pushed, ⟨held, _, shows, ?_⟩, ?_⟩
  · rw [same]
    exact goes
  · rw [same]
    exact document.encodings handled

/-- The display of the start: both buffers are blank, and the pen has the default colors. -/
def startDisplay (rows cols : Nat) : Display :=
  let pen : ScreenPen := ⟨(vtermStateNew rows cols).defaultFg, (vtermStateNew rows cols).defaultBg,
    false, 0, false, false, false, false, 0⟩
  { Display.new rows cols with
    primary := ofRows rows cols (.blank pen) []
    pen := pen }

theorem isBase_startDisplay {rows cols : Nat} (high : 2 ≤ rows) (wide : 3 ≤ cols) :
    IsBase (startDisplay rows cols) := ⟨high, wide, rfl⟩

/-- A page without text leaves a blank display as it is. -/
theorem pageDisplay_blank {rows : Nat} (cols : Nat) (positive : 0 < rows) :
    pageDisplay (startDisplay rows cols) Page.blank = startDisplay rows cols := by
  have here : rowsGone rows Page.blank = 0 := by
    unfold rowsGone
    exact Nat.sub_eq_zero_of_le positive
  have size : (startDisplay rows cols).rows = rows := rfl
  unfold pageDisplay
  rw [size, here]
  have rest := ofRows_concat_nil rows cols (Look.blank (startDisplay rows cols).pen) []
  exact congrArg (fun primary => { startDisplay rows cols with primary := primary }) rest

/-- **The terminal starts** with a page without text. -/
theorem Terminal.start_types {rows cols : Nat} (size : UsualSize rows cols) (high : 2 ≤ rows)
    (wide : 3 ≤ cols) :
    ∃ terminal : Terminal rows cols, Terminal.start rows cols = some terminal ∧
      terminal.Types (startDisplay rows cols) ⟨Page.blank, false⟩ ∧
      terminal.state.encodings = (vtermStateNew rows cols).encodings.reset .usascii := by
  obtain ⟨terminal, reaction, begun, started, same, sound, carries⟩ :=
    Terminal.start_carries size
  obtain ⟨tabstops, -, -, reset⟩ := vtermStateStart_eq rows cols
  rw [started] at reset
  obtain rfl := Option.some.inj reset
  -- the reset tells the pen and erases the screen
  have blank : (penCalls (resetTo tabstops (vtermStateNew rows cols)).pen ++
      cursorCalls modeReset ++ [StateCall.erase (vtermStateNew rows cols).fullRect]).foldl
        Display.call (Display.new rows cols) = startDisplay rows cols := by
    have erased := change_all (vtermStateNew rows cols).fullRect.Contains rows cols
      (Look.blank (vtermStateNew rows cols).pen) (Look.blank (startDisplay rows cols).pen) []
      fun row col => Iff.rfl
    exact congrArg (fun primary => { startDisplay rows cols with primary := primary }) erased
  refine ⟨terminal, begun, ⟨sound, _, carries, ?_⟩, by rw [same]⟩
  rw [same]
  refine ⟨⟨⟨rfl, rfl⟩, ⟨rfl, rfl⟩, ⟨rfl, rfl⟩, ?_⟩, ?_, ?_⟩
  · have first : lastRow rows Page.blank = 0 := Nat.zero_sub _
    exact (congrArg Nat.cast first).symm
  · exact AtStart.atEnd (isBase_startDisplay high wide) rfl ⟨rfl, rfl⟩
  · rw [pageDisplay_blank cols size.rows.1]
    exact blank

end Hackterm
