import Mathlib.Algebra.BigOperators.Group.List.Basic
import Mathlib.Algebra.Ring.Nat

/-! # Text in rows

Pieces of different widths are typed into rows of a fixed width (`Layout.Page`). A piece goes
to a new row when the row before it is full; it is not asked whether the piece fits into what
is left of the row. Typing lines one below the other leaves the rows that each line is wrapped
into (`Layout.Page.rows_typeLines`).
-/

namespace Layout

variable {α : Type*} (columns : α → Nat) (width : Nat)

/-- The columns that a row takes. -/
def filled (row : List α) : Nat := (row.map columns).sum

theorem filled_nil : filled columns [] = 0 := rfl

theorem filled_concat (row : List α) (piece : α) :
    filled columns (row ++ [piece]) = filled columns row + columns piece := by
  unfold filled
  rw [List.map_append, List.sum_append, List.map_singleton, List.sum_singleton]

/-- The rows of pieces behind a row that is begun. -/
def wrapFrom (row : List α) : List α → List (List α)
  | [] => [row]
  | piece :: rest =>
      if width ≤ filled columns row then row :: wrapFrom [piece] rest
      else wrapFrom (row ++ [piece]) rest

/-- The rows of a line. -/
def wrap (line : List α) : List (List α) := wrapFrom columns width [] line

/-- Every piece of the row begins in front of the width: the last one does. -/
def Begins (row : List α) : Prop :=
  ∀ front piece, row = front ++ [piece] → filled columns front < width

theorem begins_nil : Begins columns width [] := by
  intro front piece same
  exact absurd same.symm (List.append_ne_nil_of_right_ne_nil _ (List.cons_ne_nil _ _))

theorem begins_concat {row : List α} {piece : α} (room : filled columns row < width) :
    Begins columns width (row ++ [piece]) := by
  intro front other same
  obtain ⟨rfl, -⟩ := List.append_inj' same rfl
  exact room

/-- No piece is lost in wrapping. -/
theorem flatten_wrapFrom (row line : List α) :
    (wrapFrom columns width row line).flatten = row ++ line := by
  induction line generalizing row with
  | nil => rw [wrapFrom, List.flatten_singleton, List.append_nil]
  | cons piece rest ih =>
      rw [wrapFrom]
      split_ifs
      · rw [List.flatten_cons, ih, List.singleton_append]
      · rw [ih, List.append_assoc, List.singleton_append]

/-- The pieces of wrapped rows begin in front of the width. -/
theorem begins_of_mem_wrapFrom (positive : 0 < width) {row line : List α}
    (begins : Begins columns width row) :
    ∀ wrapped ∈ wrapFrom columns width row line, Begins columns width wrapped := by
  induction line generalizing row with
  | nil =>
      intro wrapped member
      rw [List.mem_singleton.mp member]
      exact begins
  | cons piece rest ih =>
      intro wrapped member
      rw [wrapFrom] at member
      split_ifs at member with full
      · rcases List.mem_cons.mp member with rfl | behind
        · exact begins
        · exact ih (@begins_concat _ columns width [] piece positive) wrapped behind
      · exact ih (begins_concat columns width (Nat.not_le.mp full)) wrapped member

/-- The rows that are finished, and the one that is typed. -/
structure Page (α : Type*) where
  done : List (List α)
  last : List α

namespace Page

/-- A page without text. -/
def blank : Page α := ⟨[], []⟩

/-- All rows. -/
def rows (page : Page α) : List (List α) := page.done ++ [page.last]

/-- A row is begun. -/
def newline (page : Page α) : Page α := ⟨page.rows, []⟩

/-- A piece behind the last row. -/
def append (page : Page α) (piece : α) : Page α := ⟨page.done, page.last ++ [piece]⟩

/-- A piece is typed. -/
def put (page : Page α) (piece : α) : Page α :=
  if width ≤ filled columns page.last then page.newline.append piece else page.append piece

/-- Pieces are typed. -/
def type (page : Page α) (pieces : List α) : Page α := pieces.foldl (put columns width) page

/-- Lines are typed, each but the first behind a new line. -/
def typeLines (page : Page α) (first : List α) : List (List α) → Page α
  | [] => page.type columns width first
  | next :: more => (page.type columns width first).newline.typeLines next more

theorem type_cons (page : Page α) (piece : α) (pieces : List α) :
    page.type columns width (piece :: pieces) =
      (page.put columns width piece).type columns width pieces := rfl

/-- The rows behind pieces that are typed. -/
theorem rows_type (page : Page α) (pieces : List α) :
    (page.type columns width pieces).rows =
      page.done ++ wrapFrom columns width page.last pieces := by
  induction pieces generalizing page with
  | nil => rfl
  | cons piece pieces ih =>
      rw [type_cons, ih, wrapFrom, put]
      split_ifs
      · rw [newline, append, rows, List.nil_append, List.append_assoc, List.singleton_append]
      · rfl

/-- **The rows of lines that are typed** are those each line is wrapped into. -/
theorem rows_typeLines (page : Page α) (first : List α) (more : List (List α)) :
    (page.typeLines columns width first more).rows =
      page.done ++ wrapFrom columns width page.last first ++
        more.flatMap (wrap columns width) := by
  induction more generalizing page first with
  | nil => rw [typeLines, rows_type, List.flatMap_nil, List.append_nil]
  | cons next more ih =>
      rw [typeLines, ih, newline, rows_type, List.flatMap_cons, List.append_assoc]
      rfl

end Page

end Layout
