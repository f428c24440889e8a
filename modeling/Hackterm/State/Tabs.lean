import Hackterm.Bits.Packed
import Hackterm.State.Basic
import Mathlib.Order.Bounds.Basic
import Mathlib.Order.Nat

/-! # Tab stops

The tab stops are bits of an array with a bit for each column. The array is read and written
like a set of columns (`Hackterm.TabStops`): setting, clearing, the reset and the change of
the number of columns are what they are for sets, and a tab goes to the next stop, or to the
last column where there is none (`Hackterm.tabOnce_forward`). Going back from in front of the
first stop reads outside the array (`Hackterm.tabOnce_backward`).
-/

namespace Hackterm

open Bits

/-- `set_col_tabstop`. A column outside the array is undefined. -/
def setColTabstop (tabstops : List UInt8) (col : Int) : Option (List UInt8) :=
  if col < 0 then none else setBit tabstops (col.toNat / 8) (col.toNat % 8) true

/-- `clear_col_tabstop`. -/
def clearColTabstop (tabstops : List UInt8) (col : Int) : Option (List UInt8) :=
  if col < 0 then none else setBit tabstops (col.toNat / 8) (col.toNat % 8) false

/-- `is_col_tabstop`. -/
def isColTabstop (tabstops : List UInt8) (col : Int) : Option Bool :=
  if col < 0 then none else bitAt tabstops (col.toNat / 8) (col.toNat % 8)

/-- The inner loop of `tab`, with a bound on its turns. -/
def tabOnce (tabstops : List UInt8) (cols : Nat) (direction : Int) : Nat → Int → Option Int
  | 0, col => some col
  | turns + 1, col =>
      if 0 ≤ col ∧ col < cols - 1 then
        (isColTabstop tabstops (col + direction)).bind fun stop =>
          if stop then some (col + direction)
          else tabOnce tabstops cols direction turns (col + direction)
      else some col

/-- `tab`. The inner loop makes fewer turns than there are columns. -/
def tab (tabstops : List UInt8) (cols : Nat) (direction : Int) : Nat → Int → Option Int
  | 0, col => some col
  | count + 1, col =>
      (tabOnce tabstops cols direction cols col).bind (tab tabstops cols direction count)

/-- The loop over the columns in `vterm_state_reset`. -/
def resetTabstops (tabstops : List UInt8) (cols : Nat) : Option (List UInt8) :=
  (List.range cols).foldlM (fun tabstops (col : Nat) =>
    if col % 8 = 0 then setColTabstop tabstops col else clearColTabstop tabstops col) tabstops

/-- The loop over the columns in `TBC`. -/
def clearTabstops (tabstops : List UInt8) (cols : Nat) : Option (List UInt8) :=
  (List.range cols).foldlM (fun tabstops (col : Nat) => clearColTabstop tabstops col) tabstops

/-- The new array of `on_resize`, in memory that was zero. -/
def resizeTabstops (tabstops : List UInt8) (oldCols cols : Nat) : Option (List UInt8) :=
  (List.range cols).foldlM (fun newtabstops (col : Nat) =>
    if col < oldCols then
      (isColTabstop tabstops col).bind fun stop =>
        if stop then setColTabstop newtabstops col else clearColTabstop newtabstops col
    else if col % 8 = 0 then setColTabstop newtabstops col
    else clearColTabstop newtabstops col) (List.replicate ((cols + 7) / 8) 0)

/-- The array has a bit for each column, and these are the columns whose bit is set. -/
structure TabStops (tabstops : List UInt8) (cols : Nat) (stops : Set Nat) : Prop where
  size : tabstops.length = (cols + 7) / 8
  bits : ∀ col < cols, isColTabstop tabstops col = some true ↔ col ∈ stops

/-- A column is written. -/
def putColTabstop (tabstops : List UInt8) (col : Int) (stop : Bool) : Option (List UInt8) :=
  if stop then setColTabstop tabstops col else clearColTabstop tabstops col

theorem putColTabstop_eq (tabstops : List UInt8) (col : Nat) (stop : Bool) :
    putColTabstop tabstops col stop = setBit tabstops (col / 8) (col % 8) stop := by
  unfold putColTabstop setColTabstop clearColTabstop
  cases stop <;> simp [show ¬ (col : Int) < 0 by omega]

theorem isColTabstop_eq (tabstops : List UInt8) (col : Nat) :
    isColTabstop tabstops col = bitAt tabstops (col / 8) (col % 8) := by
  simp [isColTabstop, show ¬ (col : Int) < 0 by omega]

variable {tabstops : List UInt8} {cols : Nat} {stops : Set Nat}

/-- The bits of all columns can be read. -/
theorem TabStops.read (held : TabStops tabstops cols stops) {col : Nat} (inside : col < cols) :
    ∃ stop, isColTabstop tabstops col = some stop ∧ (stop = true ↔ col ∈ stops) := by
  have within : col / 8 < tabstops.length := by
    rw [held.size]
    omega
  obtain ⟨stop, read⟩ : ∃ stop, isColTabstop tabstops col = some stop := by
    rw [isColTabstop_eq, bitAt, List.getElem?_eq_getElem within]
    exact ⟨_, rfl⟩
  have bit := held.bits col inside
  rw [read, Option.some.injEq] at bit
  exact ⟨stop, read, bit⟩

/-- Writing a column changes the set in this column only. -/
theorem TabStops.write (held : TabStops tabstops cols stops) {col : Nat} {stop : Bool}
    {written : List UInt8} (wrote : putColTabstop tabstops col stop = some written) :
    TabStops written cols {other | if other = col then stop = true else other ∈ stops} := by
  rw [putColTabstop_eq] at wrote
  refine ⟨by rw [(setBit_inside wrote).2, held.size], fun other below => ?_⟩
  rw [isColTabstop_eq, bitAt_setBit (Nat.mod_lt _ (by decide)) wrote, Set.mem_ofPred_eq]
  have same : (other / 8 = col / 8 ∧ other % 8 = col % 8) ↔ other = col := by omega
  simp only [same]
  split_ifs with here
  · rw [Option.some.injEq]
  · rw [← isColTabstop_eq]
    exact held.bits other below

/-- A column of the screen can be written. -/
theorem TabStops.put (held : TabStops tabstops cols stops) {col : Nat} (inside : col < cols)
    (stop : Bool) :
    ∃ written, putColTabstop tabstops col stop = some written ∧
      TabStops written cols {other | if other = col then stop = true else other ∈ stops} := by
  have within : col / 8 < tabstops.length := by
    rw [held.size]
    omega
  have wrote := (putColTabstop_eq tabstops col stop).trans (setBit_eq within (col % 8) stop)
  exact ⟨_, wrote, held.write wrote⟩

/-- **The loops over the columns** leave a set that is given column by column. -/
theorem TabStops.fold (held : TabStops tabstops cols stops) (keep : Nat → Bool) {count : Nat}
    (inside : count ≤ cols) :
    ∃ written, (List.range count).foldlM (fun tabstops (col : Nat) =>
        putColTabstop tabstops col (keep col)) tabstops = some written ∧
      TabStops written cols {col | if col < count then keep col = true else col ∈ stops} := by
  induction count with
  | zero =>
      refine ⟨tabstops, rfl, held.size, fun col below => ?_⟩
      rw [Set.mem_ofPred_eq, if_neg (Nat.not_lt_zero col)]
      exact held.bits col below
  | succ count ih =>
      obtain ⟨before, folded, stored⟩ := ih (by omega)
      obtain ⟨written, wrote, reached⟩ := stored.put (show count < cols by omega) (keep count)
      refine ⟨written, ?_, reached.size, fun col below => ?_⟩
      · rw [List.range_succ, List.foldlM_append, folded]
        simp only [bind, Option.bind_some, List.foldlM_cons, wrote, List.foldlM_nil]
        rfl
      · rw [reached.bits col below]
        simp only [Set.mem_ofPred_eq]
        rcases Nat.lt_trichotomy col count with less | rfl | more
        · rw [if_neg (by omega), if_pos less, if_pos (by omega)]
        · rw [if_pos rfl, if_pos (by omega)]
        · rw [if_neg (by omega), if_neg (by omega), if_neg (by omega)]

theorem TabStops.congr (held : TabStops tabstops cols stops) {other : Set Nat}
    (same : ∀ col < cols, col ∈ stops ↔ col ∈ other) : TabStops tabstops cols other :=
  ⟨held.size, fun col below => (held.bits col below).trans (same col below)⟩

/-- A reset leaves a stop in every eighth column. -/
theorem TabStops.reset (held : TabStops tabstops cols stops) :
    ∃ written, resetTabstops tabstops cols = some written ∧
      TabStops written cols {col | col % 8 = 0} := by
  obtain ⟨written, folded, stored⟩ := held.fold (fun col => col % 8 = 0) le_rfl
  refine ⟨written, ?_, stored.congr fun col below => ?_⟩
  · rw [← folded, resetTabstops]
    congr 1
    funext tabstops col
    by_cases eighth : col % 8 = 0 <;> simp [putColTabstop, eighth]
  · simp [below]

/-- `TBC` clears all columns. -/
theorem TabStops.clear (held : TabStops tabstops cols stops) :
    ∃ written, clearTabstops tabstops cols = some written ∧ TabStops written cols ∅ := by
  obtain ⟨written, folded, stored⟩ := held.fold (fun _ => false) le_rfl
  refine ⟨written, folded, stored.congr fun col below => ?_⟩
  simp [below]

/-- A new number of columns keeps the stops in the columns there were, and adds one in every
eighth column behind them. -/
theorem TabStops.resize (held : TabStops tabstops cols stops) (newCols : Nat) :
    ∃ written, resizeTabstops tabstops cols newCols = some written ∧
      TabStops written newCols
        {col | if col < cols then col ∈ stops else col % 8 = 0} := by
  have blank : TabStops (List.replicate ((newCols + 7) / 8) 0) newCols ∅ := by
    refine ⟨List.length_replicate, fun col below => ?_⟩
    rw [isColTabstop_eq, bitAt_replicate (by omega)]
    simp
  obtain ⟨written, folded, stored⟩ := blank.fold (fun col =>
    if col < cols then isColTabstop tabstops col == some true else col % 8 = 0) le_rfl
  refine ⟨written, ?_, stored.congr fun col below => ?_⟩
  · rw [← folded, resizeTabstops]
    congr 1
    funext newtabstops col
    split_ifs with old eighth
    · obtain ⟨stop, read, -⟩ := held.read old
      rw [read]
      cases stop <;> rfl
    · simp [putColTabstop, eighth]
    · simp [putColTabstop, eighth]
  · rw [Set.mem_ofPred_eq, if_pos below]
    split_ifs with old
    · simpa [old] using held.bits col old
    · simp [old]

/-- Where a tab goes: the next stop, or the last column. -/
def IsTabTarget (stops : Set Nat) (cols col : Nat) (target : Nat) : Prop :=
  IsLeast {other | col < other ∧ (other ∈ stops ∧ other < cols ∨ other + 1 = cols)} target

/-- **A tab goes to the next stop**, or to the last column where no stop follows. In the last
column the cursor stays. -/
theorem tabOnce_forward (held : TabStops tabstops cols stops) (turns col : Nat)
    (inside : col < cols) (enough : cols ≤ col + turns) :
    ∃ target : Nat, tabOnce tabstops cols 1 turns col = some (target : Int) ∧ target < cols ∧
      (if col + 1 = cols then target = col else IsTabTarget stops cols col target) := by
  induction turns generalizing col with
  | zero => omega
  | succ turns ih =>
      rw [tabOnce]
      by_cases last : col + 1 = cols
      · rw [if_neg (by omega)]
        simp only [if_pos last]
        exact ⟨col, rfl, inside, rfl⟩
      · rw [if_pos (by omega)]
        simp only [if_neg last]
        obtain ⟨stop, read, bit⟩ := held.read (show col + 1 < cols by omega)
        rw [Nat.cast_add, Nat.cast_one] at read
        rw [read, Option.bind_some]
        cases stop with
        | true =>
            refine ⟨col + 1, rfl, by omega, ⟨by omega, .inl ⟨bit.mp rfl, by omega⟩⟩, ?_⟩
            intro other behind
            exact behind.1
        | false =>
            obtain ⟨target, goes, within, next⟩ := ih (col + 1) (by omega) (by omega)
            rw [Nat.cast_add, Nat.cast_one] at goes
            refine ⟨target, goes, within, ?_⟩
            have skipped : col + 1 ∉ stops := fun member => absurd (bit.mpr member) (by decide)
            split_ifs at next with reached
            · -- the last column is reached
              subst next
              exact ⟨⟨by omega, .inr reached⟩, fun other behind => behind.1⟩
            · refine ⟨⟨Nat.lt_trans (Nat.lt_succ_self col) next.1.1, next.1.2⟩, ?_⟩
              intro other behind
              apply next.2
              refine ⟨?_, behind.2⟩
              rcases Nat.lt_or_eq_of_le (show col + 1 ≤ other from behind.1) with more | rfl
              · exact more
              · rcases behind.2 with stop | last
                · exact absurd stop.1 skipped
                · omega

/-- An array of the size for the columns holds the set of its bits. -/
theorem tabStops_of_length (size : tabstops.length = (cols + 7) / 8) :
    TabStops tabstops cols {col | isColTabstop tabstops col = some true} :=
  ⟨size, fun _ _ => Iff.rfl⟩

/-- Tabs stay in the screen. -/
theorem tab_forward (held : TabStops tabstops cols stops) (count col : Nat) (inside : col < cols) :
    ∃ target : Nat, tab tabstops cols 1 count col = some (target : Int) ∧ target < cols := by
  induction count generalizing col with
  | zero => exact ⟨col, rfl, inside⟩
  | succ count ih =>
      obtain ⟨next, once, within, -⟩ := tabOnce_forward held cols col inside (by omega)
      obtain ⟨target, rest, below⟩ := ih next within
      exact ⟨target, by rw [tab, once, Option.bind_some, rest], below⟩

/-- How many stops there are in front of a column. -/
def stopsBefore (tabstops : List UInt8) (col : Nat) : Nat :=
  (List.range col).countP fun stop : Nat => isColTabstop tabstops stop = some true

theorem stopsBefore_succ (tabstops : List UInt8) (col : Nat) :
    stopsBefore tabstops (col + 1) =
      stopsBefore tabstops col + if isColTabstop tabstops col = some true then 1 else 0 := by
  unfold stopsBefore
  rw [List.range_succ, List.countP_append, List.countP_singleton]
  congr 1
  by_cases stop : isColTabstop tabstops col = some true <;> simp [stop]

/-- A tab backwards passes one stop. -/
theorem tabOnce_passes (held : TabStops tabstops cols stops) (turns col : Nat)
    (inside : col + 1 < cols) (enough : col < turns) (some_ : 0 < stopsBefore tabstops col) :
    ∃ target : Nat, tabOnce tabstops cols (-1) turns col = some (target : Int) ∧ target < col ∧
      stopsBefore tabstops target + 1 = stopsBefore tabstops col := by
  induction turns generalizing col with
  | zero => omega
  | succ turns ih =>
      cases col with
      | zero => exact absurd some_ (Nat.lt_irrefl 0)
      | succ col =>
          have before : (((col + 1 : Nat) : Int) + -1) = (col : Int) := by omega
          obtain ⟨stop, read, -⟩ := held.read (show col < cols by omega)
          rw [stopsBefore_succ, read] at some_ ⊢
          rw [tabOnce, if_pos (by omega), before, read, Option.bind_some]
          cases stop with
          | true => exact ⟨col, rfl, Nat.lt_succ_self col, rfl⟩
          | false =>
              obtain ⟨target, goes, less, count⟩ := ih col (by omega) (by omega) some_
              exact ⟨target, goes, Nat.lt_succ_of_lt less, count⟩

/-- Tabs backwards over so many stops stay in the screen. -/
theorem tab_back (held : TabStops tabstops cols stops) (count col : Nat) (inside : col < cols)
    (enough : col + 1 = cols ∨ count ≤ stopsBefore tabstops col) :
    ∃ target : Nat, tab tabstops cols (-1) count col = some (target : Int) ∧ target < cols := by
  induction count generalizing col with
  | zero => exact ⟨col, rfl, inside⟩
  | succ count ih =>
      by_cases last : col + 1 = cols
      · obtain ⟨target, rest, below⟩ := ih col inside (.inl last)
        have stays : ∀ turns, tabOnce tabstops cols (-1) turns col = some (col : Int) := by
          intro turns
          cases turns with
          | zero => rfl
          | succ turns => rw [tabOnce, if_neg (by omega)]
        exact ⟨target, by rw [tab, stays, Option.bind_some, rest], below⟩
      · have passed := enough.resolve_left last
        obtain ⟨next, once, less, fewer⟩ :=
          tabOnce_passes held cols col (by omega) inside (by omega)
        obtain ⟨target, rest, below⟩ := ih next (by omega) (.inr (by omega))
        exact ⟨target, by rw [tab, once, Option.bind_some, rest], below⟩

/-- **A tab backwards goes to the stop before.** Where there is none, it reads in front of
the array. In the last column the cursor stays. -/
theorem tabOnce_backward (held : TabStops tabstops cols stops) (turns col : Nat)
    (inside : col + 1 < cols) (enough : col < turns) :
    (∀ target : Nat, tabOnce tabstops cols (-1) turns col = some (target : Int) ↔
      IsGreatest {other | other < col ∧ other ∈ stops} target) ∧
      (tabOnce tabstops cols (-1) turns col = none ↔ ∀ other < col, other ∉ stops) := by
  induction turns generalizing col with
  | zero => omega
  | succ turns ih =>
      rw [tabOnce, if_pos (by omega)]
      cases col with
      | zero =>
          have outside : isColTabstop tabstops (((0 : Nat) : Int) + -1) = none := rfl
          rw [outside]
          simp [IsGreatest]
      | succ col =>
          obtain ⟨stop, read, bit⟩ := held.read (show col < cols by omega)
          have before : (((col + 1 : Nat) : Int) + -1) = (col : Int) := by omega
          rw [before, read, Option.bind_some]
          cases stop with
          | true =>
              have member := bit.mp rfl
              have greatest : IsGreatest {other | other < col + 1 ∧ other ∈ stops} col :=
                ⟨⟨Nat.lt_succ_self col, member⟩, fun other behind => Nat.le_of_lt_succ behind.1⟩
              refine ⟨fun target => ⟨fun same => ?_, fun other => ?_⟩, ?_⟩
              · obtain rfl : col = target := by simpa using same
                exact greatest
              · rw [greatest.unique other]
                rfl
              · constructor
                · intro missing
                  cases missing
                · intro missing
                  exact absurd member (missing col (Nat.lt_succ_self col))
          | false =>
              have skipped : col ∉ stops := fun member => absurd (bit.mpr member) (by decide)
              obtain ⟨found, missing⟩ := ih col (by omega) (by omega)
              have same : {other | other < col + 1 ∧ other ∈ stops} =
                  {other | other < col ∧ other ∈ stops} := by
                ext other
                simp only [Set.mem_ofPred_eq]
                constructor
                · rintro ⟨below, member⟩
                  refine ⟨?_, member⟩
                  rcases Nat.lt_or_eq_of_le (Nat.le_of_lt_succ below) with less | rfl
                  · exact less
                  · exact absurd member skipped
                · rintro ⟨below, member⟩
                  exact ⟨by omega, member⟩
              rw [same]
              refine ⟨found, missing.trans ⟨fun none other below => ?_, fun none other below => ?_⟩⟩
              · rcases Nat.lt_or_eq_of_le (Nat.le_of_lt_succ below) with less | rfl
                · exact none other less
                · exact skipped
              · exact none other (by omega)

end Hackterm
