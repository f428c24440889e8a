import Mathlib.Data.List.Basic

/-! # Memo tables

A memo table keeps what a function returned, each entry under the key it was made
for. A table whose entries are all right answers with the function's own value,
whether the key was in it or not (`Memo.Sound.fetch_value`), and is left with right
entries only (`Memo.Sound.fetch_table`).
-/

namespace Memo

variable {Key Entry Value : Type*}

/-- Every entry holds the function's value at its key. -/
def Sound (key : Entry → Key) (value : Entry → Value) (function : Key → Option Value)
    (table : List Entry) : Prop :=
  ∀ entry ∈ table, function (key entry) = some (value entry)

/-- Entries are made for the key that is asked for, with the function's value. -/
def Makes (key : Entry → Key) (value : Entry → Value) (function : Key → Option Value)
    (make : Key → Option Entry) : Prop :=
  ∀ wanted, (make wanted).map (fun entry => (key entry, value entry)) =
    (function wanted).map fun result => (wanted, result)

section Fetch

variable {key : Entry → Key} {value : Entry → Value} {function : Key → Option Value}
  {make : Key → Option Entry} {table : List Entry} {wanted : Key}

theorem sound_nil : Sound key value function [] := fun _ member => absurd member List.not_mem_nil

/-- What is made has the function's value. -/
theorem Makes.map_value (makes : Makes key value function make) :
    (make wanted).map value = function wanted := by
  have made := congrArg (Option.map Prod.snd) (makes wanted)
  rw [Option.map_map, Option.map_map] at made
  exact made.trans Option.map_id'

/-- An entry that is made is right. -/
theorem Makes.sound (makes : Makes key value function make) {entry : Entry}
    (made : make wanted = some entry) : function (key entry) = some (value entry) := by
  have spec := makes wanted
  rw [made, Option.map_some] at spec
  obtain ⟨result, returned, same⟩ := Option.map_eq_some_iff.mp spec.symm
  obtain ⟨rfl, rfl⟩ := Prod.mk.inj same
  exact returned

variable [DecidableEq Key]

/-- The entry of a key. -/
def find (key : Entry → Key) (table : List Entry) (wanted : Key) : Option Entry :=
  table.find? fun entry => key entry = wanted

/-- The entry of a key, made if the table has none, and the table that then holds it. -/
def fetch (key : Entry → Key) (make : Key → Option Entry) (table : List Entry) (wanted : Key) :
    Option (List Entry × Entry) :=
  match find key table wanted with
  | some entry => some (table, entry)
  | none => (make wanted).map fun entry => (table ++ [entry], entry)

/-- What is found holds the function's value at the wanted key. -/
theorem Sound.find_value (sound : Sound key value function table) {entry : Entry}
    (found : find key table wanted = some entry) : function wanted = some (value entry) := by
  unfold find at found
  have same := List.find?_some found
  rw [← of_decide_eq_true same]
  exact sound entry (List.mem_of_find?_eq_some found)

/-- **A memo table computes its function.** -/
theorem Sound.fetch_value (sound : Sound key value function table)
    (makes : Makes key value function make) :
    (fetch key make table wanted).map (fun fetched => value fetched.2) = function wanted := by
  unfold fetch
  split
  · next entry found => exact (sound.find_value found).symm
  · rw [Option.map_map]
    exact makes.map_value

/-- **A memo table stays right.** -/
theorem Sound.fetch_table (sound : Sound key value function table)
    (makes : Makes key value function make) {after : List Entry} {entry : Entry}
    (fetched : fetch key make table wanted = some (after, entry)) :
    Sound key value function after := by
  unfold fetch at fetched
  split at fetched
  · obtain ⟨rfl, -⟩ := Prod.mk.inj (Option.some.inj fetched)
    exact sound
  · obtain ⟨made, making, same⟩ := Option.map_eq_some_iff.mp fetched
    obtain ⟨rfl, rfl⟩ := Prod.mk.inj same
    intro other member
    rcases List.mem_append.mp member with old | new
    · exact sound other old
    · rw [List.mem_singleton.mp new]
      exact makes.sound making

end Fetch

end Memo
