import Hackterm.CString.Basic

/-! # String functions of the C library over a flat memory

Memory is a list of bytes, and a pointer is an offset into it. Reading behind the
last byte is undefined, which is `none`. A delimiter that stands behind a token
free of it is found and wiped by `strsep`, and nothing else changes
(`CString.strsep_token`); in a memory without NUL from the pointer on, the
function finds its delimiter or leaves the memory (`CString.strsep_noNul`).
-/

namespace CString

/-- `strsep` with a single delimiter: look for the delimiter or NUL from the pointer
on. A delimiter is overwritten with NUL, and the pointer set behind it; at NUL the
pointer is set to the null pointer. -/
def strsep (memory : List UInt8) (pointer : Nat) (delim : UInt8) :
    Option (List UInt8 × Option Nat) :=
  match (memory.drop pointer).findIdx? fun byte => byte == delim || byte == 0 with
  | none => none
  | some n =>
      if memory[pointer + n]? = some 0 then some (memory, none)
      else some (memory.set (pointer + n) 0, some (pointer + n + 1))

/-- The place where `strsep` finds its delimiter, if it does so before a NUL. -/
def delimPlace (memory : List UInt8) (pointer : Nat) (delim : UInt8) : Option Nat :=
  ((memory.drop pointer).findIdx? fun byte => byte == delim || byte == 0).bind fun n =>
    if memory[pointer + n]? = some 0 then none else some (pointer + n)

/-- The string that starts at the pointer lacks the delimiter. -/
def Missing (memory : List UInt8) (pointer : Nat) (delim : UInt8) : Prop :=
  delimPlace memory pointer delim = none ∧ 0 ∈ memory.drop pointer

/-- The memory with a NUL at each of the places. -/
def wipe (memory : List UInt8) (places : List Nat) : List UInt8 :=
  places.foldl (fun memory place => memory.set place 0) memory

/-- The string that starts with the first byte of a memory, up to its NUL. -/
def read : List UInt8 → Option (List UInt8)
  | [] => none
  | byte :: bytes => if byte = 0 then some [] else (read bytes).map (byte :: ·)

/-- Whether `strncmp` finds the first bytes of a memory equal to a literal. It looks
no further than the first difference. -/
def strncmp : List UInt8 → List UInt8 → Option Bool
  | _, [] => some true
  | [], _ :: _ => none
  | byte :: bytes, char :: literal => if byte = char then strncmp bytes literal else some false

section Tokens

variable {delim : UInt8} {token back : List UInt8}

/-- The delimiter behind a token is wiped. -/
theorem strsep_token (front token back : List UInt8) (notNul : delim ≠ 0) (free : delim ∉ token)
    (clean : 0 ∉ token) {pointer : Nat} (start : front.length = pointer) :
    strsep (front ++ token ++ delim :: back) pointer delim =
      some (front ++ token ++ 0 :: back, some (pointer + token.length + 1)) := by
  subst start
  have found : ((front ++ token ++ delim :: back).drop front.length).findIdx?
      (fun byte => byte == delim || byte == 0) = some token.length := by
    rw [List.append_assoc, List.drop_left, List.findIdx?_append,
      List.findIdx?_eq_none_iff.mpr (by grind)]
    simp [List.findIdx?_cons]
  rw [strsep, found, ← List.length_append]
  simp [notNul]

/-- The search wipes the delimiter it finds, and nothing else. -/
theorem strsep_wipes {memory wiped : List UInt8} {pointer : Nat} {found : Option Nat}
    (searched : strsep memory pointer delim = some (wiped, found)) :
    wiped = wipe memory (delimPlace memory pointer delim).toList ∧
      found = (delimPlace memory pointer delim).map (· + 1) := by
  rw [strsep] at searched
  rw [delimPlace]
  split at searched
  · cases searched
  · rename_i n located
    rw [located, Option.bind_some]
    split at searched
    · rename_i nul
      obtain ⟨rfl, rfl⟩ := Prod.mk.inj (Option.some.inj searched)
      rw [if_pos nul]
      exact ⟨rfl, rfl⟩
    · rename_i notNul
      obtain ⟨rfl, rfl⟩ := Prod.mk.inj (Option.some.inj searched)
      rw [if_neg notNul]
      exact ⟨rfl, rfl⟩

/-- The delimiter that is found is the first one, and no NUL stands before it. -/
theorem delimPlace_spec {memory : List UInt8} {pointer place : Nat}
    (found : delimPlace memory pointer delim = some place) :
    pointer ≤ place ∧ memory[place]? = some delim ∧ delim ≠ 0 ∧
      ∀ i, pointer ≤ i → i < place → memory[i]? ≠ some 0 := by
  obtain ⟨n, located, within⟩ := Option.bind_eq_some_iff.mp found
  obtain ⟨inside, hit, before⟩ := List.findIdx?_eq_some_iff_getElem.mp located
  have here : memory[pointer + n]? = some (memory.drop pointer)[n] := by
    rw [← List.getElem?_drop, List.getElem?_eq_getElem inside]
  split at within
  · cases within
  · rename_i notNul
    obtain rfl := Option.some.inj within
    have isDelim : (memory.drop pointer)[n] = delim := by
      rcases Bool.or_eq_true_iff.mp hit with same | nul
      · exact eq_of_beq same
      · exact absurd (here.trans (congrArg some (eq_of_beq nul))) notNul
    rw [here, isDelim] at notNul
    refine ⟨Nat.le_add_right _ _, by rw [here, isDelim], fun nul => notNul (congrArg some nul), ?_⟩
    intro i above below nul
    have earlier := before (i - pointer) (by omega)
    have within : i - pointer < (memory.drop pointer).length := by omega
    have there : memory[i]? = some (memory.drop pointer)[i - pointer] := by
      rw [← List.getElem?_eq_getElem, List.getElem?_drop, Nat.add_sub_cancel' above]
    rw [there] at nul
    rw [Option.some.inj nul] at earlier
    simp at earlier

theorem strsep_found {memory : List UInt8} {pointer place : Nat}
    (found : delimPlace memory pointer delim = some place) :
    strsep memory pointer delim = some (memory.set place 0, some (place + 1)) := by
  obtain ⟨n, located, within⟩ := Option.bind_eq_some_iff.mp found
  split at within
  · cases within
  · rename_i notNul
    obtain rfl := Option.some.inj within
    simp only [strsep, located, if_neg notNul]

/-- The search ends without a delimiter exactly if the string lacks it. -/
theorem strsep_missing_iff {memory wiped : List UInt8} {pointer : Nat} :
    strsep memory pointer delim = some (wiped, none) ↔
      wiped = memory ∧ Missing memory pointer delim := by
  constructor
  · intro searched
    obtain ⟨same, found⟩ := strsep_wipes searched
    have none_ : delimPlace memory pointer delim = none := Option.map_eq_none_iff.mp found.symm
    rw [none_] at same
    refine ⟨same, none_, ?_⟩
    rw [strsep] at searched
    split at searched
    · cases searched
    · rename_i n located
      split at searched
      · rename_i nul
        exact List.mem_of_getElem? (List.getElem?_drop ▸ nul)
      · cases searched
  · rintro ⟨rfl, none_, nul⟩
    rw [strsep]
    rw [delimPlace] at none_
    split
    · rename_i located
      have clean := List.findIdx?_eq_none_iff.mp located 0 nul
      simp at clean
    · rename_i n located
      rw [located, Option.bind_some] at none_
      split at none_
      · rename_i here
        rw [if_pos here]
      · cases none_

/-- A search does not depend on what stands before the memory it looks at. -/
theorem strsep_append (front memory : List UInt8) (pointer : Nat) (delim : UInt8) :
    strsep (front ++ memory) (front.length + pointer) delim =
      (strsep memory pointer delim).map fun searched =>
        (front ++ searched.1, searched.2.map (front.length + ·)) := by
  rw [strsep, strsep, List.drop_length_add_append]
  cases (memory.drop pointer).findIdx? fun byte => byte == delim || byte == 0 with
  | none => rfl
  | some n =>
      have read : (front ++ memory)[front.length + pointer + n]? = memory[pointer + n]? := by
        rw [Nat.add_assoc, List.getElem?_append_right (Nat.le_add_right _ _),
          Nat.add_sub_cancel_left]
      dsimp only
      rw [read]
      split
      · rfl
      · rw [Nat.add_assoc, List.set_append_right _ _ (Nat.le_add_right _ _),
          Nat.add_sub_cancel_left]
        rfl

/-- Bytes before the pointer do not matter for the search. -/
theorem delimPlace_set {memory : List UInt8} {pointer place : Nat} (before : place < pointer)
    (byte : UInt8) :
    delimPlace (memory.set place byte) pointer delim = delimPlace memory pointer delim := by
  have same (n : Nat) : (memory.set place byte)[pointer + n]? = memory[pointer + n]? := by
    rw [List.getElem?_set_ne (by omega)]
  rw [delimPlace, delimPlace, List.drop_set_of_lt before]
  simp only [same]

/-- The pointer is set behind the place where the search started. -/
theorem strsep_advances {memory wiped : List UInt8} {pointer next : Nat}
    (searched : strsep memory pointer delim = some (wiped, some next)) : pointer < next := by
  obtain ⟨-, found⟩ := strsep_wipes searched
  obtain ⟨place, located, reached⟩ := Option.map_eq_some_iff.mp found.symm
  rw [← reached]
  exact Nat.lt_succ_of_le (delimPlace_spec located).1

/-- Without a NUL from the pointer on, the search wipes a delimiter there or leaves
the memory. -/
theorem strsep_noNul {memory wiped : List UInt8} {pointer : Nat} {found : Option Nat}
    (clean : 0 ∉ memory.drop pointer)
    (searched : strsep memory pointer delim = some (wiped, found)) :
    ∃ place, pointer ≤ place ∧ memory[place]? = some delim ∧ wiped = memory.set place 0 ∧
      found = some (place + 1) := by
  obtain ⟨rfl, rfl⟩ := strsep_wipes searched
  cases located : delimPlace memory pointer delim with
  | none =>
      rw [located] at searched
      exact absurd (strsep_missing_iff.mp searched).2.2 clean
  | some place =>
      obtain ⟨behind, here, -⟩ := delimPlace_spec located
      exact ⟨place, behind, here, rfl, rfl⟩

@[simp] theorem wipe_some (memory : List UInt8) (place : Nat) :
    wipe memory (some place).toList = memory.set place 0 := rfl

@[simp] theorem length_wipe (memory : List UInt8) (places : List Nat) :
    (wipe memory places).length = memory.length := by
  induction places generalizing memory with
  | nil => rfl
  | cons place places ih => exact (ih _).trans List.length_set

/-- Only the places are wiped. -/
theorem getElem?_wipe (memory : List UInt8) (places : List Nat) (i : Nat) :
    (wipe memory places)[i]? = if i ∈ places then memory[i]?.map fun _ => 0 else memory[i]? := by
  induction places generalizing memory with
  | nil => rfl
  | cons place places ih =>
      have first : wipe memory (place :: places) = wipe (memory.set place 0) places := rfl
      rw [first, ih, List.getElem?_set]
      by_cases here : place = i
      · subst here
        by_cases inside : place < memory.length
        · simp [inside]
        · simp [inside]
      · simp [here, Ne.symm here]

/-- A string is read up to its NUL. -/
theorem read_token (clean : 0 ∉ token) : read (token ++ 0 :: back) = some token := by
  induction token with
  | nil => rfl
  | cons byte token ih =>
      rw [List.mem_cons, not_or] at clean
      obtain ⟨notNul, clean⟩ := clean
      rw [List.cons_append, read, if_neg (Ne.symm notNul), ih clean, Option.map_some]

/-- A memory holds a string when the string and a NUL stand at its front. -/
theorem read_eq_some_iff {memory string : List UInt8} :
    read memory = some string ↔ 0 ∉ string ∧ string ++ [0] <+: memory := by
  constructor
  · intro holds
    induction memory generalizing string with
    | nil => cases holds
    | cons byte memory ih =>
        rw [read] at holds
        split at holds
        · rename_i nul
          obtain rfl := Option.some.inj holds
          exact ⟨List.not_mem_nil, List.cons_prefix_cons.mpr ⟨nul.symm, List.nil_prefix⟩⟩
        · rename_i notNul
          obtain ⟨rest, behind, rfl⟩ := Option.map_eq_some_iff.mp holds
          obtain ⟨clean, within⟩ := ih behind
          exact ⟨List.not_mem_cons_of_ne_of_not_mem (Ne.symm notNul) clean,
            List.cons_prefix_cons.mpr ⟨rfl, within⟩⟩
  · rintro ⟨clean, back, rfl⟩
    rw [List.append_assoc, List.singleton_append]
    exact read_token clean

/-- The first NUL stands behind the string. -/
theorem findIdx?_nul {memory string : List UInt8} (holds : read memory = some string) :
    memory.findIdx? (· == 0) = some string.length := by
  obtain ⟨clean, back, rfl⟩ := read_eq_some_iff.mp holds
  have no_nul : string.findIdx? (· == 0) = none := by
    rw [List.findIdx?_eq_none_iff]
    intro byte member
    exact beq_false_of_ne fun nul => clean (nul ▸ member)
  rw [List.append_assoc, List.singleton_append, List.findIdx?_append, no_nul]
  simp [List.findIdx?_cons]

/-- A string is shorter than the memory that holds it. -/
theorem length_lt_of_read {memory string : List UInt8} (holds : read memory = some string) :
    string.length < memory.length := by
  have within := (read_eq_some_iff.mp holds).2.length_le
  rw [List.length_append, List.length_singleton] at within
  exact within

/-- `strncmp` accepts only memories that start with the literal. -/
theorem prefix_of_strncmp {memory literal : List UInt8}
    (equal : strncmp memory literal = some true) : literal <+: memory := by
  induction literal generalizing memory with
  | nil => exact List.nil_prefix
  | cons char literal ih =>
      cases memory with
      | nil => simp [strncmp] at equal
      | cons byte memory =>
          rw [strncmp] at equal
          by_cases same : byte = char
          · rw [if_pos same] at equal
            exact List.cons_prefix_cons.mpr ⟨same.symm, ih equal⟩
          · simp [same] at equal

theorem strncmp_append (literal rest : List UInt8) :
    strncmp (literal ++ rest) literal = some true := by
  induction literal with
  | nil => exact strncmp.eq_1 rest
  | cons char literal ih => rw [List.cons_append, strncmp, if_pos rfl, ih]

/-- `strncmp` rejects all other memories that are long enough. -/
theorem strncmp_of_not_prefix {memory literal : List UInt8} (long : literal.length ≤ memory.length)
    (other : ¬ literal <+: memory) : strncmp memory literal = some false := by
  induction literal generalizing memory with
  | nil => exact absurd List.nil_prefix other
  | cons char literal ih =>
      cases memory with
      | nil => cases long
      | cons byte memory =>
          rw [strncmp]
          split
          · rename_i same
            rw [same, List.cons_prefix_cons] at other
            exact ih (Nat.le_of_succ_le_succ long) fun shared => other ⟨rfl, shared⟩
          · rfl

/-- Comparing with a memory that is long enough is looking for a prefix. -/
theorem strncmp_eq_isPrefixOf {memory literal : List UInt8}
    (long : literal.length ≤ memory.length) :
    strncmp memory literal = some (literal.isPrefixOf memory) := by
  by_cases equal : literal <+: memory
  · rw [List.isPrefixOf_iff_prefix.mpr equal]
    obtain ⟨rest, rfl⟩ := equal
    exact strncmp_append literal rest
  · have different := strncmp_of_not_prefix long equal
    rw [different, Eq.comm, Option.some.injEq, ← Bool.not_eq_true, List.isPrefixOf_iff_prefix]
    exact equal

end Tokens

end CString
