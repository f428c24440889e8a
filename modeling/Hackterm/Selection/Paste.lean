import Hackterm.CString.Memory
import Mathlib.Data.List.TakeDrop

/-! # Pasting

`paste_text` reads the clipboard into an array of 10240 bytes and writes a NUL behind
every byte it has read, so an empty clipboard leaves the array as it was allocated. The
string in it is handed to the terminal in a single `write`, whose result nobody looks
at. The clipboard arrives exactly when it fits the array, the one write takes all of
it, and, for an empty one, the fresh array starts with a NUL
(`Hackterm.paste_delivers_iff`).
-/

namespace Hackterm

/-- The bytes `paste_text` allocates. -/
def pasteSize : Nat := 10240

/-- The array as `malloc` returns it. -/
structure PasteData where
  bytes : List UInt8
  length : bytes.length = pasteSize

/-- The loop of `paste_text` from its turn `n` on. What is left of the clipboard is the
first argument; reading behind it raises the end-of-file flag. Writing behind the array
is undefined. -/
def pasteLoop : List UInt8 → Nat → List UInt8 → Option (List UInt8)
  | [], _, paste_data => some paste_data
  | c :: r1, n, paste_data =>
      if n + 1 < paste_data.length then pasteLoop r1 (n + 1) ((paste_data.set n c).set (n + 1) 0)
      else none

/-- `paste_text` of the Linux build. Without a pipe nothing is read. -/
def pasteText (malloc : PasteData) : Option (List UInt8) → Option (List UInt8)
  | none => some malloc.bytes
  | some clipboard => pasteLoop clipboard 0 malloc.bytes

/-- How many of the bytes offered the pseudo-terminal takes at each call of `write`. It
does not block, so it need not take all, but takes some. -/
structure Pty where
  takes : Nat → Nat → Nat
  some_of_pos : ∀ call len, 0 < len → 0 < takes call len
  le : ∀ call len, takes call len ≤ len

/-- `local_write`: the result, and the bytes that reach the host. -/
def localWrite (pty : Pty) (call : Nat) (buffer : List UInt8) (len : Nat) : Nat × List UInt8 :=
  (pty.takes call len, buffer.take (pty.takes call len))

/-- The paste of `sdl_read_thread`: the bytes that reach the host. -/
def paste (malloc : PasteData) (pty : Pty) (clipboard : Option (List UInt8)) :
    Option (List UInt8) := do
  let text ← pasteText malloc clipboard
  let string ← CString.read text
  some (localWrite pty 0 text string.length).2

/-- Behind a NUL the rest of the clipboard is written as far as the array goes. -/
theorem pasteLoop_terminated (clipboard front back : List UInt8) :
    pasteLoop clipboard front.length (front ++ 0 :: back) =
      if clipboard.length ≤ back.length then
        some (front ++ clipboard ++ 0 :: back.drop clipboard.length)
      else none := by
  induction clipboard generalizing front back with
  | nil => simp [pasteLoop]
  | cons c r1 ih =>
      rw [pasteLoop]
      cases back with
      | nil => simp
      | cons byte back =>
          have written : ((front ++ 0 :: byte :: back).set front.length c).set
              (front.length + 1) 0 = (front ++ [c]) ++ 0 :: back := by
            simp [List.set_append_right]
          have next : front.length + 1 = (front ++ [c]).length := by simp
          have inside : front.length + 1 < (front ++ 0 :: byte :: back).length := by simp
          rw [if_pos inside, written, next, ih]
          simp

/-- The array after a clipboard that is not empty. -/
theorem pasteLoop_fresh (c : UInt8) (r1 fresh : List UInt8) :
    pasteLoop (c :: r1) 0 fresh =
      if r1.length + 2 ≤ fresh.length then some (c :: r1 ++ 0 :: fresh.drop (r1.length + 2))
      else none := by
  rw [pasteLoop]
  match fresh with
  | [] => rfl
  | [_] => simp
  | _ :: _ :: back =>
      have inside (first second : UInt8) : 0 + 1 < (first :: second :: back).length := by simp
      rw [if_pos (inside _ _)]
      exact (pasteLoop_terminated r1 [c] back).trans (by simp)

/-- What the host gets of a clipboard that is not empty. -/
theorem paste_cons (malloc : PasteData) (pty : Pty) (c : UInt8) (r1 : List UInt8)
    (clean : 0 ∉ c :: r1) :
    paste malloc pty (some (c :: r1)) =
      if (c :: r1).length < pasteSize then
        some ((c :: r1).take (pty.takes 0 (c :: r1).length))
      else none := by
  have text := pasteLoop_fresh c r1 malloc.bytes
  rw [malloc.length] at text
  rw [paste, pasteText, text]
  by_cases fits : (c :: r1).length < pasteSize
  · have room : r1.length + 2 ≤ pasteSize := fits
    rw [if_pos room, if_pos fits]
    simp only [Option.bind_eq_bind, Option.bind_some, CString.read_token clean, localWrite]
    rw [List.take_append_of_le_length (pty.le 0 _)]
  · have full : ¬ r1.length + 2 ≤ pasteSize := fits
    rw [if_neg full, if_neg fits]
    rfl

/-- The host gets nothing of an empty clipboard exactly when the array allocated starts
with a NUL. -/
theorem paste_nil_iff (malloc : PasteData) (pty : Pty) :
    paste malloc pty (some []) = some [] ↔ malloc.bytes.head? = some 0 := by
  obtain ⟨bytes, length⟩ := malloc
  cases bytes with
  | nil => cases length
  | cons byte bytes =>
      rw [paste, pasteText, pasteLoop, List.head?_cons, Option.some.injEq]
      simp only [Option.bind_eq_bind, Option.bind_some, Option.bind_eq_some_iff]
      constructor
      · rintro ⟨string, read, sent⟩
        -- Some byte of a string that is not empty would be taken.
        have empty : string.length = 0 := by
          by_contra nonempty
          have taken := pty.some_of_pos 0 string.length (Nat.pos_of_ne_zero nonempty)
          rw [localWrite, Option.some.injEq, List.take_eq_nil_iff] at sent
          obtain none | nothing := sent
          · omega
          · exact absurd nothing (List.cons_ne_nil _ _)
        by_contra notNul
        rw [CString.read, if_neg notNul] at read
        obtain ⟨rest, -, rfl⟩ := Option.map_eq_some_iff.mp read
        cases empty
      · rintro rfl
        refine ⟨[], by rw [CString.read, if_pos rfl], ?_⟩
        rw [localWrite, List.length_nil, Nat.le_zero.mp (pty.le 0 0), List.take_zero]

/-- **Pasting.** The host gets the clipboard exactly when it is shorter than the array,
the one call of `write` takes it as a whole, and, if it is empty, the array allocated
starts with a NUL. -/
theorem paste_delivers_iff (malloc : PasteData) (pty : Pty) (clipboard : List UInt8)
    (clean : 0 ∉ clipboard) :
    paste malloc pty (some clipboard) = some clipboard ↔
      clipboard.length < pasteSize ∧ pty.takes 0 clipboard.length = clipboard.length ∧
        (clipboard = [] → malloc.bytes.head? = some 0) := by
  cases clipboard with
  | nil =>
      rw [paste_nil_iff]
      constructor
      · intro terminated
        exact ⟨by decide, Nat.le_zero.mp (pty.le 0 0), fun _ => terminated⟩
      · rintro ⟨-, -, terminated⟩
        exact terminated rfl
  | cons c r1 =>
      rw [paste_cons malloc pty c r1 clean]
      by_cases fits : (c :: r1).length < pasteSize
      · rw [if_pos fits, Option.some.injEq, List.take_eq_self_iff]
        constructor
        · intro all
          exact ⟨fits, Nat.le_antisymm (pty.le 0 _) all,
            fun empty => absurd empty (List.cons_ne_nil c r1)⟩
        · rintro ⟨-, all, -⟩
          exact Nat.le_of_eq all.symm
      · rw [if_neg fits]
        exact iff_of_false (by simp) fun delivered => fits delivered.1

/-- A pseudo-terminal that takes no more than 4096 bytes at once. -/
def shortPty : Pty where
  takes _ len := min len 4096
  some_of_pos _ len positive := Nat.lt_min.mpr ⟨positive, by decide⟩
  le _ len := Nat.min_le_left len 4096

/-- An array of zeros. -/
def zeroedPasteData : PasteData := ⟨List.replicate pasteSize 0, List.length_replicate⟩

/-- A short clipboard arrives. -/
theorem paste_short_delivers :
    paste zeroedPasteData shortPty (some (CString.ascii "ls -l")) = some (CString.ascii "ls -l") :=
  (paste_delivers_iff zeroedPasteData shortPty (CString.ascii "ls -l") (by decide)).mpr
    ⟨by decide, by decide, fun empty => absurd empty (by decide)⟩

/-- Of 5000 bytes the rest behind the first 4096 is lost. -/
theorem paste_short_write_loses :
    paste zeroedPasteData shortPty (some (List.replicate 5000 0x61)) ≠
      some (List.replicate 5000 0x61) := by
  intro delivered
  have clean : (0 : UInt8) ∉ List.replicate 5000 (0x61 : UInt8) := fun member =>
    absurd (List.eq_of_mem_replicate member) (by decide)
  have sent := paste_cons zeroedPasteData shortPty 0x61 (List.replicate 4999 0x61) clean
  rw [← List.replicate_succ, delivered] at sent
  split_ifs at sent with fits
  have short := congrArg List.length (Option.some.inj sent)
  rw [List.length_take, List.length_replicate] at short
  exact absurd short (by decide)

end Hackterm
