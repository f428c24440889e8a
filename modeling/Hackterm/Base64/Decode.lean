import Hackterm.CString.Basic
import Hackterm.Streaming.BitString
import Mathlib.Data.List.FinRange
import Mathlib.Logic.Function.Basic

/-! # The streaming base64 decoder

The decoder keeps its unfinished byte in static storage (`base64_bits` and
`base64_bit_pos`), so that a text may be handed to it in several calls. Bits
enter one by one; a byte leaves with every eighth bit
(`Hackterm.base64PushBit`). A call stops at the first `=` or at the first byte
that is not in the table, and drops the unfinished byte there
(`Hackterm.base64Decode`).
-/

namespace Hackterm

open Streaming

/-- `base64alphabet`. -/
def base64Alphabet : List UInt8 :=
  CString.ascii "ABCDEFGHIJKLMNOPQRSTUVWXYZabcdefghijklmnopqrstuvwxyz0123456789+/="

/-- The static storage of the decoder: `base64lookup`, `base64_bits` and
`base64_bit_pos`. The array of bits only ever holds zeros and ones. -/
structure Base64 where
  lookup : UInt8 → Int
  bits : Vector Bool 8
  bitPos : Fin 8

/-- The static storage at program start. -/
def base64Static : Base64 := ⟨fun _ => 0, Vector.replicate 8 false, 0⟩

/-- `base64lookup` as the loops of `base64_init` fill it. -/
def base64Table : UInt8 → Int :=
  let cleared : UInt8 → Int := fun _ => -1
  let filled := base64Alphabet.zipIdx.foldl
    (fun table entry => Function.update table entry.1 (entry.2 : Int)) cleared
  Function.update filled 0x3D 0

/-- `base64_init`. The bits of an unfinished byte stay in the array, but no
longer count. -/
def base64Init (st : Base64) : Base64 := { st with lookup := base64Table, bitPos := 0 }

/-- `base64_bits2byte`. -/
def base64Bits2byte (bits : Vector Bool 8) : UInt8 :=
  (List.finRange 8).foldl
    (fun byte n => if bits[n] then byte ||| (1 <<< UInt8.ofNat (7 - n.val)) else byte) 0

/-- One turn of the inner loop of `base64_decode`: store a bit, and hand out the
byte it completes. -/
def base64PushBit : Transducer Base64 Bool UInt8 where
  step st bit :=
    let bits := st.bits.set st.bitPos bit
    if st.bitPos.val + 1 = 8 then
      ({ st with bits := bits, bitPos := 0 }, [base64Bits2byte bits])
    else ({ st with bits := bits, bitPos := st.bitPos + 1 }, [])

/-- What a call of `base64_decode` returns to its caller: the bytes written to
the output buffer and the failure flag. -/
structure Decoded where
  output : List UInt8
  failflag : Bool
deriving DecidableEq

/-- `base64_decode`, with the static storage it leaves. The input is an array of
plain `char`, which is signed, so a byte from 0x80 on indexes the table below its
start; the result is then undefined. -/
def base64Decode (st : Base64) : List UInt8 → Option (Base64 × Decoded)
  | [] => some (st, ⟨[], false⟩)
  | c :: input =>
      if c = 0x0A ∨ c = 0x0D ∨ c = 0x20 then base64Decode st input
      else if c = 0x3D then some ({ st with bitPos := 0 }, ⟨[], false⟩)
      else if 0x80 ≤ c then none
      else
        let current := st.lookup c
        if current = -1 then some ({ st with bitPos := 0 }, ⟨[], true⟩)
        else
          let pushed := base64PushBit.run st (BitString.spell 6 current.toNat)
          (base64Decode pushed.1 input).map fun rest =>
            (rest.1, { rest.2 with output := pushed.2 ++ rest.2.output })

/-- The bits of the unfinished byte. -/
def Base64.pending (st : Base64) : List Bool := st.bits.toList.take st.bitPos

@[simp] theorem length_pending (st : Base64) : st.pending.length = st.bitPos := by
  rw [Base64.pending, List.length_take, Vector.length_toList]
  omega

/-- The unfinished byte is dropped. -/
theorem pending_reset (st : Base64) : ({ st with bitPos := 0 } : Base64).pending = [] := rfl

@[simp] theorem pending_base64Init (st : Base64) : (base64Init st).pending = [] := rfl

private theorem bits2byte_of_bools : ∀ b₀ b₁ b₂ b₃ b₄ b₅ b₆ b₇ : Bool,
    base64Bits2byte #v[b₀, b₁, b₂, b₃, b₄, b₅, b₆, b₇] =
      UInt8.ofNat (BitString.value [b₀, b₁, b₂, b₃, b₄, b₅, b₆, b₇]) := by
  decide

/-- The byte of eight bits is their value. -/
theorem base64Bits2byte_eq (bits : Vector Bool 8) :
    base64Bits2byte bits = UInt8.ofNat (BitString.value bits.toList) := by
  have spelled : bits = #v[bits[0], bits[1], bits[2], bits[3], bits[4], bits[5], bits[6],
      bits[7]] := by
    ext i below
    match i, below with
    | 0, _ | 1, _ | 2, _ | 3, _ | 4, _ | 5, _ | 6, _ | 7, _ => rfl
  rw [spelled]
  exact bits2byte_of_bools _ _ _ _ _ _ _ _

/-- Storing bits in the static array is regrouping them into octets. -/
theorem base64PushBit_simulates (st : Base64) (bit : Bool) :
    (base64PushBit.step st bit).1.pending =
        ((BitString.regroup 8).step st.pending bit).1 ∧
      (base64PushBit.step st bit).2 =
        ((BitString.regroup 8).step st.pending bit).2.map
          fun octet => UInt8.ofNat (BitString.value octet) := by
  have stored : (st.bits.set st.bitPos bit).toList.take (st.bitPos + 1) = st.pending ++ [bit] := by
    rw [Base64.pending, Vector.toList_set, List.take_succ_eq_append_getElem (by simp),
      List.take_set_of_le le_rfl, List.getElem_set_self]
  have inside := st.bitPos.isLt
  simp only [base64PushBit, BitString.regroup, length_pending]
  split
  · rename_i last
    rw [last, List.take_of_length_le (by simp)] at stored
    simp only [List.map_cons, List.map_nil, base64Bits2byte_eq, stored, and_true]
    rfl
  · refine ⟨?_, rfl⟩
    have position : (st.bitPos + 1).val = st.bitPos.val + 1 := by
      rw [Fin.val_add]
      exact Nat.mod_eq_of_lt (by simp; omega)
    rw [← stored, Base64.pending, position]

/-- Pushing bits is regrouping them, and the table stays as it is. -/
theorem base64PushBit_run (st : Base64) (bits : List Bool) :
    (base64PushBit.run st bits).1.pending = ((BitString.regroup 8).run st.pending bits).1 ∧
      (base64PushBit.run st bits).2 = ((BitString.regroup 8).run st.pending bits).2.map
        (fun octet => UInt8.ofNat (BitString.value octet)) ∧
      (base64PushBit.run st bits).1.lookup = st.lookup := by
  obtain ⟨reached, emitted⟩ := Transducer.run_eq_of_simulates base64PushBit (BitString.regroup 8)
    Base64.pending (fun octet => UInt8.ofNat (BitString.value octet)) base64PushBit_simulates st
    bits
  refine ⟨reached, emitted, ?_⟩
  refine Transducer.run_invariant _ (fun next => next.lookup = st.lookup) (fun _ => True) ?_ st bits
    (fun _ _ => trivial) rfl
  intro next bit _ same
  rw [← same]
  simp only [base64PushBit]
  split <;> rfl

end Hackterm
