import Mathlib.Data.List.Basic

/-!
# Bitmaps kept in bytes

Bit `i` of a bitmap is bit `i % 8` of byte `i / 8`. A bit is read with `getBit` (a bit behind
the last byte reads as 0) and written with `setBit`, which leaves the other bits of the byte
alone; a write behind the last byte is lost. `copyBits` is the loop that copies a run of bits
from one bitmap into another, or sets them when there is no source.

Clients use `getBit_copyBits` and never look at a byte.
-/

namespace Peps.Lib

def getBit (bytes : List UInt8) (i : Nat) : Bool := (bytes.getD (i / 8) 0).toBitVec.getLsbD (i % 8)

-- `byte |= mask` or `byte &= ~mask`
def putBit (byte : UInt8) (k : Nat) (b : Bool) : UInt8 :=
  if b then ⟨byte.toBitVec ||| BitVec.twoPow 8 k⟩ else ⟨byte.toBitVec &&& ~~~ BitVec.twoPow 8 k⟩

def setBit (bytes : List UInt8) (i : Nat) (b : Bool) : List UInt8 :=
  bytes.modify (i / 8) fun byte => putBit byte (i % 8) b

@[simp] theorem length_setBit (bytes : List UInt8) (i : Nat) (b : Bool) :
    (setBit bytes i b).length = bytes.length := by
  simp [setBit]

theorem getLsbD_putBit (byte : UInt8) {k j : Nat} (hk : k < 8) (hj : j < 8) (b : Bool) :
    (putBit byte k b).toBitVec.getLsbD j = if k = j then b else byte.toBitVec.getLsbD j := by
  have htwo : (BitVec.twoPow 8 k).getLsbD j = decide (k = j) := by
    rw [BitVec.getLsbD_twoPow]
    simp [hk]
  cases b with
  | true =>
    show (byte.toBitVec ||| BitVec.twoPow 8 k).getLsbD j = _
    rw [BitVec.getLsbD_or, htwo]
    by_cases hkj : k = j
    · rw [if_pos hkj, decide_eq_true hkj, Bool.or_true]
    · rw [if_neg hkj, decide_eq_false hkj, Bool.or_false]
  | false =>
    show (byte.toBitVec &&& ~~~ BitVec.twoPow 8 k).getLsbD j = _
    rw [BitVec.getLsbD_and, BitVec.getLsbD_not, htwo, decide_eq_true hj, Bool.true_and]
    by_cases hkj : k = j
    · rw [if_pos hkj, decide_eq_true hkj, Bool.not_true, Bool.and_false]
    · rw [if_neg hkj, decide_eq_false hkj, Bool.not_false, Bool.and_true]

theorem getBit_setBit (bytes : List UInt8) (i j : Nat) (b : Bool) :
    getBit (setBit bytes i b) j =
      if i = j ∧ i / 8 < bytes.length then b else getBit bytes j := by
  unfold getBit setBit
  by_cases hbyte : i / 8 = j / 8
  · -- same byte: look at the bit inside it
    rcases Nat.lt_or_ge (j / 8) bytes.length with hin | hout
    · have hget : (bytes.modify (i / 8) fun byte => putBit byte (i % 8) b).getD (j / 8) 0 =
          putBit (bytes.getD (j / 8) 0) (i % 8) b := by
        rw [hbyte]
        simp [List.getD_eq_getElem?_getD, hin]
      rw [hget, getLsbD_putBit _ (Nat.mod_lt _ (by decide)) (Nat.mod_lt _ (by decide))]
      by_cases hij : i = j
      · rw [if_pos (by rw [hij]), if_pos ⟨hij, hbyte ▸ hin⟩]
      · have hmod : i % 8 ≠ j % 8 := by
          intro hmod
          apply hij
          rw [← Nat.div_add_mod i 8, ← Nat.div_add_mod j 8, hbyte, hmod]
        rw [if_neg hmod, if_neg (fun h => hij h.1)]
    · rw [if_neg (by omega), List.getD_eq_getElem?_getD, List.getD_eq_getElem?_getD,
        List.getElem?_eq_none (by simpa using hout), List.getElem?_eq_none hout]
  · have hij : i ≠ j := fun h => hbyte (by rw [h])
    rw [if_neg (fun h => hij h.1), List.getD_eq_getElem?_getD, List.getD_eq_getElem?_getD,
      List.getElem?_modify_ne _ _ hbyte]

/-- Copy `n` bits of `src` from `srcOff` on to `dest` from `destOff` on; without a source the
bits are set. -/
def copyBits (dest : List UInt8) (destOff : Nat) (src : Option (List UInt8)) (srcOff n : Nat) :
    List UInt8 :=
  (List.range n).foldl (fun d i =>
    setBit d (destOff + i) (src.elim true fun s => getBit s (srcOff + i))) dest

variable (dest : List UInt8) (destOff : Nat) (src : Option (List UInt8)) (srcOff : Nat)

@[simp] theorem length_copyBits (n : Nat) :
    (copyBits dest destOff src srcOff n).length = dest.length := by
  unfold copyBits
  induction n with
  | zero => rfl
  | succ n ih => rw [List.range_succ, List.foldl_append, List.foldl_cons, List.foldl_nil,
      length_setBit, ih]

/-- **What a copy leaves at each bit.** -/
theorem getBit_copyBits (n j : Nat) :
    getBit (copyBits dest destOff src srcOff n) j =
      if (destOff ≤ j ∧ j < destOff + n) ∧ j / 8 < dest.length then
        src.elim true fun s => getBit s (srcOff + (j - destOff))
      else getBit dest j := by
  induction n with
  | zero => rw [if_neg (by omega)]; rfl
  | succ n ih =>
    have hstep : copyBits dest destOff src srcOff (n + 1) =
        setBit (copyBits dest destOff src srcOff n) (destOff + n)
          (src.elim true fun s => getBit s (srcOff + n)) := by
      unfold copyBits
      rw [List.range_succ, List.foldl_append, List.foldl_cons, List.foldl_nil]
    rw [hstep, getBit_setBit, length_copyBits, ih]
    by_cases hlast : destOff + n = j
    · subst hlast
      by_cases hin : (destOff + n) / 8 < dest.length
      · rw [if_pos ⟨rfl, hin⟩, if_pos ⟨⟨by omega, by omega⟩, hin⟩, Nat.add_sub_cancel_left]
      · rw [if_neg (fun h => hin h.2), if_neg (fun h => hin h.2), if_neg (fun h => hin h.2)]
    · rw [if_neg (fun h => hlast h.1)]
      by_cases hrun : (destOff ≤ j ∧ j < destOff + n) ∧ j / 8 < dest.length
      · rw [if_pos hrun, if_pos ⟨⟨hrun.1.1, by omega⟩, hrun.2⟩]
      · rw [if_neg hrun, if_neg (fun h => hrun ⟨⟨h.1.1, by omega⟩, h.2⟩)]

/-- The bytes of `n` given bits, padded with zeros. -/
def bitmapOf (n : Nat) (bit : Nat → Bool) : List UInt8 :=
  (List.range n).foldl (fun d i => setBit d i (bit i)) (List.replicate ((n + 7) / 8) 0)

theorem copyBits_eq_bitmapOf {n : Nat} {src : List UInt8} {bit : Nat → Bool}
    (h : ∀ i < n, getBit src i = bit i) :
    copyBits (List.replicate ((n + 7) / 8) 0) 0 (some src) 0 n = bitmapOf n bit := by
  unfold copyBits bitmapOf
  refine List.foldl_ext _ _ _ fun d i hi => ?_
  show setBit d (0 + i) (getBit src (0 + i)) = setBit d i (bit i)
  rw [Nat.zero_add, h i (List.mem_range.mp hi)]

end Peps.Lib
