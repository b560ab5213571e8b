import Mathlib.Data.Nat.Log
import Peps.Agg.State

/-!
# The null bitmap of a build state

`BitsOk nulls n bit` says what the bitmap part of a state with `n` items stands for: `bit j`
for every item `j`, with no bitmap at all meaning that every item is there. Accumulating an array
and combining two states keep it, the latter as long as the second state has a bitmap whenever
the first has one (`combineBitmap_ok`). The three ways the buffer comes about (fresh, grown, large enough)
all end in one copy behind the old items, which `getBit_append` describes.

The last section is about memory that happens to be zero: there the bits behind the items stay
zero (`ZeroTail`), so an item whose bit was never written reads as NULL.
-/

namespace Peps.Agg

open Lib

/-! ## Sizes -/

theorem le_nextPower2 (n : Nat) : n ≤ nextPower2 n := by
  unfold nextPower2
  split
  · exact Nat.le_refl n
  · exact Nat.le_of_lt Nat.lt_log2_self

theorem nextPower2_le {n : Nat} (hn : 0 < n) : nextPower2 n ≤ 2 * n := by
  unfold nextPower2
  split
  · omega
  · have hlow : 2 ^ n.log2 ≤ n := Nat.log2_self_le (by omega)
    rw [Nat.pow_succ]
    omega

-- a bitmap of the size for `n` bits has room for each of them
theorem lt_bitmapSize {j n : Nat} (h : j < n) : j / 8 < bitmapSize n := by
  unfold bitmapSize
  omega

/-! ## Memory -/

@[simp] theorem length_palloc (junk : Nat → UInt8) (n : Nat) : (palloc junk n).length = n := by
  simp [palloc]

theorem length_repalloc {junk : Nat → UInt8} {old : List UInt8} {n : Nat} (h : old.length ≤ n) :
    (repalloc junk old n).length = n := by
  simp [repalloc]
  omega

theorem getBit_repalloc {junk : Nat → UInt8} {old : List UInt8} {n j : Nat}
    (h : old.length ≤ n) (hj : j / 8 < old.length) :
    getBit (repalloc junk old n) j = getBit old j := by
  unfold getBit repalloc
  rw [List.take_of_length_le h, List.getD_eq_getElem?_getD, List.getD_eq_getElem?_getD,
    List.getElem?_append_left hj]

/-- **A run of bits copied behind `n` good ones.** -/
theorem getBit_append {dest : List UInt8} {n m : Nat} {bit : Nat → Bool}
    (hgood : ∀ j < n, getBit dest j = bit j) (src : Option (List UInt8))
    (hroom : n + m ≤ 8 * dest.length) {j : Nat} (hj : j < n + m) :
    getBit (copyBits dest n src 0 m) j =
      if j < n then bit j else src.elim true fun s => getBit s (j - n) := by
  rw [getBit_copyBits]
  by_cases hold : j < n
  · rw [if_neg (by omega), if_pos hold, hgood j hold]
  · rw [if_pos ⟨by omega, by omega⟩, if_neg hold]
    simp only [Nat.zero_add]

/-! ## What the bitmap stands for -/

/-- Either there is no bitmap and every item is there, or it has room for `aitems` bits and
holds the right one for each item. -/
structure BitsOk (nulls : NullBits) (n : Nat) (bit : Nat → Bool) : Prop where
  absent : nulls.nullbitmap = none → nulls.aitems = 0 ∧ ∀ j < n, bit j = true
  present : ∀ bits, nulls.nullbitmap = some bits → bits.length = bitmapSize nulls.aitems ∧
    n ≤ nulls.aitems ∧ 0 < nulls.aitems ∧ ∀ j < n, getBit bits j = bit j

theorem BitsOk.congr {nulls : NullBits} {n : Nat} {bit bit' : Nat → Bool}
    (h : BitsOk nulls n bit) (heq : ∀ j < n, bit' j = bit j) : BitsOk nulls n bit' := by
  refine ⟨fun hnone => ?_, fun bits hsome => ?_⟩
  · obtain ⟨hcap, hall⟩ := h.absent hnone
    exact ⟨hcap, fun j hj => (heq j hj).trans (hall j hj)⟩
  · obtain ⟨hlen, hcap, hpos, hgood⟩ := h.present bits hsome
    exact ⟨hlen, hcap, hpos, fun j hj => (hgood j hj).trans (heq j hj).symm⟩

/-- A bitmap has the size its capacity says, whatever its bits are. -/
structure NullBits.Shaped (nulls : NullBits) : Prop where
  absent : nulls.nullbitmap = none → nulls.aitems = 0
  present : ∀ bits, nulls.nullbitmap = some bits →
    bits.length = bitmapSize nulls.aitems ∧ 0 < nulls.aitems

theorem BitsOk.shaped {nulls : NullBits} {n : Nat} {bit : Nat → Bool} (h : BitsOk nulls n bit) :
    nulls.Shaped :=
  ⟨fun hnone => (h.absent hnone).1, fun bits hsome =>
    ⟨(h.present bits hsome).1, (h.present bits hsome).2.2.1⟩⟩

-- whether item `i` is there, under an optional bitmap
def bitOf (bits : Option (List UInt8)) (i : Nat) : Bool := bits.elim true (getBit · i)

-- the bits of `n` items followed by others
def joinBits (n : Nat) (first second : Nat → Bool) (j : Nat) : Bool :=
  if j < n then first j else second (j - n)

section Append

variable {nulls : NullBits} {n m : Nat} {bit : Nat → Bool} {junk : Nat → UInt8}

-- the fresh bitmap of a state that had none: earlier items are marked as there
theorem getBit_fresh (h : BitsOk nulls n bit) (hnone : nulls.nullbitmap = none) {aitems : Nat}
    (hroom : n ≤ aitems) {j : Nat} (hj : j < n) :
    getBit (copyBits (palloc junk (bitmapSize aitems)) 0 none 0 n) j = bit j := by
  have hin : j / 8 < (palloc junk (bitmapSize aitems)).length := by
    rw [length_palloc]
    exact lt_bitmapSize (by omega)
  rw [getBit_copyBits, if_pos ⟨by omega, hin⟩, (h.absent hnone).2 j hj]
  rfl

-- the grown bitmap keeps its bits
theorem getBit_grown {bits : List UInt8} (h : BitsOk nulls n bit)
    (hsome : nulls.nullbitmap = some bits) {aitems : Nat} (hgrow : nulls.aitems ≤ aitems) {j : Nat}
    (hj : j < n) : getBit (repalloc junk bits (bitmapSize aitems)) j = bit j := by
  obtain ⟨hlen, hcap, -, hgood⟩ := h.present bits hsome
  have hle : bits.length ≤ bitmapSize aitems := by
    rw [hlen]
    unfold bitmapSize
    omega
  rw [getBit_repalloc hle (by rw [hlen]; exact lt_bitmapSize (by omega)), hgood j hj]

/-- A bitmap of `aitems` bits built by copying behind the old items. -/
theorem bitsOk_append {dest : List UInt8} {aitems : Nat} (src : Option (List UInt8))
    (hlen : dest.length = bitmapSize aitems) (hgood : ∀ j < n, getBit dest j = bit j)
    (hcap : n + m ≤ aitems) (hpos : 0 < aitems) :
    BitsOk ⟨some (copyBits dest n src 0 m), aitems⟩ (n + m) (joinBits n bit (bitOf src)) := by
  refine ⟨fun hnone => (by cases hnone), fun bits hsome => ?_⟩
  cases hsome
  refine ⟨by rw [length_copyBits, hlen], hcap, hpos, fun j hj => ?_⟩
  refine getBit_append hgood src ?_ hj
  rw [hlen]
  unfold bitmapSize
  omega

/-- **Accumulating an array** appends its bits. -/
theorem accumBitmap_ok (junk : Nat → UInt8) (h : BitsOk nulls n bit) (arg : Option (List UInt8))
    (m : Nat) : BitsOk (accumBitmap junk nulls n arg m) (n + m) (joinBits n bit (bitOf arg)) := by
  unfold accumBitmap
  cases hbits : nulls.nullbitmap with
  | none =>
    cases arg with
    | none =>
      refine ⟨fun _ => ⟨(h.absent hbits).1, fun j _ => ?_⟩, fun bits hsome => ?_⟩
      · unfold joinBits
        split
        · next hj => exact (h.absent hbits).2 j hj
        · rfl
      · rw [hbits] at hsome
        cases hsome
    | some argBits =>
      have hcap := le_nextPower2 (max 256 (n + m + 1))
      exact bitsOk_append (some argBits) (by simp)
        (fun j hj => getBit_fresh h hbits (by omega) hj) (by omega) (by omega)
  | some bits =>
    obtain ⟨hlen, hcap, hpos, hgood⟩ := h.present bits hbits
    show BitsOk (if nulls.aitems < n + m then _ else _) _ _
    split
    · -- the bitmap grows
      refine bitsOk_append arg (length_repalloc ?_)
        (fun j hj => getBit_grown h hbits (by omega) hj) (by omega) (by omega)
      rw [hlen]
      unfold bitmapSize
      omega
    · exact bitsOk_append arg hlen hgood (by omega) hpos

/-- **Combining two states** appends the bits of the second, unless the first has a bitmap
and the second has none. -/
theorem combineBitmap_ok {nulls2 : NullBits} {bit2 : Nat → Bool} (junk : Nat → UInt8)
    (h1 : BitsOk nulls n bit) (h2 : BitsOk nulls2 m bit2)
    (hgap : nulls.nullbitmap.isSome → nulls2.nullbitmap.isSome) :
    BitsOk (combineBitmap junk nulls n nulls2 m) (n + m) (joinBits n bit bit2) := by
  unfold combineBitmap
  cases hbits2 : nulls2.nullbitmap with
  | none =>
    have hbits1 : nulls.nullbitmap = none := by
      rw [hbits2] at hgap
      simpa using hgap
    refine ⟨fun _ => ⟨(h1.absent hbits1).1, fun j hj => ?_⟩, fun bits hsome => ?_⟩
    · unfold joinBits
      split
      · next hlt => exact (h1.absent hbits1).2 j hlt
      · exact (h2.absent hbits2).2 _ (by omega)
    · rw [hbits1] at hsome
      cases hsome
  | some bits2 =>
    obtain ⟨hlen2, hcap2, hpos2, hgood2⟩ := h2.present bits2 hbits2
    -- inside the second state its bitmap and `bit2` agree
    have hjoin : ∀ j < n + m, joinBits n bit bit2 j = joinBits n bit (bitOf (some bits2)) j := by
      intro j hj
      unfold joinBits
      split
      · rfl
      · exact (hgood2 _ (by omega)).symm
    refine BitsOk.congr ?_ hjoin
    cases hbits1 : nulls.nullbitmap with
    | none =>
      have hcap := le_nextPower2 (max 256 (n + m + 1))
      exact bitsOk_append (some bits2) (by simp)
        (fun j hj => getBit_fresh h1 hbits1 (by omega) hj) (by omega) (by omega)
    | some bits1 =>
      obtain ⟨hlen1, hcap1, hpos1, hgood1⟩ := h1.present bits1 hbits1
      show BitsOk (if nulls.aitems < n + m then _ else _) _ _
      split
      · have hcap := le_nextPower2 (nulls.aitems + nulls2.aitems)
        refine bitsOk_append (some bits2) (length_repalloc ?_)
          (fun j hj => getBit_grown h1 hbits1 (by omega) hj) (by omega) (by omega)
        rw [hlen1]
        unfold bitmapSize
        omega
      · exact bitsOk_append (some bits2) hlen1 hgood1 (by omega) hpos1

/-! ## The size of the bitmap -/

theorem shaped_some {bits : List UInt8} {aitems : Nat} (hlen : bits.length = bitmapSize aitems)
    (hpos : 0 < aitems) : NullBits.Shaped ⟨some bits, aitems⟩ :=
  ⟨nofun, fun bits' hsome => by cases hsome; exact ⟨hlen, hpos⟩⟩

/-- A bitmap that grows keeps its old bytes. -/
theorem length_grown {bits : List UInt8} {aitems aitems' : Nat} (junk : Nat → UInt8)
    (hlen : bits.length = bitmapSize aitems) (hle : aitems ≤ aitems') :
    (repalloc junk bits (bitmapSize aitems')).length = bitmapSize aitems' := by
  refine length_repalloc ?_
  rw [hlen]
  unfold bitmapSize
  omega

theorem accumBitmap_shaped {nulls : NullBits} (h : nulls.Shaped) (junk : Nat → UInt8) (n : Nat)
    (arg : Option (List UInt8)) (m : Nat) : (accumBitmap junk nulls n arg m).Shaped := by
  unfold accumBitmap
  cases hbits : nulls.nullbitmap with
  | none =>
    cases arg with
    | none => exact h
    | some argBits =>
      have hcap := le_nextPower2 (max 256 (n + m + 1))
      exact shaped_some (by simp) (by omega)
  | some bits =>
    obtain ⟨hlen, hpos⟩ := h.present bits hbits
    show NullBits.Shaped (if nulls.aitems < n + m then _ else _)
    split
    · refine shaped_some ?_ (by omega)
      rw [length_copyBits, length_grown junk hlen (by omega)]
    · exact shaped_some (by rw [length_copyBits, hlen]) hpos

theorem combineBitmap_shaped {nulls1 nulls2 : NullBits} (h : nulls1.Shaped) (junk : Nat → UInt8)
    (n m : Nat) : (combineBitmap junk nulls1 n nulls2 m).Shaped := by
  unfold combineBitmap
  cases hbits2 : nulls2.nullbitmap with
  | none => exact h
  | some bits2 =>
    cases hbits1 : nulls1.nullbitmap with
    | none =>
      have hcap := le_nextPower2 (max 256 (n + m + 1))
      exact shaped_some (by simp) (by omega)
    | some bits1 =>
      obtain ⟨hlen, hpos⟩ := h.present bits1 hbits1
      show NullBits.Shaped (if nulls1.aitems < n + m then _ else _)
      split
      · have hcap := le_nextPower2 (nulls1.aitems + nulls2.aitems)
        refine shaped_some ?_ (by omega)
        rw [length_copyBits, length_grown junk hlen (by omega)]
      · exact shaped_some (by rw [length_copyBits, hlen]) hpos

/-! ## When there is a bitmap -/

theorem isSome_accumBitmap (junk : Nat → UInt8) (nulls : NullBits) (n : Nat)
    (arg : Option (List UInt8)) (m : Nat) :
    (accumBitmap junk nulls n arg m).nullbitmap.isSome =
      (nulls.nullbitmap.isSome || arg.isSome) := by
  unfold accumBitmap
  cases hbits : nulls.nullbitmap with
  | none =>
    cases arg with
    | none => simp [hbits]
    | some argBits => rfl
  | some bits =>
    show (if _ then _ else _ : NullBits).nullbitmap.isSome = _
    split <;> rfl

theorem isSome_combineBitmap (junk : Nat → UInt8) (nulls nulls2 : NullBits) (n m : Nat) :
    (combineBitmap junk nulls n nulls2 m).nullbitmap.isSome =
      (nulls.nullbitmap.isSome || nulls2.nullbitmap.isSome) := by
  unfold combineBitmap
  cases hbits2 : nulls2.nullbitmap with
  | none => simp
  | some bits2 =>
    cases hbits1 : nulls.nullbitmap with
    | none => rfl
    | some bits1 =>
      show (if _ then _ else _ : NullBits).nullbitmap.isSome = _
      split <;> rfl

-- the capacity stays within a constant factor of the items
theorem accumBitmap_aitems_le (junk : Nat → UInt8) (nulls : NullBits) (n : Nat)
    (arg : Option (List UInt8)) (m : Nat) (h : nulls.aitems ≤ 1024 + 4 * n) :
    (accumBitmap junk nulls n arg m).aitems ≤ 1024 + 4 * (n + m) := by
  unfold accumBitmap
  cases hbits : nulls.nullbitmap with
  | none =>
    cases arg with
    | none =>
      show nulls.aitems ≤ _
      omega
    | some argBits =>
      have hcap : nextPower2 (max 256 (n + m + 1)) ≤ 2 * max 256 (n + m + 1) :=
        nextPower2_le (by omega)
      show nextPower2 (max 256 (n + m + 1)) ≤ _
      omega
  | some bits =>
    show (if nulls.aitems < n + m then _ else _ : NullBits).aitems ≤ _
    split
    · show max (nulls.aitems * 2) (n + m) ≤ _
      omega
    · show nulls.aitems ≤ _
      omega

end Append

/-! ## Memory that is zero -/

def zeroes : Nat → UInt8 := fun _ => 0

theorem getBit_palloc_zeroes (n j : Nat) : getBit (palloc zeroes n) j = false := by
  have hbyte : (palloc zeroes n).getD (j / 8) 0 = 0 := by
    unfold palloc zeroes
    rw [List.map_const', List.length_range, List.getD_eq_getElem?_getD, List.getElem?_replicate]
    split <;> rfl
  unfold getBit
  rw [hbyte]
  simp

theorem getBit_repalloc_zeroes {old : List UInt8} {n : Nat} (h : old.length ≤ n) (j : Nat) :
    getBit (repalloc zeroes old n) j = getBit old j := by
  rcases Nat.lt_or_ge (j / 8) old.length with hin | hout
  · exact getBit_repalloc h hin
  · -- behind the old content both read a zero byte
    unfold getBit repalloc zeroes
    rw [List.take_of_length_le h, List.map_const', List.getD_eq_getElem?_getD,
      List.getD_eq_getElem?_getD, List.getElem?_append_right hout, List.getElem?_replicate,
      List.getElem?_eq_none hout]
    split <;> rfl

/-- The bits from `n` on are zero. -/
def ZeroTail (nulls : NullBits) (n : Nat) : Prop :=
  ∀ bits, nulls.nullbitmap = some bits → ∀ j, n ≤ j → getBit bits j = false

section Zero

variable {nulls nulls2 : NullBits} {n m : Nat} {bit : Nat → Bool}

theorem zeroTail_append {dest : List UInt8} {aitems : Nat} (src : Option (List UInt8))
    (h : ∀ j, n ≤ j → getBit dest j = false) :
    ZeroTail ⟨some (copyBits dest n src 0 m), aitems⟩ (n + m) := by
  intro bits hsome j hj
  cases hsome
  rw [getBit_copyBits, if_neg (by omega)]
  exact h j (by omega)

theorem zeroTail_fresh (size : Nat) (j : Nat) (hj : n ≤ j) :
    getBit (copyBits (palloc zeroes size) 0 none 0 n) j = false := by
  rw [getBit_copyBits, if_neg (by omega)]
  exact getBit_palloc_zeroes size j

theorem zeroTail_accumBitmap (hok : BitsOk nulls n bit) (h : ZeroTail nulls n)
    (arg : Option (List UInt8)) (m : Nat) :
    ZeroTail (accumBitmap zeroes nulls n arg m) (n + m) := by
  unfold accumBitmap
  cases hbits : nulls.nullbitmap with
  | none =>
    cases arg with
    | none => exact fun bits hsome => by rw [hbits] at hsome; cases hsome
    | some argBits => exact zeroTail_append _ (zeroTail_fresh _)
  | some bits =>
    obtain ⟨hlen, -, -, -⟩ := hok.present bits hbits
    show ZeroTail (if nulls.aitems < n + m then _ else _) _
    split
    · refine zeroTail_append _ fun j hj => ?_
      rw [getBit_repalloc_zeroes (by rw [hlen]; unfold bitmapSize; omega)]
      exact h bits hbits j hj
    · exact zeroTail_append _ (h bits hbits)

theorem zeroTail_combineBitmap (hok : BitsOk nulls n bit) (h : ZeroTail nulls n)
    (hgap : nulls.nullbitmap.isSome → nulls2.nullbitmap.isSome) :
    ZeroTail (combineBitmap zeroes nulls n nulls2 m) (n + m) := by
  unfold combineBitmap
  cases hbits2 : nulls2.nullbitmap with
  | none =>
    intro bits hsome
    rw [hbits2, hsome] at hgap
    simp at hgap
  | some bits2 =>
    cases hbits1 : nulls.nullbitmap with
    | none => exact zeroTail_append _ (zeroTail_fresh _)
    | some bits1 =>
      obtain ⟨hlen, -, -, -⟩ := hok.present bits1 hbits1
      have hcap := le_nextPower2 (nulls.aitems + nulls2.aitems)
      show ZeroTail (if nulls.aitems < n + m then _ else _) _
      split
      · refine zeroTail_append _ fun j hj => ?_
        rw [getBit_repalloc_zeroes (by rw [hlen]; unfold bitmapSize; omega)]
        exact h bits1 hbits1 j hj
      · exact zeroTail_append _ (h bits1 hbits1)

/-- Item `g` has no bit set. -/
def Cleared (nulls : NullBits) (g : Nat) : Prop :=
  ∃ bits, nulls.nullbitmap = some bits ∧ bits.length = bitmapSize nulls.aitems ∧
    getBit bits g = false

/-- Once an item's bit is missing, later combinations do not bring it back. -/
theorem cleared_combineBitmap {g : Nat} (h : Cleared nulls g) (hg : g < n) :
    Cleared (combineBitmap zeroes nulls n nulls2 m) g := by
  obtain ⟨bits1, hbits1, hlen, hclear⟩ := h
  unfold combineBitmap
  cases hbits2 : nulls2.nullbitmap with
  | none => exact ⟨bits1, hbits1, hlen, hclear⟩
  | some bits2 =>
    rw [hbits1]
    show Cleared (if nulls.aitems < n + m then _ else _) g
    have hcap := le_nextPower2 (nulls.aitems + nulls2.aitems)
    split
    · have hgrow : bits1.length ≤ bitmapSize (nextPower2 (nulls.aitems + nulls2.aitems)) := by
        rw [hlen]
        unfold bitmapSize
        omega
      refine ⟨_, rfl, by rw [length_copyBits, length_repalloc hgrow], ?_⟩
      rw [getBit_copyBits, if_neg (by omega), getBit_repalloc_zeroes hgrow, hclear]
    · refine ⟨_, rfl, by rw [length_copyBits, hlen], ?_⟩
      rw [getBit_copyBits, if_neg (by omega), hclear]

/-- Combining a state that has a bitmap with one that has none clears the first item of the
second. -/
theorem cleared_gap (hok : BitsOk nulls n bit) (h : ZeroTail nulls n)
    (hsome : nulls.nullbitmap.isSome) (hnone : nulls2.nullbitmap = none) :
    Cleared (combineBitmap zeroes nulls n nulls2 m) n := by
  obtain ⟨bits, hbits⟩ := Option.isSome_iff_exists.mp hsome
  obtain ⟨hlen, -, -, -⟩ := hok.present bits hbits
  unfold combineBitmap
  rw [hnone]
  exact ⟨bits, hbits, hlen, h bits hbits n (Nat.le_refl n)⟩

end Zero

end Peps.Agg
