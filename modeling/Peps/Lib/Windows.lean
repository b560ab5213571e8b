import Mathlib.Algebra.Ring.Int.Defs

/-!
# Windows along an axis

A window of `kernel` cells is moved over `extent` cells in steps of `stride`. `validSize` counts the
positions at which it lies inside; `sameSize` is one position for each step begun, which needs some
padding. The two counts are compared through `tail`, the length of the last step
(`validSize_eq_sameSize_iff`). For steps of any sign, counts that differ by some cells are compared
through remainders (`fdiv_add_eq_iff`).
-/

namespace Peps.Lib.Axis

/-- The positions inside. -/
def validSize (extent kernel stride : Int) : Int := (extent - kernel) / stride + 1

/-- The steps begun. -/
def sameSize (extent stride : Int) : Int := (extent + stride - 1) / stride

/-- The cells of the last step. -/
def tail (extent stride : Int) : Int :=
  if extent % stride = 0 then stride else extent % stride

variable {extent kernel stride : Int}

theorem tail_pos (extent : Int) (hs : 0 < stride) : 1 ≤ tail extent stride := by
  have := Int.emod_nonneg extent (show stride ≠ 0 by omega)
  unfold tail
  split <;> omega

theorem tail_le (extent : Int) (hs : 0 < stride) : tail extent stride ≤ stride := by
  have := Int.emod_lt_of_pos extent hs
  unfold tail
  split <;> omega

/-- All steps but the last are whole. -/
theorem extent_eq (extent : Int) (hs : 0 < stride) :
    extent = (sameSize extent stride - 1) * stride + tail extent stride := by
  have hdiv := Int.emod_add_mul_ediv extent stride
  rw [mul_comm] at hdiv
  have hnonneg := Int.emod_nonneg extent (show stride ≠ 0 by omega)
  have hlt := Int.emod_lt_of_pos extent hs
  unfold sameSize tail
  split
  · -- a whole number of steps
    have hsize : (extent + stride - 1) / stride = extent / stride := by
      rw [Int.ediv_eq_iff_of_pos hs]
      omega
    rw [hsize, sub_mul, one_mul]
    omega
  · have hsize : (extent + stride - 1) / stride = extent / stride + 1 := by
      rw [Int.ediv_eq_iff_of_pos hs, add_mul, one_mul]
      omega
    rw [hsize, add_sub_cancel_right]
    omega

/-- **With `pad` more cells the window fits as many times as steps are begun exactly if the last
window ends less than a step before the end.** -/
theorem validSize_eq_sameSize_iff (hs : 0 < stride) (pad kernel : Int) :
    validSize (extent + pad) kernel stride = sameSize extent stride ↔
      0 ≤ tail extent stride + pad - kernel ∧ tail extent stride + pad - kernel < stride := by
  have hrest : extent + pad - kernel =
      (tail extent stride + pad - kernel) + (sameSize extent stride - 1) * stride := by
    have := extent_eq extent hs
    omega
  unfold validSize
  rw [hrest, Int.add_mul_ediv_right _ _ (by omega)]
  have hzero : (tail extent stride + pad - kernel) / stride = 0 ↔
      0 ≤ tail extent stride + pad - kernel ∧ tail extent stride + pad - kernel < stride := by
    rw [Int.ediv_eq_iff_of_pos hs, zero_mul, zero_add]
  rw [← hzero]
  constructor <;> intro h <;> omega

/-! ## Remainders of either sign -/

/-- The remainders of floor division by `stride`: they take its sign. -/
def IsResidue (stride x : Int) : Prop := (0 ≤ x ∧ x < stride) ∨ (stride < x ∧ x ≤ 0)

instance (stride x : Int) : Decidable (IsResidue stride x) :=
  inferInstanceAs (Decidable (_ ∨ _))

theorem fdiv_eq_iff_of_pos {a q : Int} (hs : 0 < stride) :
    a.fdiv stride = q ↔ 0 ≤ a - q * stride ∧ a - q * stride < stride := by
  rw [Int.fdiv_eq_ediv_of_nonneg _ (by omega), Int.ediv_eq_iff_of_pos hs]
  omega

theorem fdiv_eq_iff {a q : Int} (hs : stride ≠ 0) :
    a.fdiv stride = q ↔ IsResidue stride (a - q * stride) := by
  unfold IsResidue
  rcases Int.lt_or_gt_of_ne hs with hneg | hpos
  · -- both signs turned
    rw [← Int.neg_fdiv_neg, fdiv_eq_iff_of_pos (by omega), mul_neg]
    omega
  · rw [fdiv_eq_iff_of_pos hpos]
    omega

/-- **`d` more cells make no step more or less** exactly if they leave the remainder one. -/
theorem fdiv_add_eq_iff (hs : stride ≠ 0) (a d : Int) :
    (a + d).fdiv stride = a.fdiv stride ↔ IsResidue stride (a.fmod stride + d) := by
  have hrest : a + d - a.fdiv stride * stride = a.fmod stride + d := by
    rw [Int.fmod_def, mul_comm]
    omega
  rw [fdiv_eq_iff hs, hrest]

theorem isResidue_fmod (hs : stride ≠ 0) (a : Int) : IsResidue stride (a.fmod stride) := by
  have h := (fdiv_add_eq_iff hs a 0).mp (by rw [add_zero])
  rwa [add_zero] at h

end Peps.Lib.Axis
