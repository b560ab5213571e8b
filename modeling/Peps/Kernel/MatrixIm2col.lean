import Peps.Kernel.ConvCorrect

/-!
# `im2col` of `matrix_op.c`

The SQL-callable `im2col` stores the windows' cells one after the other through a running
index `res_idx`, into an allocation sized by the closed formula
`((width + 2 * padding - kernel + 1) / stride)²` windows. The loops visit
`(width + 2 * padding - kernel) / stride + 1` corners along each axis; every residue of the span
modulo the stride but one makes the formula too small (`im2col_fills_iff`), and the stores run
past the end.
-/

namespace Peps

open Lib

/-! ## The two sizes -/

/-- `(w + 2p - k + 1) / s`. -/
def shortSide (w p k s : Nat) : Nat := (w + 2 * p - k + 1) / s

theorem shortSide_eq_iff {w p k s : Nat} :
    shortSide w p k s = outSide w p k s ↔ s ∣ w + 2 * p - k + 1 := by
  rw [shortSide, outSide, Nat.succ_div]
  split <;> simp_all

theorem shortExtent_eq_shortSide {w p k s : Nat} (hk : k ≤ w + 2 * p) :
    ((w : Int) + 2 * p - k + 1).tdiv s = (shortSide w p k s : Nat) := by
  have hnum : (w : Int) + 2 * p - k + 1 = ((w + 2 * p - k + 1 : Nat) : Int) := by omega
  rw [hnum, shortSide, Int.ofNat_tdiv]

/-! ## The function -/

section Model

variable {α : Type} [Zero α]

/-- The window corners in the order the two outer loops visit them. -/
def im2colVisits (input_f : ArrayType α) (kernel_size padding stride : Int) : List (Int × Int) :=
  let width := side (input_f.dimWord 1)
  let height := side (input_f.dimWord 1)
  (steps (-padding) (height + padding - kernel_size + 1) stride).flatMap fun rn =>
    (steps (-padding) (width + padding - kernel_size + 1) stride).map fun cn => (rn, cn)

/-- The values of the assignments to `res_data[0]`, `res_data[1]`, … -/
def im2colStores (input_f : ArrayType α) (kernel_size padding stride : Int) : List α :=
  let width := side (input_f.dimWord 1)
  let height := side (input_f.dimWord 1)
  (im2colVisits input_f kernel_size padding stride).flatMap fun q =>
    paddedWindow input_f.elem (input_f.dimWord 0) (input_f.dimWord 1) width height kernel_size
      q.1 q.2

/-- `out_width` and `out_height`. -/
def im2colExtent (input_f : ArrayType α) (kernel_size padding stride : Int) : Int :=
  (side (input_f.dimWord 1) + 2 * padding - kernel_size + 1).tdiv stride

/-- `out_nelems`. -/
def im2colNelems (input_f : ArrayType α) (kernel_size padding stride : Int) : Int :=
  im2colExtent input_f kernel_size padding stride * im2colExtent input_f kernel_size padding stride
    * input_f.dimWord 0 * kernel_size * kernel_size

/-- `im2col(input_f, kernel, padding, stride)`. A store past the allocation has no effect
here. -/
def im2col (env : KernelEnv α) (input_f : ArrayType α) (kernel_size padding stride : Int) :
    Except PgError (ArrayType α) :=
  if stride = 0 then .error .divisionByZero
  else if stride < 0 ∧ -padding < side (input_f.dimWord 1) + padding - kernel_size + 1 then
    .error .runaway
  else
    let out_width := im2colExtent input_f kernel_size padding stride
    .ok (ArrayType.matrix (out_width * out_width) (input_f.dimWord 0 * kernel_size * kernel_size)
      (writeAt (env.palloc (im2colNelems input_f kernel_size padding stride)) 0
        (im2colStores input_f kernel_size padding stride)) env.junk)

/-- What the loops are to do: visit as many windows as are counted, store as many cells as are
allocated, and leave row `i * o + j` of the result with the zero-padded window at `(i, j)`. -/
structure FillsMatrix (env : KernelEnv α) (input_f : ArrayType α) (channels w k p s : Nat) :
    Prop where
  visits : ((im2colVisits input_f k p s).length : Int) =
    im2colExtent input_f k p s * im2colExtent input_f k p s
  stores : ((im2colStores input_f k p s).length : Int) = im2colNelems input_f k p s
  rows : ∃ res, im2col env input_f k p s = .ok res ∧
    res.dims = [((outSide w p k s * outSide w p k s : Nat) : Int), (channels * k * k : Nat)] ∧
    ∀ i < outSide w p k s, ∀ j < outSide w p k s, ∀ ch < channels, ∀ ky < k, ∀ kx < k,
      res.data[(i * outSide w p k s + j) * (channels * k * k) + ((ch * k + ky) * k + kx)]? =
        some (paddedCell input_f.data w ch ((i * s + ky : Nat) - p) ((j * s + kx : Nat) - p))

end Model

/-! ## What the loops store -/

section Loops

variable {α : Type} {input_f : ArrayType α} {channels w p k s : Nat}

theorem im2colExtent_eq (h1 : input_f.dimWord 1 = (w : Int) * w) (hk : k ≤ w + 2 * p) :
    im2colExtent input_f k p s = (shortSide w p k s : Nat) := by
  rw [im2colExtent, h1, side_sq, shortExtent_eq_shortSide hk]

theorem im2colVisits_eq (h1 : input_f.dimWord 1 = (w : Int) * w) (hs : 1 ≤ s)
    (hk : k ≤ w + 2 * p) :
    im2colVisits input_f k p s =
      (rect (outSide w p k s) (outSide w p k s)).map (Prod.map (corner p s) (corner p s)) := by
  simp only [im2colVisits, h1, side_sq, steps_corners hs hk, flatMap_map_rect]
  rfl

theorem length_im2colVisits (h1 : input_f.dimWord 1 = (w : Int) * w) (hs : 1 ≤ s)
    (hk : k ≤ w + 2 * p) :
    (im2colVisits input_f k p s).length = outSide w p k s * outSide w p k s := by
  rw [im2colVisits_eq h1 hs hk, List.length_map, length_rect]

theorem im2colNelems_eq (h0 : input_f.dimWord 0 = channels) (h1 : input_f.dimWord 1 = (w : Int) * w)
    (hk : k ≤ w + 2 * p) (hdvd : s ∣ w + 2 * p - k + 1) :
    im2colNelems input_f k p s =
      ((outSide w p k s * outSide w p k s * (channels * k * k) : Nat) : Int) := by
  rw [im2colNelems, im2colExtent_eq h1 hk, shortSide_eq_iff.mpr hdvd, h0]
  push_cast
  ring

variable [Zero α]

theorem im2colStores_eq (h0 : input_f.dimWord 0 = channels)
    (h1 : input_f.dimWord 1 = (w : Int) * w) (hs : 1 ≤ s) (hk : k ≤ w + 2 * p) :
    im2colStores input_f k p s =
      (rect (outSide w p k s) (outSide w p k s)).flatMap
        (gridWindow input_f 0 channels w p k s) := by
  simp only [im2colStores, im2colVisits_eq h1 hs hk, h0, h1, side_sq, List.flatMap_map]
  refine List.flatMap_congr fun q _ => ?_
  simp only [gridWindow, Int.zero_add]
  rfl

theorem length_im2colStores (h0 : input_f.dimWord 0 = channels)
    (h1 : input_f.dimWord 1 = (w : Int) * w) (hs : 1 ≤ s) (hk : k ≤ w + 2 * p) :
    (im2colStores input_f k p s).length =
      outSide w p k s * outSide w p k s * (channels * k * k) := by
  rw [im2colStores_eq h0 h1 hs hk]
  exact length_flatMap_rect fun q => length_gridWindow ..

/-- **The rows of the matrix**, where the two sizes agree. -/
theorem im2col_rows (env : KernelEnv α) (hdims : input_f.dims = [(channels : Int), (w : Int) * w])
    (hdata : input_f.data.length = channels * (w * w)) (hs : 1 ≤ s) (hk : k ≤ w + 2 * p)
    (hdvd : s ∣ w + 2 * p - k + 1) :
    ∃ res, im2col env input_f k p s = .ok res ∧
      res.dims = [((outSide w p k s * outSide w p k s : Nat) : Int), (channels * k * k : Nat)] ∧
      res.data.length = outSide w p k s * outSide w p k s * (channels * k * k) ∧
      ∀ i < outSide w p k s, ∀ j < outSide w p k s, ∀ ch < channels, ∀ ky < k, ∀ kx < k,
        res.data[(i * outSide w p k s + j) * (channels * k * k) + ((ch * k + ky) * k + kx)]? =
          some (paddedCell input_f.data w ch ((i * s + ky : Nat) - p) ((j * s + kx : Nat) - p)) := by
  have h0 : input_f.dimWord 0 = channels := by simp [ArrayType.dimWord, hdims]
  have h1 : input_f.dimWord 1 = (w : Int) * w := by simp [ArrayType.dimWord, hdims]
  have hstride : ¬ (s : Int) = 0 := by omega
  -- the stores cover the allocation, so the result is what was stored
  have hbuf : (im2colStores input_f k p s).length =
      (env.palloc (im2colNelems input_f k p s)).length := by
    rw [length_im2colStores h0 h1 hs hk, im2colNelems_eq h0 h1 hk hdvd, KernelEnv.palloc,
      List.length_map, List.length_range, Int.toNat_natCast]
  refine ⟨_, by rw [im2col, if_neg hstride, if_neg (by omega)], ?_, ?_, ?_⟩
  · simp only [ArrayType.matrix, im2colExtent_eq h1 hk, shortSide_eq_iff.mpr hdvd, h0]
    push_cast
    rfl
  · simp only [ArrayType.matrix]
    rw [writeAt_eq_of_length _ _ hbuf, length_im2colStores h0 h1 hs hk]
  · intro i hi j hj ch hch ky hky kx hkx
    simp only [ArrayType.matrix]
    rw [writeAt_eq_of_length _ _ hbuf, im2colStores_eq h0 h1 hs hk,
      getElem?_flatMap_rect (fun q => length_gridWindow ..) hi hj (kernelCell_lt hch hky hkx)]
    have hcell := getElem?_gridWindow 0 (p := p) (s := s) (i := i) (j := j) hdata (by omega)
      hch hky hkx
    rw [Nat.cast_zero, Int.zero_mul, Nat.zero_add] at hcell
    exact hcell

/-- **When `im2col` fills what it allocates.** For every input of `channels` images of `w * w`
cells, every kernel, padding and stride with at least one window, the loops store exactly the
allocated cells, and each row is its window, if and only if the stride divides
`w + 2p - k + 1`. -/
theorem im2col_fills_iff (env : KernelEnv α) (input_f : ArrayType α) (channels w k p s : Nat)
    (hdims : input_f.dims = [(channels : Int), (w : Int) * w])
    (hdata : input_f.data.length = channels * (w * w)) (hs : 1 ≤ s) (hk : k ≤ w + 2 * p) :
    FillsMatrix env input_f channels w k p s ↔ s ∣ w + 2 * p - k + 1 := by
  have h0 : input_f.dimWord 0 = channels := by simp [ArrayType.dimWord, hdims]
  have h1 : input_f.dimWord 1 = (w : Int) * w := by simp [ArrayType.dimWord, hdims]
  constructor
  · intro h
    have hcount := h.visits
    rw [length_im2colVisits h1 hs hk, im2colExtent_eq h1 hk, ← Nat.cast_mul, Nat.cast_inj] at hcount
    exact shortSide_eq_iff.mp (Nat.mul_self_inj.mp hcount).symm
  · intro hdvd
    obtain ⟨res, hres, hresdims, -, hcells⟩ := im2col_rows env hdims hdata hs hk hdvd
    refine ⟨?_, ?_, res, hres, hresdims, hcells⟩
    · rw [length_im2colVisits h1 hs hk, im2colExtent_eq h1 hk, shortSide_eq_iff.mpr hdvd, Nat.cast_mul]
    · rw [length_im2colStores h0 h1 hs hk, im2colNelems_eq h0 h1 hk hdvd]

end Loops

/-- One image of `w * w` cells. -/
def oneChannel (w : Nat) (data : List Int) : ArrayType Int :=
  ArrayType.matrix 1 ((w : Int) * w) data fun _ => 0

theorem im2col_fills_stride_one :
    FillsMatrix smallEnv (oneChannel 3 [1, 2, 3, 4, 5, 6, 7, 8, 9]) 1 3 3 1 1 :=
  (im2col_fills_iff smallEnv (oneChannel 3 [1, 2, 3, 4, 5, 6, 7, 8, 9]) 1 3 3 1 1 rfl rfl (by decide)
    (by decide)).mpr (by decide)

/-- With a `1 × 1` kernel and stride 2 on a `3 × 3` image, four cells are stored where one is
allocated. -/
theorem im2col_overruns_stride_two :
    ¬ FillsMatrix smallEnv (oneChannel 3 [1, 2, 3, 4, 5, 6, 7, 8, 9]) 1 3 1 0 2 := by
  intro h
  have hword : (oneChannel 3 [1, 2, 3, 4, 5, 6, 7, 8, 9]).dimWord 1 = ((3 : Nat) : Int) * 3 := rfl
  have hcount := h.visits
  rw [length_im2colVisits hword (by decide) (by decide), im2colExtent_eq hword (by decide)] at hcount
  exact absurd hcount (by decide)

end Peps
