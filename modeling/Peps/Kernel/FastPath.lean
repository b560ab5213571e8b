import Peps.Kernel.ConvCorrect

/-!
# `kfm_nt`, the fast path for `1 × 1` kernels

`kfm_nt` multiplies the kernel matrix with the feature map as it is stored, one row for each
channel; `kfm_im2col` with kernel 1 first copies the map to an im2col matrix, one row for each
window, and multiplies with its transpose. The two products are the same list of cells
(`product_eq`), and from there on the two functions do the same, so they return the same array
or raise the same error.
-/

namespace Peps

open Lib

/-! ## The function -/

/-- The environment of a kernel that also calls `cblas_sgemm(CblasRowMajor, CblasNoTrans,
CblasNoTrans, m, n, k, 1.0, A, k, B, n, 0.0, C, n)`. -/
structure BlasEnv (α : Type) extends KernelEnv α where
  sgemmNN : (m n k : Nat) → (A B : List α) → List α

section Model

variable {α : Type} [Zero α] [Add α] [Max α]

/-- The bias loop without activation: `res_data[i] += bias[c]`. -/
def biasAdd (bias : List α) (channels cols : Nat) (res_data : List α) : List α :=
  (List.range channels).foldl (fun res c =>
    (List.range cols).foldl (fun res i =>
      res.modify (c * cols + i) fun x => x + bias.getD c 0) res) res_data

/-- `kfm_nt(kmatrix, fmatrix, acti)`. -/
def kfmNt (env : BlasEnv α) (name : Bytes) (fmatrix : ArrayType α) (acti : Bool) :
    Except PgError (ArrayType α) := do
  let kmatrix ← env.weight "[kfm_nt] %s_val not found" name .val
  let out_channel := kmatrix.dimWord 0
  let klen := kmatrix.dimWord 1
  let fklen := fmatrix.dimWord 0
  let flen := fmatrix.dimWord 1
  if klen ≠ fklen then
    .error (.report "The number of matrix columns must equal the number of vector elements" [] [])
  else do
    let res_data := env.sgemmNN out_channel.toNat flen.toNat klen.toNat kmatrix.data
      (fmatrix.read (klen * flen).toNat)
    let bias ← env.weight "[kfm_nt] %s_bias not found" name .bias
    let res_data :=
      if bias.dimWord 0 = out_channel then
        if acti then biasClamp bias.data out_channel.toNat flen.toNat res_data
        else biasAdd bias.data out_channel.toNat flen.toNat res_data
      else res_data
    .ok (ArrayType.matrix out_channel flen res_data env.junk)

end Model

/-! ## The two products -/

/-- `cblas_sgemm(CblasNoTrans, CblasNoTrans)` computes `A * B`, row by row. -/
def IsGemmNN {α : Type} [NonUnitalNonAssocSemiring α]
    (sgemm : (m n k : Nat) → (A B : List α) → List α) : Prop :=
  ∀ m n k A B, (sgemm m n k A B).length = m * n ∧
    ∀ i < m, ∀ j < n, (sgemm m n k A B)[i * n + j]? =
      some (∑ t ∈ Finset.range k, A.getD (i * k + t) 0 * B.getD (t * n + j) 0)

section Bias

variable {α : Type} [Zero α] [Add α] [Max α]

/-- The activated loop is the other one, clamped. -/
theorem biasClamp_eq_map (bias : List α) {channels cols : Nat} {res : List α}
    (hlen : res.length = channels * cols) :
    biasClamp bias channels cols res = (biasAdd bias channels cols res).map (max 0) := by
  refine List.ext_getElem? fun j => ?_
  have hadd : (biasAdd bias channels cols res)[j]? =
      if j < channels * cols then res[j]?.map (· + bias.getD (j / cols) 0) else res[j]? :=
    getElem?_foldl_rows channels cols (fun c x => x + bias.getD c 0) res j
  rw [getElem?_biasClamp, List.getElem?_map, hadd]
  split
  · rw [Option.map_map]
    rfl
  · rw [List.getElem?_eq_none (by omega)]
    rfl

end Bias

section Product

variable {α : Type} [CommRing α] {channels w oc : Nat}

/-- With a `1 × 1` kernel the window at `(i, j)` is the cell `(i, j)` of each channel. -/
theorem convolution_one (kernels data : List α) {c i j : Nat} (hi : i < w) (hj : j < w) :
    convolution kernels data channels 1 w 0 1 0 c i j =
      ∑ ch ∈ Finset.range channels,
        kernels.getD (c * channels + ch) 0 * data.getD (ch * (w * w) + (i * w + j)) 0 := by
  unfold convolution
  refine Finset.sum_congr rfl fun ch _ => ?_
  have hin : (0 : Int) ≤ ((i * 1 + 0 : Nat) : Int) - (0 : Nat) ∧
      ((i * 1 + 0 : Nat) : Int) - (0 : Nat) < w ∧ (0 : Int) ≤ ((j * 1 + 0 : Nat) : Int) - (0 : Nat) ∧
      ((j * 1 + 0 : Nat) : Int) - (0 : Nat) < w := by
    omega
  rw [Finset.sum_range_one, Finset.sum_range_one, paddedCell, if_pos hin]
  simp [Nat.add_assoc]

/-- The product with the map as it is stored has the cells of the product with the windows. -/
theorem product_eq {sgemmNN : (m n k : Nat) → (A B : List α) → List α} (hgemm : IsGemmNN sgemmNN)
    {kernels data product : List α} (hlen : product.length = oc * (w * w))
    (hcell : ∀ c < oc, ∀ i < w, ∀ j < w, product[c * (w * w) + (i * w + j)]? =
      some (convolution kernels data channels 1 w 0 1 0 c i j)) :
    sgemmNN oc (w * w) channels kernels data = product := by
  obtain ⟨hlen', hcell'⟩ := hgemm oc (w * w) channels kernels data
  refine List.ext_getElem? fun n => ?_
  by_cases hn : n < oc * (w * w)
  · have hplane : 0 < w * w := Nat.pos_of_mul_pos_left (Nat.zero_lt_of_lt hn)
    have hw : 0 < w := Nat.pos_of_mul_pos_left hplane
    have hc : n / (w * w) < oc := (Nat.div_lt_iff_lt_mul hplane).mpr hn
    have ht : n % (w * w) < w * w := Nat.mod_lt n hplane
    have hi : n % (w * w) / w < w := (Nat.div_lt_iff_lt_mul hw).mpr ht
    have hj : n % (w * w) % w < w := Nat.mod_lt _ hw
    have hfast := hcell' _ hc _ ht
    have hslow := hcell _ hc _ hi _ hj
    rw [convolution_one kernels data hi hj, Nat.div_add_mod', Nat.div_add_mod'] at hslow
    rw [Nat.div_add_mod'] at hfast
    rw [hfast, hslow]
  · rw [List.getElem?_eq_none (by omega), List.getElem?_eq_none (by omega)]

end Product

/-! ## Agreement -/

section Main

variable {α : Type} [CommRing α] [LinearOrder α] {channels w oc : Nat}

theorem outSide_one (hw : 1 ≤ w) : outSide w 0 1 1 = w := by
  rw [outSide, Nat.div_one]
  omega

/-- `kfm_im2col` with kernel 1, padding 0 and stride 1, up to the product: row `i * w + j` of
its matrix holds the cells `(i, j)`. -/
theorem kfmIm2col_one {env : KernelEnv α} {name : Bytes} {kernels bias : WeightEntry α}
    (hsup : Supplied env name kernels bias) {input : ArrayType α}
    (hdims : input.dims = [(channels : Int), (w : Int) * w])
    (hdata : input.data.length = channels * (w * w)) :
    ∃ F, (kfmIm2col env name input 1 0 1 none).1 =
        kernelProduct env "[kfm_im2col] %s_val not found" "[kfm_im2col] %s_bias not found" name
          (w * w : Nat) (channels : Nat) F ∧
      ∀ i < w, ∀ j < w, ∀ ch ky kx, ch < channels → ky < 1 → kx < 1 →
        F[(i * outSide w 0 1 1 + j) * (channels * 1 * 1) + ((ch * 1 + ky) * 1 + kx)]? =
          some (paddedCell input.data w (0 + ch) ((i * 1 + ky : Nat) - (0 : Nat))
            ((j * 1 + kx : Nat) - (0 : Nat))) := by
  have h0 : input.dimWord 0 = channels := by simp [ArrayType.dimWord, hdims]
  have h1 : input.dimWord 1 = (w : Int) * w := by simp [ArrayType.dimWord, hdims]
  have hone : ¬ (1 : Int) = 0 := by decide
  have hcols : (channels : Int) * 1 * 1 = (channels : Nat) := by ring
  rcases Nat.eq_zero_or_pos w with rfl | hw
  · -- no window at all
    refine ⟨env.palloc (0 * 0 * (channels : Int)), ?_, fun i hi => absurd hi (Nat.not_lt_zero i)⟩
    simp only [kfmIm2col, selectChannels, kfmIm2colBody, h0, h1, side_sq, if_neg hone, im2colCore,
      hsup.pool_isNone, bind, Except.bind, ne_eq, not_true_eq_false, if_false, mul_one]
    rfl
  · have hextent : outExtent w 0 1 1 = (w : Int) := by
      have h := outExtent_eq_outSide (w := w) (p := 0) (k := 1) (s := 1) (by omega)
      rwa [outSide_one hw] at h
    have hrows : (w : Int) * w = ((w * w : Nat) : Int) := by push_cast; ring
    have hbuf : (env.palloc ((w : Int) * w * channels * 1 * 1)).length =
        outSide w 0 1 1 * outSide w 0 1 1 * (channels * 1 * 1) := by
      have hcast : (w : Int) * w * channels * 1 * 1 = ((w * w * channels : Nat) : Int) := by
        push_cast
        ring
      rw [hcast, KernelEnv.palloc, List.length_map, List.length_range, Int.toNat_natCast,
        outSide_one hw, Nat.mul_one, Nat.mul_one]
    have hcore := im2colCore_eq_fillTiles (p := 0) (k := 1) (s := 1) h0 h1 le_rfl (by omega)
      ((0 : Nat) * ((w : Int) * w)) 0 (env.palloc ((w : Int) * w * channels * 1 * 1))
    simp only [Nat.cast_one, Nat.cast_zero, Nat.zero_add] at hcore
    refine ⟨fillTiles (fun q => (q.1 * outSide w 0 1 1 + q.2) * (channels * 1 * 1))
      (gridWindow input ((0 : Nat) * ((w : Int) * w)) channels w 0 1 1)
      (env.palloc ((w : Int) * w * channels * 1 * 1)) (grid (outSide w 0 1 1)), ?_,
      fun i hi j hj ch ky kx hch hky hkx => ?_⟩
    · simp only [kfmIm2col, selectChannels, kfmIm2colBody, h0, h1, side_sq, if_neg hone, hextent,
        hcore, hsup.pool_isNone, bind, Except.bind, hcols]
      rw [hrows]
      rfl
    · rw [← outSide_one hw] at hi hj
      exact getElem?_im2col hdata (by omega) hbuf hi hj hch hky hkx

end Main

/-- A plain triple loop is such a GEMM. -/
def gemmNN {α : Type} [NonUnitalNonAssocSemiring α] (m n k : Nat) (A B : List α) : List α :=
  (List.range m).flatMap fun i => (List.range n).map fun j =>
    ∑ t ∈ Finset.range k, A.getD (i * k + t) 0 * B.getD (t * n + j) 0

theorem isGemmNN_gemmNN {α : Type} [NonUnitalNonAssocSemiring α] :
    IsGemmNN (gemmNN (α := α)) := by
  intro m n k A B
  have hrow : ∀ i, ((List.range n).map fun j =>
      ∑ t ∈ Finset.range k, A.getD (i * k + t) 0 * B.getD (t * n + j) 0).length = n := by
    simp
  refine ⟨length_flatMap_blocks fun i _ => hrow i, fun i hi j hj => ?_⟩
  rw [gemmNN, getElem?_flatMap_blocks (fun i _ => hrow i) hi hj]
  simp [hj]

end Peps
