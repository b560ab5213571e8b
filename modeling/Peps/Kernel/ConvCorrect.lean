import Mathlib.Algebra.BigOperators.Ring.Finset
import Mathlib.Algebra.Order.Ring.Int
import Peps.Kernel.Kernels

/-!
# `kfm_im2col` computes the convolution

The result of `kfm_im2col` goes through two index maps: `im2col_core` lays the window of
output position `(i, j)` out as row `i * o + j` of a matrix, channel by channel and row by
row, and the product reads that matrix as the transposed operand of a row-major GEMM. The
theorem of this module says that the two fit: cell `(c, i * o + j)` of the result is the
direct zero-padded convolution sum (`convolution`) over the selected channels at window
`(i, j)`, with the bias added and clamped at 0 when there is one.

The proof follows the data: the loop values (`steps_eq_range`) and the row starts turn the
two outer loops into a filling of disjoint tiles (`im2colCore_eq_fillTiles`), the padded and
the unpadded branch list the same cells (`plainWindow_eq_paddedWindow`), a window's cell is
read off its nest of `flatMap`s (`getElem?_paddedWindow`), and the GEMM's sum over a row is
the triple sum of the convolution (`sum_range_blocks`).
-/

namespace Peps

open Lib

section Specification

variable {α : Type}

/-- `cblas_sgemm(CblasNoTrans, CblasTrans)` computes `A * Bᵀ`, row by row. -/
def IsGemmNT [NonUnitalNonAssocSemiring α]
    (sgemm : (m n k : Nat) → (A B : List α) → List α) : Prop :=
  ∀ m n k A B, (sgemm m n k A B).length = m * n ∧
    ∀ i < m, ∀ j < n, (sgemm m n k A B)[i * n + j]? =
      some (∑ t ∈ Finset.range k, A.getD (i * k + t) 0 * B.getD (j * k + t) 0)

/-- The cell `(y, x)` of channel `ch` of an input of `w * w` images, zero beyond the
borders. -/
def paddedCell [Zero α] (data : List α) (w ch : Nat) (y x : Int) : α :=
  if 0 ≤ y ∧ y < w ∧ 0 ≤ x ∧ x < w then data.getD (ch * (w * w) + y.toNat * w + x.toNat) 0
  else 0

/-- The convolution sum of output channel `c` at window `(i, j)`, over the channels from
`start` on that the kernel matrix has columns for. -/
def convolution [NonUnitalNonAssocSemiring α] (kernels data : List α) (channels k w p s start : Nat)
    (c i j : Nat) : α :=
  ∑ ch ∈ Finset.range channels, ∑ ky ∈ Finset.range k, ∑ kx ∈ Finset.range k,
    kernels.getD (c * (channels * k * k) + ((ch * k + ky) * k + kx)) 0 *
      paddedCell data w (start + ch) ((i * s + ky : Nat) - p) ((j * s + kx : Nat) - p)

end Specification

/-! ## The loops -/

/-- `floor((w + 2p - k) / s) + 1`. -/
def outSide (w p k s : Nat) : Nat := (w + 2 * p - k) / s + 1

theorem side_sq (w : Nat) : side ((w : Int) * w) = w := by
  have hsq : ((w : Int) * w).toNat = w * w := by
    rw [← Nat.cast_mul, Int.toNat_natCast]
  rw [side, hsq, Nat.sqrt_eq]

section Loops

variable {w p k s : Nat}

theorem outExtent_eq_outSide (hk : k ≤ w + 2 * p) :
    outExtent w p k s = (outSide w p k s : Nat) := by
  have hnum : (w : Int) + 2 * p - k = ((w + 2 * p - k : Nat) : Int) := by omega
  rw [outExtent, hnum, outSide, Nat.cast_add, Nat.cast_one, Int.ofNat_tdiv]

/-- The values both loop variables take: the window corners. -/
theorem steps_corners (hs : 1 ≤ s) (hk : k ≤ w + 2 * p) :
    steps (-(p : Int)) (w + p - k + 1) s =
      (List.range (outSide w p k s)).map fun (i : Nat) => -(p : Int) + i * s := by
  have hlow : (w + 2 * p - k) / s * s ≤ w + 2 * p - k := Nat.div_mul_le_self ..
  have hhigh : w + 2 * p - k < ((w + 2 * p - k) / s + 1) * s :=
    Nat.lt_mul_of_div_lt (Nat.lt_succ_self _) hs
  refine steps_eq_range (by omega) (.inr ?_) ?_
  · have hcast : (((outSide w p k s : Nat) : Int) - 1) * s =
        (((w + 2 * p - k) / s * s : Nat) : Int) := by
      rw [outSide]
      push_cast
      ring
    rw [hcast]
    omega
  · have hcast : ((outSide w p k s : Nat) : Int) * s =
        ((((w + 2 * p - k) / s + 1) * s : Nat) : Int) := by
      rw [outSide]
      push_cast
      ring
    rw [hcast]
    omega

end Loops

/-! ## The windows -/

section Windows

variable {α : Type} {channels kh kw k : Nat}

/-- A cell of a window that lists the cells of each channel row by row. -/
theorem getElem?_window {cell : Nat → Nat → Nat → α} {ch ky kx : Nat} (hch : ch < channels)
    (hky : ky < kh) (hkx : kx < kw) :
    ((List.range channels).flatMap fun c => (List.range kh).flatMap fun y =>
      (List.range kw).map fun x => cell c y x)[(ch * kh + ky) * kw + kx]? =
        some (cell ch ky kx) := by
  have hrow : ∀ c y, ((List.range kw).map fun x => cell c y x).length = kw := by simp
  have hplane : ∀ c, ((List.range kh).flatMap fun y =>
      (List.range kw).map fun x => cell c y x).length = kh * kw :=
    fun c => length_flatMap_blocks fun y _ => hrow c y
  rw [show (ch * kh + ky) * kw + kx = ch * (kh * kw) + (ky * kw + kx) from by ring,
    getElem?_flatMap_blocks (fun c _ => hplane c) hch (slot_lt hky hkx),
    getElem?_flatMap_blocks (fun y _ => hrow ch y) hky hkx]
  simp [hkx]

theorem length_window {cell : Nat → Nat → Nat → α} :
    ((List.range channels).flatMap fun c => (List.range kh).flatMap fun y =>
      (List.range kw).map fun x => cell c y x).length = channels * kh * kw := by
  rw [length_flatMap_blocks (L := kh * kw), Nat.mul_assoc]
  intro c _
  exact length_flatMap_blocks fun y _ => by simp

variable [Zero α]

/-- Away from the borders the padded branch reads what the unpadded one reads. -/
theorem plainWindow_eq_paddedWindow (input_f : Int → α) (num_channel nelems width height : Int)
    {rn cn : Int} (hrn : 0 ≤ rn) (hcn : 0 ≤ cn) (hrow : rn + k ≤ height) (hcol : cn + k ≤ width) :
    plainWindow input_f num_channel nelems width k rn cn =
      paddedWindow input_f num_channel nelems width height k rn cn := by
  unfold plainWindow paddedWindow
  refine List.flatMap_congr fun c _ => List.flatMap_congr fun ky hky =>
    List.map_congr_left fun kx hkx => ?_
  rw [Int.toNat_natCast, List.mem_range] at hky hkx
  rw [if_neg (by omega)]

end Windows

/-! ## `im2col_core` -/

section Core

variable {α : Type} [Zero α] {channels w p k s : Nat}

/-- The corner of window `i` along one axis. -/
def corner (p s i : Nat) : Int := -(p : Int) + i * s

/-- The window the loops visit at grid position `q`. -/
def gridWindow (input : ArrayType α) (origin : Int) (channels w p k s : Nat) (q : Nat × Nat) :
    List α :=
  paddedWindow (fun i => input.elem (origin + i)) channels ((w : Int) * w) w w k (corner p s q.1)
    (corner p s q.2)

theorem corner_tdiv {p s : Nat} (hs : 1 ≤ s) (i : Nat) : (corner p s i + p).tdiv s = i := by
  rw [corner, show -(p : Int) + i * s + p = i * s from by ring]
  exact Int.mul_tdiv_cancel _ (by omega)

/-- A window inside the padded image: its corner is within reach of the last row. -/
theorem corner_add_le (hs : 1 ≤ s) (hk : k ≤ w + 2 * p) {i : Nat} (hi : i < outSide w p k s) :
    corner p s i + k ≤ w + p := by
  have hle : i ≤ (w + 2 * p - k) / s := Nat.lt_succ_iff.mp hi
  have hmul : i * s ≤ w + 2 * p - k := (Nat.le_div_iff_mul_le hs).mp hle
  have hcast : ((i * s : Nat) : Int) = (i : Int) * s := by push_cast; ring
  unfold corner
  omega

theorem im2colCore_eq_fillTiles {input : ArrayType α} (h0 : input.dimWord 0 = channels)
    (h1 : input.dimWord 1 = (w : Int) * w) (hs : 1 ≤ s) (hk : k ≤ w + 2 * p) (origin : Int)
    (base : Nat) (buf : List α) :
    im2colCore input origin k p s base buf =
      .ok (fillTiles (fun q => base + (q.1 * outSide w p k s + q.2) * (channels * k * k))
        (gridWindow input origin channels w p k s) buf (grid (outSide w p k s))) := by
  have hpos : ¬ ((s : Int) < 0 ∧ -(p : Int) < w + p - k + 1) := by omega
  have hhead : ∀ q ∈ grid (outSide w p k s),
      base + (((corner p s q.1 + p).tdiv s * (outSide w p k s : Nat) + (corner p s q.2 + p).tdiv s)
        * channels * k * k).toNat = base + (q.1 * outSide w p k s + q.2) * (channels * k * k) := by
    intro q _
    rw [corner_tdiv hs, corner_tdiv hs]
    have hcast : ((q.1 : Int) * (outSide w p k s : Nat) + q.2) * channels * k * k =
        (((q.1 * outSide w p k s + q.2) * (channels * k * k) : Nat) : Int) := by
      push_cast
      ring
    rw [hcast, Int.toNat_natCast]
  simp only [im2colCore, h0, h1, side_sq, outExtent_eq_outSide hk]
  split
  · rw [tiledLoop, if_neg hpos, steps_corners hs hk, flatMap_map_rect, fillTiles_map]
    exact congrArg _ (fillTiles_congr hhead (fun _ _ => rfl) buf)
  · next hp =>
    obtain rfl : p = 0 := by omega
    have hsteps := steps_corners (w := w) (p := 0) (k := k) hs hk
    simp only [Nat.cast_zero, neg_zero, add_zero, zero_add] at hsteps
    rw [tiledLoop, if_neg (by omega), hsteps, flatMap_map_rect, fillTiles_map, grid_eq_rect]
    refine congrArg _ (fillTiles_congr (fun q hq => ?_) (fun q hq => ?_) buf)
    · simpa [corner] using hhead q hq
    · -- without padding no window leaves the image
      rw [mem_rect] at hq
      have hrow := corner_add_le hs hk hq.1
      have hcol := corner_add_le hs hk hq.2
      simp only [corner, Nat.cast_zero, neg_zero, zero_add, add_zero] at hrow hcol
      simp only [gridWindow, corner, Nat.cast_zero, neg_zero, zero_add, Function.comp_apply,
        Prod.map_fst, Prod.map_snd]
      exact plainWindow_eq_paddedWindow _ _ _ _ _ (by positivity) (by positivity) hrow hcol

theorem length_gridWindow (input : ArrayType α) (origin : Int) (q : Nat × Nat) :
    (gridWindow input origin channels w p k s q).length = channels * k * k := by
  unfold gridWindow paddedWindow
  simp only [Int.toNat_natCast]
  exact length_window

/-- A cell inside the image is read from its place in the data. -/
theorem elem_eq_paddedCell {input : ArrayType α} {total : Nat}
    (hdata : input.data.length = total * (w * w)) {ch : Nat} (hch : ch < total) {y x n : Int}
    (hin : 0 ≤ y ∧ y < w ∧ 0 ≤ x ∧ x < w) (hn : n = ch * ((w : Int) * w) + y * w + x) :
    input.elem n = paddedCell input.data w ch y x := by
  rw [paddedCell, if_pos hin]
  obtain ⟨hy0, hyw, hx0, hxw⟩ := hin
  obtain ⟨y, rfl⟩ := Int.eq_ofNat_of_zero_le hy0
  obtain ⟨x, rfl⟩ := Int.eq_ofNat_of_zero_le hx0
  have hbound : ch * (w * w) + y * w + x < input.data.length := by
    rw [hdata, Nat.add_assoc]
    exact slot_lt hch (slot_lt (by omega) (by omega))
  have hcast : n = ((ch * (w * w) + y * w + x : Nat) : Int) := by
    rw [hn]
    push_cast
    ring
  rw [hcast, ArrayType.elem_of_lt _ hbound, Int.toNat_natCast, Int.toNat_natCast,
    List.getD_eq_getElem?_getD, List.getElem?_eq_getElem hbound, Option.getD_some]

/-- What a window of the selected channels holds, read from the whole input. -/
theorem getElem?_gridWindow {input : ArrayType α} {total : Nat} (start : Nat)
    (hdata : input.data.length = total * (w * w)) (hsel : start + channels ≤ total)
    {i j ch ky kx : Nat} (hch : ch < channels) (hky : ky < k) (hkx : kx < k) :
    (gridWindow input (start * ((w : Int) * w)) channels w p k s (i, j))[(ch * k + ky) * k + kx]? =
      some (paddedCell input.data w (start + ch) ((i * s + ky : Nat) - p)
        ((j * s + kx : Nat) - p)) := by
  unfold gridWindow paddedWindow
  simp only [Int.toNat_natCast]
  rw [getElem?_window hch hky hkx]
  refine congrArg some ?_
  have hy : ((i * s + ky : Nat) : Int) - p = ky + corner p s i := by
    unfold corner
    push_cast
    ring
  have hx : ((j * s + kx : Nat) : Int) - p = kx + corner p s j := by
    unfold corner
    push_cast
    ring
  rw [hy, hx]
  by_cases hin : 0 ≤ (ky : Int) + corner p s i ∧ (ky : Int) + corner p s i < w ∧
      0 ≤ (kx : Int) + corner p s j ∧ (kx : Int) + corner p s j < w
  · rw [if_neg (by omega)]
    refine elem_eq_paddedCell hdata (by omega) hin ?_
    push_cast
    ring
  · rw [paddedCell, if_neg hin, if_pos (by omega)]

/-- The cell of kernel position `(ch, ky, kx)` within a row of the im2col matrix. -/
theorem kernelCell_lt {ch ky kx : Nat} (hch : ch < channels) (hky : ky < k) (hkx : kx < k) :
    (ch * k + ky) * k + kx < channels * k * k :=
  slot_lt (slot_lt hch hky) hkx

/-- **Every cell of the im2col matrix**: row `i * o + j` is the window at `(i, j)`. -/
theorem getElem?_im2col {input : ArrayType α} {total start : Nat}
    (hdata : input.data.length = total * (w * w)) (hsel : start + channels ≤ total)
    {buf : List α} (hbuf : buf.length = outSide w p k s * outSide w p k s * (channels * k * k))
    {i j ch ky kx : Nat} (hi : i < outSide w p k s) (hj : j < outSide w p k s)
    (hch : ch < channels) (hky : ky < k) (hkx : kx < k) :
    (fillTiles (fun q => (q.1 * outSide w p k s + q.2) * (channels * k * k))
        (gridWindow input (start * ((w : Int) * w)) channels w p k s) buf
        (grid (outSide w p k s)))[(i * outSide w p k s + j) * (channels * k * k)
          + ((ch * k + ky) * k + kx)]? =
      some (paddedCell input.data w (start + ch) ((i * s + ky : Nat) - p)
        ((j * s + kx : Nat) - p)) := by
  set o := outSide w p k s with ho
  have hr : (ch * k + ky) * k + kx < channels * k * k := kernelCell_lt hch hky hkx
  have hin : (i * o + j) * (channels * k * k) + ((ch * k + ky) * k + kx) < buf.length := by
    rw [hbuf]
    exact slot_lt (slot_lt hi hj) hr
  exact (getElem?_fillTiles (fun q : Nat × Nat => q.1 * o + q.2)
    (fun q _ => length_gridWindow ..) (fun q hq r hr => rect_slot_injective hq hr) buf (p := (i, j))
    (mem_grid.mpr ⟨hi, hj⟩) hr hin).trans (getElem?_gridWindow start hdata hsel hch hky hkx)

end Core

/-! ## The product and the bias -/

section Product

variable {α : Type}

/-- **What the bias loop leaves in a cell.** -/
theorem getElem?_biasClamp [Zero α] [Add α] [Max α] (bias res : List α) (channels cols j : Nat) :
    (biasClamp bias channels cols res)[j]? =
      if j < channels * cols then res[j]?.map (fun x => max 0 (x + bias.getD (j / cols) 0))
      else res[j]? :=
  getElem?_foldl_rows channels cols (fun c x => max 0 (x + bias.getD c 0)) res j

theorem length_biasClamp [Zero α] [Add α] [Max α] (bias res : List α) (channels cols : Nat) :
    (biasClamp bias channels cols res).length = res.length :=
  length_foldl_rows channels cols (fun c x => max 0 (x + bias.getD c 0)) res

/-- What a convolution kernel returns: `oc` rows with one cell for each of `oh * ow` windows,
row by row, that hold `value`, with the bias added and clamped at 0 exactly when there is one
bias cell for each row. -/
structure Convolves [Zero α] [Add α] [Max α] (res : ArrayType α) (bias : WeightEntry α)
    (oc oh ow : Nat) (value : Nat → Nat → Nat → α) : Prop where
  dims : res.dims = [(oc : Int), (oh * ow : Nat)]
  length : res.data.length = oc * (oh * ow)
  cell : ∀ c < oc, ∀ i < oh, ∀ j < ow, res.data[c * (oh * ow) + (i * ow + j)]? =
    some (if bias.dimWord 0 = oc then max 0 (value c i j + bias.data.getD c 0) else value c i j)

/-- The bias branch shared by the kernels turns the product into such a result. -/
theorem convolves_of_product [Zero α] [Add α] [Max α] {product : List α} (bias : WeightEntry α)
    {oc oh ow : Nat} {value : Nat → Nat → Nat → α} (hlen : product.length = oc * (oh * ow))
    (hcell : ∀ c < oc, ∀ i < oh, ∀ j < ow,
      product[c * (oh * ow) + (i * ow + j)]? = some (value c i j)) (outside : Int → α) :
    Convolves (ArrayType.matrix oc (oh * ow : Nat)
      (if bias.dimWord 0 = oc then biasClamp bias.data oc (oh * ow) product else product) outside)
      bias oc oh ow value := by
  refine ⟨rfl, ?_, ?_⟩
  · simp only [ArrayType.matrix]
    split
    · rw [length_biasClamp, hlen]
    · exact hlen
  · intro c hc i hi j hj
    have hij : i * ow + j < oh * ow := slot_lt hi hj
    simp only [ArrayType.matrix]
    split
    · have hdiv : (c * (oh * ow) + (i * ow + j)) / (oh * ow) = c := by
        rw [Nat.mul_comm c, Nat.mul_add_div (by omega), Nat.div_eq_of_lt hij, Nat.add_zero]
      rw [getElem?_biasClamp, if_pos (slot_lt hc hij), hcell c hc i hi j hj, hdiv,
        Option.map_some]
    · exact hcell c hc i hi j hj

/-- The description leaves no cell open. -/
theorem Convolves.data_eq [Zero α] [Add α] [Max α] {res res' : ArrayType α} {bias : WeightEntry α}
    {oc oh ow : Nat} {value : Nat → Nat → Nat → α} (h : Convolves res bias oc oh ow value)
    (h' : Convolves res' bias oc oh ow value) : res.data = res'.data := by
  refine List.ext_getElem? fun n => ?_
  by_cases hn : n < oc * (oh * ow)
  · have hrow : 0 < oh * ow := Nat.pos_of_mul_pos_left (Nat.zero_lt_of_lt hn)
    have how : 0 < ow := Nat.pos_of_mul_pos_left hrow
    have hc : n / (oh * ow) < oc := (Nat.div_lt_iff_lt_mul hrow).mpr hn
    have hi : n % (oh * ow) / ow < oh := (Nat.div_lt_iff_lt_mul how).mpr (Nat.mod_lt n hrow)
    have hj : n % (oh * ow) % ow < ow := Nat.mod_lt _ how
    have hcell := (h.cell _ hc _ hi _ hj).trans (h'.cell _ hc _ hi _ hj).symm
    rwa [Nat.div_add_mod', Nat.div_add_mod'] at hcell
  · rw [List.getElem?_eq_none (by rw [h.length]; omega),
      List.getElem?_eq_none (by rw [h'.length]; omega)]

end Product

/-! ## `kfm_im2col` -/

section Main

variable {α : Type}

/-- The offset argument is NULL, or a pair `[start + 1, start + channels]` of channel numbers
in range. -/
def Selects (offset : Option (ArrayType Int)) (total start channels : Nat) : Prop :=
  (offset = none ∧ start = 0 ∧ channels = total) ∨
    ∃ off, offset = some off ∧ off.ndim = 1 ∧ off.dimWord 0 = 2 ∧ off.elem 0 = start + 1 ∧
      off.elem 1 = start + channels ∧ 1 ≤ channels ∧ start + channels ≤ total

/-- What a valid offset leaves of the argument: the selected channels' number and the same
data. -/
theorem selectChannels_of_selects {input : ArrayType α} {offset : Option (ArrayType Int)}
    {total w start channels : Nat} (hdims : input.dims = [(total : Int), (w : Int) * w])
    (hsel : Selects offset total start channels) :
    ∃ input', selectChannels input offset = .ok (input', (start : Int)) ∧
      input'.dimWord 0 = channels ∧ input'.dimWord 1 = (w : Int) * w ∧
        input'.data = input.data := by
  have h0 : input.dimWord 0 = total := by simp [ArrayType.dimWord, hdims]
  rcases hsel with ⟨rfl, rfl, rfl⟩ | ⟨off, rfl, hndim, hdim, ha, hb, hpos, hle⟩
  · exact ⟨input, rfl, h0, by simp [ArrayType.dimWord, hdims], rfl⟩
  · refine ⟨input.setDim0 channels, ?_, ?_, ?_, rfl⟩
    · rw [selectChannels, if_neg (by simp [hndim, hdim]), if_neg (by omega), ha, hb]
      rw [show (start : Int) + channels - (start + 1 - 1) = channels from by ring,
        show (start : Int) + 1 - 1 = start from by ring]
    · simp [ArrayType.dimWord, ArrayType.setDim0, hdims]
    · simp [ArrayType.dimWord, ArrayType.setDim0, hdims]

theorem Selects.le {offset : Option (ArrayType Int)} {total start channels : Nat}
    (h : Selects offset total start channels) : start + channels ≤ total := by
  rcases h with ⟨-, rfl, rfl⟩ | ⟨-, -, -, -, -, -, -, hle⟩
  · omega
  · exact hle

variable [CommRing α]

/-- What a convolution kernel finds outside: a GEMM that is one, and the two entries of its
weight in the pool. -/
structure Supplied (env : KernelEnv α) (name : Bytes) (kernels bias : WeightEntry α) : Prop where
  gemm : IsGemmNT env.sgemm
  pool : ∃ pool, env.pool = some pool ∧
    pool.getWeight (name ++ Part.val.suffix) = some kernels ∧
    pool.getWeight (name ++ Part.bias.suffix) = some bias

namespace Supplied

variable {env : KernelEnv α} {name : Bytes} {kernels bias : WeightEntry α}

theorem weight_val (h : Supplied env name kernels bias) (missing : String) :
    env.weight missing name .val = .ok kernels := by
  obtain ⟨pool, hpool, hval, -⟩ := h.pool
  simp only [KernelEnv.weight, hpool, hval]

theorem weight_bias (h : Supplied env name kernels bias) (missing : String) :
    env.weight missing name .bias = .ok bias := by
  obtain ⟨pool, hpool, -, hbias⟩ := h.pool
  simp only [KernelEnv.weight, hpool, hbias]

theorem pool_isNone (h : Supplied env name kernels bias) : env.pool.isNone = false := by
  obtain ⟨pool, hpool, -⟩ := h.pool
  rw [hpool, Option.isNone_some]

end Supplied

/-- The GEMM's sum over a row of the im2col matrix is the convolution sum. -/
theorem row_sum_eq_convolution (kernels data : List α) (s start : Nat) {F : List α}
    {channels k w p c i j : Nat} (hF : ∀ ch ky kx, ch < channels → ky < k → kx < k →
      F[(i * outSide w p k s + j) * (channels * k * k) + ((ch * k + ky) * k + kx)]? =
        some (paddedCell data w (start + ch) ((i * s + ky : Nat) - p) ((j * s + kx : Nat) - p))) :
    ∑ t ∈ Finset.range (channels * k * k), kernels.getD (c * (channels * k * k) + t) 0 *
        F.getD ((i * outSide w p k s + j) * (channels * k * k) + t) 0 =
      convolution kernels data channels k w p s start c i j := by
  rw [sum_range_window, convolution]
  refine Finset.sum_congr rfl fun ch hch => Finset.sum_congr rfl fun ky hky =>
    Finset.sum_congr rfl fun kx hkx => ?_
  rw [Finset.mem_range] at hch hky hkx
  rw [List.getD_eq_getElem?_getD (l := F), hF ch ky kx hch hky hkx, Option.getD_some]

variable [LinearOrder α]

/-- The product with both weights found. -/
theorem kernelProduct_eq {env : KernelEnv α} {name : Bytes} {kernels bias : WeightEntry α}
    (h : Supplied env name kernels bias) {valMissing biasMissing : String} {rows oc klen : Nat}
    (hoc : kernels.dimWord 0 = oc) (hklen : kernels.dimWord 1 = klen) (f_matrix : List α) :
    kernelProduct env valMissing biasMissing name (rows : Int) (klen : Int) f_matrix =
      .ok (ArrayType.matrix oc rows
        (if bias.dimWord 0 = oc then
          biasClamp bias.data oc rows (env.sgemm oc rows klen kernels.data f_matrix)
        else env.sgemm oc rows klen kernels.data f_matrix) env.junk) := by
  simp only [kernelProduct, h.weight_val, h.weight_bias, hoc, hklen, Int.toNat_natCast, bind,
    Except.bind, ne_eq, not_true_eq_false, if_false]

/-- The run of `kfm_im2col`: a product whose cells are the convolution sums, and the bias. -/
theorem kfmIm2col_run {env : KernelEnv α} {name : Bytes} {kernels bias : WeightEntry α}
    (hsup : Supplied env name kernels bias) {input : ArrayType α}
    {offset : Option (ArrayType Int)} {total w k p s start channels oc : Nat}
    (hdims : input.dims = [(total : Int), (w : Int) * w])
    (hdata : input.data.length = total * (w * w)) (hs : 1 ≤ s) (hk : k ≤ w + 2 * p)
    (hsel : Selects offset total start channels) (hoc : kernels.dimWord 0 = oc)
    (hklen : kernels.dimWord 1 = (channels * k * k : Nat)) :
    ∃ product, product.length = oc * (outSide w p k s * outSide w p k s) ∧
      (∀ c < oc, ∀ i < outSide w p k s, ∀ j < outSide w p k s,
        product[c * (outSide w p k s * outSide w p k s) + (i * outSide w p k s + j)]? =
          some (convolution kernels.data input.data channels k w p s start c i j)) ∧
      (kfmIm2col env name input k p s offset).1 =
        .ok (ArrayType.matrix oc (outSide w p k s * outSide w p k s : Nat)
          (if bias.dimWord 0 = oc then
            biasClamp bias.data oc (outSide w p k s * outSide w p k s) product
          else product) env.junk) := by
  obtain ⟨input', hselect, h0, h1, hdata'⟩ := selectChannels_of_selects hdims hsel
  set o := outSide w p k s with ho
  have hnelems : ((o : Int) * o * channels * k * k) = ((o * o * (channels * k * k) : Nat) : Int) := by
    push_cast
    ring
  have hbuf : (env.palloc ((o : Int) * o * channels * k * k)).length = o * o * (channels * k * k) := by
    rw [hnelems, KernelEnv.palloc, List.length_map, List.length_range, Int.toNat_natCast]
  set F := fillTiles (fun q => (q.1 * o + q.2) * (channels * k * k))
    (gridWindow input' (start * ((w : Int) * w)) channels w p k s)
    (env.palloc ((o : Int) * o * channels * k * k)) (grid o) with hFdef
  have hrun : (kfmIm2col env name input k p s offset).1 =
      .ok (ArrayType.matrix oc (o * o : Nat)
        (if bias.dimWord 0 = oc then
          biasClamp bias.data oc (o * o) (env.sgemm oc (o * o) (channels * k * k) kernels.data F)
        else env.sgemm oc (o * o) (channels * k * k) kernels.data F) env.junk) := by
    rw [kfmIm2col, hselect]
    have hstride : ¬ (s : Int) = 0 := by omega
    simp only [kfmIm2colBody, h0, h1, side_sq, outExtent_eq_outSide hk, ← ho, if_neg hstride,
      im2colCore_eq_fillTiles h0 h1 hs hk, Nat.zero_add, ← hFdef, bind, Except.bind, hsup.pool_isNone]
    have hrows : (o : Int) * o = ((o * o : Nat) : Int) := by push_cast; ring
    have hcols : (channels : Int) * k * k = ((channels * k * k : Nat) : Int) := by push_cast; ring
    rw [hrows, hcols]
    exact kernelProduct_eq hsup hoc hklen F
  obtain ⟨hlen, hcell⟩ := hsup.gemm oc (o * o) (channels * k * k) kernels.data F
  refine ⟨_, hlen, fun c hc i hi j hj => ?_, hrun⟩
  have hF : ∀ ch ky kx, ch < channels → ky < k → kx < k →
      F[(i * o + j) * (channels * k * k) + ((ch * k + ky) * k + kx)]? =
        some (paddedCell input.data w (start + ch) ((i * s + ky : Nat) - p)
          ((j * s + kx : Nat) - p)) := by
    intro ch ky kx hch hky hkx
    rw [← hdata']
    exact getElem?_im2col (hdata' ▸ hdata) hsel.le hbuf hi hj hch hky hkx
  rw [hcell c hc (i * o + j) (slot_lt hi hj), row_sum_eq_convolution _ input.data s start hF]

theorem kfmIm2col_convolves {env : KernelEnv α} {name : Bytes} {kernels bias : WeightEntry α}
    (hsup : Supplied env name kernels bias) {input : ArrayType α}
    {offset : Option (ArrayType Int)} {total w k p s start channels oc : Nat}
    (hdims : input.dims = [(total : Int), (w : Int) * w])
    (hdata : input.data.length = total * (w * w)) (hs : 1 ≤ s) (hk : k ≤ w + 2 * p)
    (hsel : Selects offset total start channels) (hoc : kernels.dimWord 0 = oc)
    (hklen : kernels.dimWord 1 = (channels * k * k : Nat)) :
    ∃ res, (kfmIm2col env name input k p s offset).1 = .ok res ∧
      Convolves res bias oc (outSide w p k s) (outSide w p k s)
        (convolution kernels.data input.data channels k w p s start) := by
  obtain ⟨product, hlen, hcell, hrun⟩ := kfmIm2col_run hsup hdims hdata hs hk hsel hoc hklen
  exact ⟨_, hrun, convolves_of_product bias hlen hcell env.junk⟩

end Main

/-! ## A run -/

/-- A plain triple loop is such a GEMM. -/
def gemmNT {α : Type} [NonUnitalNonAssocSemiring α] (m n k : Nat) (A B : List α) : List α :=
  (List.range m).flatMap fun i => (List.range n).map fun j =>
    ∑ t ∈ Finset.range k, A.getD (i * k + t) 0 * B.getD (j * k + t) 0

theorem isGemmNT_gemmNT {α : Type} [NonUnitalNonAssocSemiring α] :
    IsGemmNT (gemmNT (α := α)) := by
  intro m n k A B
  have hrow : ∀ i, ((List.range n).map fun j =>
      ∑ t ∈ Finset.range k, A.getD (i * k + t) 0 * B.getD (j * k + t) 0).length = n := by
    simp
  refine ⟨length_flatMap_blocks fun i _ => hrow i, fun i hi j hj => ?_⟩
  rw [gemmNT, getElem?_flatMap_blocks (fun i _ => hrow i) hi hj]
  simp [hj]

/-- An entry of the pool for a small weight. -/
def smallEntry (name : Bytes) (data : List Int) (d0 d1 : Int) : WeightEntry Int where
  name := name
  data := data
  data_size := 4 * data.length
  ndims := 2
  words := [d0, d1, 0, 0, FLOAT4OID, 0]
  hwords := rfl

/-- A pool with one kernel of two channels and its bias. -/
def smallEnv : KernelEnv Int where
  pool := some
    { entries := fun key =>
        if key = ascii "c_val" then some (smallEntry key (List.replicate 18 1) 1 18)
        else if key = ascii "c_bias" then some (smallEntry key [-2] 1 1)
        else none
      current_memory_usage := 0 }
  sgemm := gemmNT
  junk := fun _ => 0

end Peps
