import Mathlib.Algebra.Order.BigOperators.Group.Finset
import Peps.Kernel.ConvCorrect

/-!
# `kfm_im2col_ns`: kernels with one row or one column

`im2col_core_W` serves `1 × kernel_W` kernels and `im2col_core_H` serves `kernel_H × 1` kernels.
Each pads only the axis the kernel extends along: the other one is walked from `0` up to the
image's edge, whatever padding the caller has sized the matrix for. `im2col_core_H` moreover
numbers the windows `i * out_height + j`, while the product reads row `i * out_width + j`.

Both are a filling of tiles at numbers `i * stride + j` (`im2colCoreW_eq`, `im2colCoreH_eq`). The
main theorem decides from the sizes alone when that is the im2col matrix of the direct
zero-padded convolution. A tile that is never written leaves what the memory held, and a tile
of the wrong row shows on an image of ones, so no other sizes are right for every image.
-/

namespace Peps

open Lib

/-! ## Corners inside the image -/

/-- The number of corners `0`, `s`, `2s`, … at which a kernel of extent `k` fits. -/
def fitting (h k s : Nat) : Nat := if k ≤ h then (h - k) / s + 1 else 0

section Positions

variable {h w k p s i : Nat}

theorem lt_fitting_iff (hs : 1 ≤ s) : i < fitting h k s ↔ i * s + k ≤ h := by
  unfold fitting
  split
  · rw [Nat.lt_succ_iff, Nat.le_div_iff_mul_le hs]
    omega
  · omega

theorem lt_outSide_iff (hs : 1 ≤ s) : i < outSide w p k s ↔ i * s ≤ w + 2 * p - k := by
  rw [outSide, Nat.lt_succ_iff, Nat.le_div_iff_mul_le hs]

theorem steps_fitting (hs : 1 ≤ s) :
    steps 0 ((h : Int) - k + 1) s =
      (List.range (fitting h k s)).map fun (i : Nat) => (i : Int) * s := by
  have hend : ¬ fitting h k s * s + k ≤ h :=
    fun hle => Nat.lt_irrefl _ ((lt_fitting_iff hs).mpr hle)
  rw [steps_eq_range (n := fitting h k s) (by omega)]
  · simp
  · rcases Nat.eq_zero_or_pos (fitting h k s) with h0 | hpos
    · exact .inl h0
    · right
      have hlast := (lt_fitting_iff (h := h) (k := k) hs).mp (Nat.sub_lt hpos Nat.one_pos)
      have hcast : ((fitting h k s : Int) - 1) * s = (((fitting h k s - 1) * s : Nat) : Int) := by
        rw [Nat.cast_mul, Nat.cast_sub hpos, Nat.cast_one]
      rw [hcast]
      omega
  · have hcast : (fitting h k s : Int) * s = ((fitting h k s * s : Nat) : Int) := by push_cast; ring
    rw [hcast]
    omega

/-- Padding only adds windows. -/
theorem fitting_le_outSide (hs : 1 ≤ s) : fitting h k s ≤ outSide h p k s := by
  refine Nat.le_of_not_lt fun hlt => ?_
  rw [lt_fitting_iff hs] at hlt
  exact Nat.lt_irrefl _ ((lt_outSide_iff hs).mpr (by omega : outSide h p k s * s ≤ h + 2 * p - k))

/-- Without padding the windows are those that fit. -/
theorem outSide_unpadded (hs : 1 ≤ s) (hk : k ≤ h) : outSide h 0 k s = fitting h k s := by
  refine Nat.le_antisymm (Nat.le_of_not_lt fun hlt => ?_) (fitting_le_outSide hs)
  rw [lt_outSide_iff hs] at hlt
  exact Nat.lt_irrefl _ ((lt_fitting_iff hs).mpr (by omega : fitting h k s * s + k ≤ h))

/-- The corners along an axis the kernel has extent 1 on. -/
def visited (w s : Nat) : Nat := fitting w 1 s

theorem lt_visited_iff (hs : 1 ≤ s) : i < visited w s ↔ i * s < w :=
  lt_fitting_iff hs

theorem steps_visited (hs : 1 ≤ s) :
    steps 0 w s = (List.range (visited w s)).map fun (i : Nat) => (i : Int) * s := by
  have hsteps := steps_fitting (h := w) (k := 1) hs
  rwa [Nat.cast_one, Int.sub_add_cancel] at hsteps

end Positions

/-! ## The two loops -/

section Tiles

variable {α : Type} [Zero α] {channels w s : Nat}

/-- The row of cells `im2col_core_W` stores for window `q`. -/
def rowTile (input : ArrayType α) (origin : Int) (channels w pW kW s : Nat) (q : Nat × Nat) :
    List α :=
  rowWindow (fun i => input.elem (origin + i)) channels ((w : Int) * w) w kW ((q.1 : Int) * s)
    (corner pW s q.2)

/-- The column of cells `im2col_core_H` stores for window `q`. -/
def columnTile (input : ArrayType α) (origin : Int) (channels w pH kH s : Nat) (q : Nat × Nat) :
    List α :=
  columnWindow (fun i => input.elem (origin + i)) channels ((w : Int) * w) w w kH
    (corner pH s q.1) ((q.2 : Int) * s)

theorem im2colCoreW_eq {input : ArrayType α} (h0 : input.dimWord 0 = channels)
    (h1 : input.dimWord 1 = (w : Int) * w) (hs : 1 ≤ s) {pW kW : Nat} (hk : kW ≤ w + 2 * pW)
    (origin : Int) (buf : List α) :
    im2colCoreW input origin kW pW s buf =
      .ok (fillTiles (fun q => (q.1 * outSide w pW kW s + q.2) * (channels * kW))
        (rowTile input origin channels w pW kW s) buf
        (rect (visited w s) (outSide w pW kW s))) := by
  simp only [im2colCoreW, h0, h1, side_sq, outExtent_eq_outSide hk]
  rw [tiledLoop, if_neg (by omega), steps_visited hs, steps_corners hs hk, flatMap_map_rect,
    fillTiles_map]
  refine congrArg _ (fillTiles_congr (fun q _ => ?_) (fun _ _ => rfl) buf)
  show (((((q.1 : Int) * s).tdiv s * (outSide w pW kW s : Nat)
    + (corner pW s q.2 + pW).tdiv s) * channels * kW)).toNat = _
  have hcast : ((q.1 : Int) * (outSide w pW kW s : Nat) + q.2) * channels * kW =
      (((q.1 * outSide w pW kW s + q.2) * (channels * kW) : Nat) : Int) := by
    push_cast
    ring
  rw [Int.mul_tdiv_cancel _ (by omega), corner_tdiv hs, hcast, Int.toNat_natCast]

theorem im2colCoreH_eq {input : ArrayType α} (h0 : input.dimWord 0 = channels)
    (h1 : input.dimWord 1 = (w : Int) * w) (hs : 1 ≤ s) {pH kH : Nat} (hk : kH ≤ w + 2 * pH)
    (origin : Int) (buf : List α) :
    im2colCoreH input origin kH pH s buf =
      .ok (fillTiles (fun q => (q.1 * outSide w pH kH s + q.2) * (channels * kH))
        (columnTile input origin channels w pH kH s) buf
        (rect (outSide w pH kH s) (visited w s))) := by
  simp only [im2colCoreH, h0, h1, side_sq, outExtent_eq_outSide hk]
  rw [tiledLoop, if_neg (by omega), steps_visited hs, steps_corners hs hk, flatMap_map_rect,
    fillTiles_map]
  refine congrArg _ (fillTiles_congr (fun q _ => ?_) (fun _ _ => rfl) buf)
  show ((((corner pH s q.1 + pH).tdiv s * (outSide w pH kH s : Nat)
    + ((q.2 : Int) * s).tdiv s) * channels * kH)).toNat = _
  have hcast : ((q.1 : Int) * (outSide w pH kH s : Nat) + q.2) * channels * kH =
      (((q.1 * outSide w pH kH s + q.2) * (channels * kH) : Nat) : Int) := by
    push_cast
    ring
  rw [Int.mul_tdiv_cancel _ (by omega), corner_tdiv hs, hcast, Int.toNat_natCast]

theorem length_plane {β : Type} {k : Nat} {cell : Nat → Nat → β} :
    ((List.range channels).flatMap fun c => (List.range k).map fun t => cell c t).length =
      channels * k :=
  length_flatMap_blocks fun c _ => by simp

theorem getElem?_plane {β : Type} {k ch t : Nat} {cell : Nat → Nat → β} (hch : ch < channels)
    (ht : t < k) :
    ((List.range channels).flatMap fun c => (List.range k).map fun t => cell c t)[ch * k + t]? =
      some (cell ch t) := by
  rw [getElem?_flatMap_blocks (fun c _ => by simp) hch ht]
  simp [ht]

theorem length_rowTile (input : ArrayType α) (origin : Int) (pW kW : Nat) (q : Nat × Nat) :
    (rowTile input origin channels w pW kW s q).length = channels * kW :=
  length_plane

theorem length_columnTile (input : ArrayType α) (origin : Int) (pH kH : Nat) (q : Nat × Nat) :
    (columnTile input origin channels w pH kH s q).length = channels * kH :=
  length_plane

/-- A cell of the row: the image row is the unpadded one. -/
theorem getElem?_rowTile {input : ArrayType α} {total start : Nat}
    (hdata : input.data.length = total * (w * w)) (hsel : start + channels ≤ total)
    {pW kW i j ch kx : Nat} (hi : i * s < w) (hch : ch < channels) (hkx : kx < kW) :
    (rowTile input (start * ((w : Int) * w)) channels w pW kW s (i, j))[ch * kW + kx]? =
      some (paddedCell input.data w (start + ch) (i * s : Nat) ((j * s + kx : Nat) - pW)) := by
  unfold rowTile rowWindow
  simp only [Int.toNat_natCast]
  rw [getElem?_plane hch hkx]
  refine congrArg some ?_
  have hx : ((j * s + kx : Nat) : Int) - pW = kx + corner pW s j := by
    unfold corner
    push_cast
    ring
  rw [hx]
  by_cases hin : 0 ≤ (kx : Int) + corner pW s j ∧ (kx : Int) + corner pW s j < w
  · rw [if_neg (by omega)]
    refine elem_eq_paddedCell hdata (by omega) ⟨by omega, by omega, hin.1, hin.2⟩ ?_
    push_cast
    ring
  · rw [if_pos (by omega), paddedCell, if_neg (by omega)]

/-- A cell of the column: the image column is the unpadded one. -/
theorem getElem?_columnTile {input : ArrayType α} {total start : Nat}
    (hdata : input.data.length = total * (w * w)) (hsel : start + channels ≤ total)
    {pH kH i j ch ky : Nat} (hj : j * s < w) (hch : ch < channels) (hky : ky < kH) :
    (columnTile input (start * ((w : Int) * w)) channels w pH kH s (i, j))[ch * kH + ky]? =
      some (paddedCell input.data w (start + ch) ((i * s + ky : Nat) - pH) (j * s : Nat)) := by
  unfold columnTile columnWindow
  simp only [Int.toNat_natCast]
  rw [getElem?_plane hch hky]
  refine congrArg some ?_
  have hy : ((i * s + ky : Nat) : Int) - pH = ky + corner pH s i := by
    unfold corner
    push_cast
    ring
  rw [hy]
  by_cases hin : 0 ≤ (ky : Int) + corner pH s i ∧ (ky : Int) + corner pH s i < w
  · rw [if_neg (by omega)]
    refine elem_eq_paddedCell hdata (by omega) ⟨hin.1, hin.2, by omega, by omega⟩ ?_
    push_cast
    ring
  · rw [if_pos (by omega), paddedCell, if_neg (by omega)]

end Tiles

/-! ## The matrix and the product -/

section Product

variable {α : Type}

/-- The convolution sum of output channel `c` at window `(i, j)` for a `kH × kW` kernel. -/
def axisConvolution [NonUnitalNonAssocSemiring α] (kernels data : List α)
    (channels kH kW w pH pW s start c i j : Nat) : α :=
  ∑ ch ∈ Finset.range channels, ∑ ky ∈ Finset.range kH, ∑ kx ∈ Finset.range kW,
    kernels.getD (c * (channels * kH * kW) + ((ch * kH + ky) * kW + kx)) 0 *
      paddedCell data w (start + ch) ((i * s + ky : Nat) - pH) ((j * s + kx : Nat) - pW)

/-- What the two loops leave in `f_matrix`. -/
def nsMatrix [Zero α] (input : ArrayType α) (origin : Int) (channels kH kW w pH pW s : Nat)
    (buf : List α) : List α :=
  if kH = 1 then
    fillTiles (fun q => (q.1 * outSide w pW kW s + q.2) * (channels * kW))
      (rowTile input origin channels w pW kW s) buf (rect (visited w s) (outSide w pW kW s))
  else
    fillTiles (fun q => (q.1 * outSide w pH kH s + q.2) * (channels * kH))
      (columnTile input origin channels w pH kH s) buf (rect (outSide w pH kH s) (visited w s))

variable [CommRing α] [LinearOrder α]

theorem kfmIm2colNs_run {env : KernelEnv α} {name : Bytes} {kernels bias : WeightEntry α}
    (hsup : Supplied env name kernels bias) {input : ArrayType α}
    {offset : Option (ArrayType Int)} {total w kH kW pH pW s start channels oc : Nat}
    (hdims : input.dims = [(total : Int), (w : Int) * w]) (hs : 1 ≤ s) (hkH : kH ≤ w + 2 * pH)
    (hkW : kW ≤ w + 2 * pW) (hsel : Selects offset total start channels)
    (hoc : kernels.dimWord 0 = oc) (hklen : kernels.dimWord 1 = (channels * kH * kW : Nat)) :
    ∃ input' product, input'.data = input.data ∧
      product = env.sgemm oc (outSide w pH kH s * outSide w pW kW s) (channels * kH * kW)
        kernels.data (nsMatrix input' (start * ((w : Int) * w)) channels kH kW w pH pW s
          (env.palloc (outSide w pH kH s * outSide w pW kW s * (channels * kH * kW) : Nat))) ∧
      (kfmIm2colNs env name input kH kW pH pW s offset).1 =
        .ok (ArrayType.matrix oc (outSide w pH kH s * outSide w pW kW s : Nat)
          (if bias.dimWord 0 = oc then
            biasClamp bias.data oc (outSide w pH kH s * outSide w pW kW s) product
          else product) env.junk) := by
  obtain ⟨input', hselect, h0, h1, hdata'⟩ := selectChannels_of_selects hdims hsel
  set oh := outSide w pH kH s with hoh
  set ow := outSide w pW kW s with how
  have hstride : ¬ (s : Int) = 0 := by omega
  have hnelems : (ow : Int) * oh * channels * kW * kH =
      ((oh * ow * (channels * kH * kW) : Nat) : Int) := by
    push_cast
    ring
  have hrows : (ow : Int) * oh = ((oh * ow : Nat) : Int) := by push_cast; ring
  have hcols : (channels : Int) * kH * kW = ((channels * kH * kW : Nat) : Int) := by
    push_cast
    ring
  refine ⟨input', _, hdata', rfl, ?_⟩
  simp only [kfmIm2colNs, hselect, kfmIm2colNsBody, h0, h1, side_sq, outExtent_eq_outSide hkH,
    outExtent_eq_outSide hkW, ← hoh, ← how, if_neg hstride, hnelems, hcols,
    im2colCoreW_eq h0 h1 hs hkW, im2colCoreH_eq h0 h1 hs hkH]
  have hone : (kH : Int) = 1 ↔ kH = 1 := by omega
  by_cases hkH1 : kH = 1
  · simp only [hone, if_pos hkH1, nsMatrix, bind, Except.bind, hrows]
    exact kernelProduct_eq hsup hoc hklen _
  · simp only [hone, if_neg hkH1, nsMatrix, bind, Except.bind, hrows]
    exact kernelProduct_eq hsup hoc hklen _

end Product

/-! ## The sizes that are right -/

/-- Window `i` along a padded axis has no cell in the image. -/
def AxisOut (w p k s i : Nat) : Prop :=
  ∀ t < k, ¬ (0 ≤ ((i * s + t : Nat) : Int) - p ∧ ((i * s + t : Nat) : Int) - p < w)

instance (w p k s i : Nat) : Decidable (AxisOut w p k s i) := by
  unfold AxisOut
  infer_instance

/-- No window along a padded axis meets the image: the stride jumps over it. -/
def AxisMisses (w p k s : Nat) : Prop := ∀ i < outSide w p k s, AxisOut w p k s i

/-- The axis a loop walks without padding has none, or nothing can be seen of the mistake: all
windows are blank and none is left out. -/
def AxisHolds (w pOther p k s : Nat) : Prop :=
  pOther = 0 ∨ (AxisMisses w p k s ∧ outSide w pOther 1 s = visited w s)

/-- When `kfm_im2col_ns` lays out the windows of a convolution: for a row kernel the rows are
not padded; for a column kernel the columns are not, and the number of window rows, by which
the windows are numbered, is that of the window columns, or there is one row only. -/
def NsHolds (kH kW w pH pW s : Nat) : Prop :=
  if kH = 1 then AxisHolds w pH pW kW s
  else AxisHolds w pW pH kH s ∧
    (outSide w pH kH s = outSide w pW kW s ∨ outSide w pH kH s = 1)

instance (w p k s : Nat) : Decidable (AxisMisses w p k s) := by
  unfold AxisMisses
  infer_instance

instance (kH kW w pH pW s : Nat) : Decidable (NsHolds kH kW w pH pW s) := by
  unfold NsHolds AxisHolds
  infer_instance

section Sufficient

variable {α : Type} [Zero α] {channels kH kW w pH pW s : Nat}

theorem AxisHolds.outSide_eq {pOther p k : Nat} (h : AxisHolds w pOther p k s) (hs : 1 ≤ s)
    (hw : 1 ≤ w + 2 * pOther) : outSide w pOther 1 s = visited w s := by
  rcases h with rfl | ⟨-, hall⟩
  · exact outSide_unpadded hs (by omega)
  · exact hall

theorem paddedCell_of_row_out {data : List α} {ch : Nat} {y x : Int} (h : ¬ (0 ≤ y ∧ y < w)) :
    paddedCell data w ch y x = 0 := by
  rw [paddedCell, if_neg (by omega)]

theorem paddedCell_of_column_out {data : List α} {ch : Nat} {y x : Int}
    (h : ¬ (0 ≤ x ∧ x < w)) : paddedCell data w ch y x = 0 := by
  rw [paddedCell, if_neg (by omega)]

/-- **The matrix of a right size**: row `i * ow + j` is the zero-padded window at `(i, j)`. -/
theorem getElem?_nsMatrix {input : ArrayType α} {total start : Nat}
    (hdata : input.data.length = total * (w * w)) (hsel : start + channels ≤ total) (hs : 1 ≤ s)
    (hkH : kH ≤ w + 2 * pH) (hkW : kW ≤ w + 2 * pW) (hone : kH = 1 ∨ kW = 1)
    (hholds : NsHolds kH kW w pH pW s) {buf : List α}
    (hbuf : buf.length = outSide w pH kH s * outSide w pW kW s * (channels * kH * kW))
    {i j ch ky kx : Nat} (hi : i < outSide w pH kH s) (hj : j < outSide w pW kW s)
    (hch : ch < channels) (hky : ky < kH) (hkx : kx < kW) :
    (nsMatrix input (start * ((w : Int) * w)) channels kH kW w pH pW s buf)[
        (i * outSide w pW kW s + j) * (channels * kH * kW) + ((ch * kH + ky) * kW + kx)]? =
      some (paddedCell input.data w (start + ch) ((i * s + ky : Nat) - pH)
        ((j * s + kx : Nat) - pW)) := by
  by_cases hkH1 : kH = 1
  · subst hkH1
    rw [NsHolds, if_pos rfl] at hholds
    obtain rfl : ky = 0 := by omega
    have hrows := hholds.outSide_eq hs hkH
    rw [nsMatrix, if_pos rfl]
    simp only [Nat.mul_one, Nat.add_zero] at hbuf ⊢
    have hin : (i * outSide w pW kW s + j) * (channels * kW) + (ch * kW + kx) < buf.length := by
      rw [hbuf]
      exact slot_lt (slot_lt hi hj) (slot_lt hch hkx)
    have hvisit : i < visited w s := hrows ▸ hi
    rw [getElem?_fillTiles (fun q : Nat × Nat => q.1 * outSide w pW kW s + q.2)
      (fun q _ => length_rowTile ..) (fun q hq r hr => rect_slot_injective hq hr) buf (p := (i, j))
      (mem_rect.mpr ⟨hvisit, hj⟩) (slot_lt hch hkx) hin,
      getElem?_rowTile hdata hsel ((lt_visited_iff hs).mp hvisit) hch hkx]
    rcases hholds with rfl | ⟨hmiss, -⟩
    · simp
    · rw [paddedCell_of_column_out (hmiss j hj kx hkx), paddedCell_of_column_out (hmiss j hj kx hkx)]
  · obtain rfl : kW = 1 := hone.resolve_left hkH1
    rw [NsHolds, if_neg hkH1] at hholds
    obtain ⟨haxis, hsquare⟩ := hholds
    obtain rfl : kx = 0 := by omega
    have hcols := haxis.outSide_eq hs hkW
    rw [nsMatrix, if_neg hkH1]
    simp only [Nat.mul_one, Nat.add_zero] at hbuf ⊢
    have hin : (i * outSide w pW 1 s + j) * (channels * kH) + (ch * kH + ky) < buf.length := by
      rw [hbuf]
      exact slot_lt (slot_lt hi hj) (slot_lt hch hky)
    -- the window's number is the same in both countings
    have hslot : i * outSide w pW 1 s + j = i * outSide w pH kH s + j := by
      rcases hsquare with heq | hrow
      · rw [heq]
      · obtain rfl : i = 0 := by omega
        simp
    have hvisit : j < visited w s := hcols ▸ hj
    rw [hslot] at hin ⊢
    rw [getElem?_fillTiles (fun q : Nat × Nat => q.1 * outSide w pH kH s + q.2)
      (fun q _ => length_columnTile ..) (fun q hq r hr => strided_slot_injective (by omega) hq hr) buf
      (p := (i, j)) (mem_rect.mpr ⟨hi, hvisit⟩) (slot_lt hch hky) hin,
      getElem?_columnTile hdata hsel ((lt_visited_iff hs).mp hvisit) hch hky]
    rcases haxis with rfl | ⟨hmiss, -⟩
    · simp
    · rw [paddedCell_of_row_out (hmiss i hi ky hky), paddedCell_of_row_out (hmiss i hi ky hky)]

end Sufficient

/-- `kfm_im2col_ns` returns the convolution whatever the image, the weights and the memory hold. -/
def NsCorrect (channels oc kH kW w pH pW s : Nat) : Prop :=
  ∀ (α : Type) [CommRing α] [LinearOrder α] (env : KernelEnv α) (name : Bytes)
    (kernels bias : WeightEntry α) (input : ArrayType α) (offset : Option (ArrayType Int))
    (total start : Nat), Supplied env name kernels bias →
    input.dims = [(total : Int), (w : Int) * w] → input.data.length = total * (w * w) →
    Selects offset total start channels → kernels.dimWord 0 = oc →
    kernels.dimWord 1 = (channels * kH * kW : Nat) →
    ∃ res, (kfmIm2colNs env name input kH kW pH pW s offset).1 = .ok res ∧
      Convolves res bias oc (outSide w pH kH s) (outSide w pW kW s)
        (axisConvolution kernels.data input.data channels kH kW w pH pW s start)

/-! ## No other sizes are right -/

section Probe

variable {channels oc kH kW w pH pW s : Nat}

/-- A weight whose bias does not apply, in memory that holds `junk`. -/
def weightEnv (oc klen : Nat) (data : List Int) (junk : Int) : KernelEnv Int where
  pool := some
    { entries := fun key =>
        if key = ascii "c_val" then some (smallEntry key data oc klen)
        else if key = ascii "c_bias" then some (smallEntry key [] (oc + 1) 1)
        else none
      current_memory_usage := 0 }
  sgemm := gemmNT
  junk := fun _ => junk

theorem weightEnv_supplied (oc klen : Nat) (data : List Int) (junk : Int) :
    Supplied (weightEnv oc klen data junk) (ascii "c") (smallEntry (ascii "c_val") data oc klen)
      (smallEntry (ascii "c_bias") [] (oc + 1) 1) :=
  ⟨isGemmNT_gemmNT, _, rfl, rfl, rfl⟩

theorem not_biased (oc : Nat) :
    ¬ (smallEntry (ascii "c_bias") [] (oc + 1) 1).dimWord 0 = (oc : Int) := by
  show ¬ ((oc : Int) + 1 = oc)
  omega

/-- A weight of ones. -/
def probeEnv (oc klen : Nat) (junk : Int) : KernelEnv Int :=
  weightEnv oc klen (List.replicate (oc * klen) 1) junk

theorem probeEnv_supplied (oc klen : Nat) (junk : Int) :
    Supplied (probeEnv oc klen junk) (ascii "c")
      (smallEntry (ascii "c_val") (List.replicate (oc * klen) 1) oc klen)
      (smallEntry (ascii "c_bias") [] (oc + 1) 1) :=
  weightEnv_supplied ..

/-- An image of constant cells. -/
def probeImage (channels w : Nat) (d : Int) : ArrayType Int :=
  ArrayType.matrix channels ((w : Int) * w) (List.replicate (channels * (w * w)) d) fun _ => 0

theorem paddedCell_replicate (d : Int) {ch : Nat} (hch : ch < channels) (y x : Int) :
    paddedCell (List.replicate (channels * (w * w)) d) w ch y x =
      if 0 ≤ y ∧ y < w ∧ 0 ≤ x ∧ x < w then d else 0 := by
  unfold paddedCell
  split
  · have hin : ch * (w * w) + y.toNat * w + x.toNat < channels * (w * w) := by
      rw [Nat.add_assoc]
      exact slot_lt hch (slot_lt (by omega) (by omega))
    rw [List.getD_eq_getElem?_getD, List.getElem?_replicate_of_lt hin, Option.getD_some]
  · rfl

/-- What a correct kernel says about the matrix of a constant image: each row adds up to the
number of cells of its zero-padded window that lie in the image, times the constant. -/
theorem probe_row (h : NsCorrect channels oc kH kW w pH pW s) (hoc : 1 ≤ oc) (hs : 1 ≤ s)
    (hkH : kH ≤ w + 2 * pH) (hkW : kW ≤ w + 2 * pW) (junk d : Int) :
    ∃ input : ArrayType Int, input.data = List.replicate (channels * (w * w)) d ∧
      ∀ i < outSide w pH kH s, ∀ j < outSide w pW kW s,
        ∑ t ∈ Finset.range (channels * kH * kW),
          (nsMatrix input ((0 : Nat) * ((w : Int) * w)) channels kH kW w pH pW s
            ((probeEnv oc (channels * kH * kW) junk).palloc
              (outSide w pH kH s * outSide w pW kW s * (channels * kH * kW) : Nat))).getD
            ((i * outSide w pW kW s + j) * (channels * kH * kW) + t) 0 =
        ∑ ch ∈ Finset.range channels, ∑ ky ∈ Finset.range kH, ∑ kx ∈ Finset.range kW,
          paddedCell (List.replicate (channels * (w * w)) d) w ch ((i * s + ky : Nat) - pH)
            ((j * s + kx : Nat) - pW) := by
  have hsup := probeEnv_supplied oc (channels * kH * kW) junk
  have hsel : Selects none channels 0 channels := .inl ⟨rfl, rfl, rfl⟩
  have himage : (probeImage channels w d).dims = [(channels : Int), (w : Int) * w] := rfl
  obtain ⟨input, product, hdata, hproduct, hrun⟩ :=
    kfmIm2colNs_run hsup himage hs hkH hkW hsel rfl rfl
  obtain ⟨res, hres, hconv⟩ := h Int (probeEnv oc (channels * kH * kW) junk) (ascii "c") _ _
    (probeImage channels w d) none channels 0 hsup himage (by simp [probeImage, ArrayType.matrix])
    hsel rfl rfl
  refine ⟨input, hdata, fun i hi j hj => ?_⟩
  generalize nsMatrix input ((0 : Nat) * ((w : Int) * w)) channels kH kW w pH pW s _ = F
    at hproduct ⊢
  have hcell := hconv.cell 0 hoc i hi j hj
  rw [← Except.ok.inj (hrun.symm.trans hres), if_neg (not_biased oc), if_neg (not_biased oc)] at hcell
  have hsum := (hsup.gemm oc (outSide w pH kH s * outSide w pW kW s) (channels * kH * kW)
    (List.replicate (oc * (channels * kH * kW)) 1) F).2 0 hoc _ (slot_lt hi hj)
  have heq := Option.some.inj (hsum.symm.trans (hproduct ▸ hcell))
  -- all weights are 1
  have hones : ∀ t, t < channels * kH * kW →
      (List.replicate (oc * (channels * kH * kW)) (1 : Int)).getD
        (0 * (channels * kH * kW) + t) 0 = 1 := by
    intro t ht
    rw [List.getD_eq_getElem?_getD, List.getElem?_replicate_of_lt (slot_lt hoc ht),
      Option.getD_some]
  refine Eq.trans (Finset.sum_congr rfl fun t ht => ?_) (heq.trans ?_)
  · rw [hones t (Finset.mem_range.mp ht), one_mul]
  · refine Finset.sum_congr rfl fun ch hch => Finset.sum_congr rfl fun ky hky =>
      Finset.sum_congr rfl fun kx hkx => ?_
    rw [Finset.mem_range] at hch hky hkx
    have hone := hones _ (slot_lt (slot_lt hch hky) hkx)
    show (List.replicate (oc * (channels * kH * kW)) (1 : Int)).getD _ 0 * _ = _
    rw [hone, one_mul, Nat.zero_add]
    rfl

/-- A tile that is not written holds what the memory held. -/
theorem sum_unwritten (slot : Nat × Nat → Nat) {tile : Nat × Nat → List Int} {L N n klen : Nat}
    {ps : List (Nat × Nat)} (hlen : ∀ q ∈ ps, (tile q).length = L) (hn : ∀ q ∈ ps, slot q ≠ n)
    (hin : n < N) (junk : Int) :
    ∑ t ∈ Finset.range L, (fillTiles (fun q => slot q * L) tile
      ((probeEnv oc klen junk).palloc (N * L : Nat)) ps).getD (n * L + t) 0 = L * junk := by
  have hcell : ∀ t ∈ Finset.range L, (fillTiles (fun q => slot q * L) tile
      ((probeEnv oc klen junk).palloc (N * L : Nat)) ps).getD (n * L + t) 0 = junk := by
    intro t ht
    have hlt := slot_lt hin (Finset.mem_range.mp ht)
    rw [List.getD_eq_getElem?_getD, getElem?_fillTiles_unwritten slot hlen hn _
      (Finset.mem_range.mp ht), KernelEnv.palloc, Int.toNat_natCast]
    simp [hlt, probeEnv, weightEnv]
  rw [Finset.sum_congr rfl hcell, Finset.sum_const, Finset.card_range, nsmul_eq_mul]

/-- A blank image has only blank windows. -/
theorem sum_blank (y x : Nat → Nat → Nat → Int) :
    ∑ ch ∈ Finset.range channels, ∑ ky ∈ Finset.range kH, ∑ kx ∈ Finset.range kW,
      paddedCell (List.replicate (channels * (w * w)) (0 : Int)) w ch (y ch ky kx) (x ch ky kx) =
        0 := by
  refine Finset.sum_eq_zero fun ch hch => Finset.sum_eq_zero fun ky _ =>
    Finset.sum_eq_zero fun kx _ => ?_
  rw [paddedCell_replicate 0 (Finset.mem_range.mp hch), ite_self]

/-- On an image of ones a tile that adds up to 0 has no cell inside. -/
theorem cell_out_of_sum_zero {k : Nat} {y x : Nat → Int} (hchannels : 1 ≤ channels)
    (hsum : ∑ ch ∈ Finset.range channels, ∑ t ∈ Finset.range k,
      paddedCell (List.replicate (channels * (w * w)) (1 : Int)) w ch (y t) (x t) = 0) {t : Nat}
    (ht : t < k) : ¬ (0 ≤ y t ∧ y t < w ∧ 0 ≤ x t ∧ x t < w) := by
  have hnonneg : ∀ ch ∈ Finset.range channels, ∀ t,
      0 ≤ paddedCell (List.replicate (channels * (w * w)) (1 : Int)) w ch (y t) (x t) := by
    intro ch hch t
    rw [paddedCell_replicate 1 (Finset.mem_range.mp hch)]
    split <;> decide
  have hfirst : 0 ∈ Finset.range channels := Finset.mem_range.mpr hchannels
  have hrow := (Finset.sum_eq_zero_iff_of_nonneg fun ch hch =>
    Finset.sum_nonneg fun t _ => hnonneg ch hch t).mp hsum 0 hfirst
  have hcell := (Finset.sum_eq_zero_iff_of_nonneg fun t _ => hnonneg 0 hfirst t).mp hrow t
    (Finset.mem_range.mpr ht)
  rw [paddedCell_replicate 1 hchannels] at hcell
  intro hin
  rw [if_pos hin] at hcell
  exact one_ne_zero hcell

/-- The sum of a written row of `im2col_core_W`'s matrix. -/
theorem sum_rowTile {input : ArrayType Int} (hdata : input.data.length = channels * (w * w))
    (hs : 1 ≤ s) {i j rows : Nat} (hi : i < visited w s) (hrow : i < rows)
    (hj : j < outSide w pW kW s) {buf : List Int}
    (hbuf : buf.length = rows * outSide w pW kW s * (channels * kW)) :
    ∑ t ∈ Finset.range (channels * kW),
      (fillTiles (fun q => (q.1 * outSide w pW kW s + q.2) * (channels * kW))
        (rowTile input ((0 : Nat) * ((w : Int) * w)) channels w pW kW s) buf
        (rect (visited w s) (outSide w pW kW s))).getD
          ((i * outSide w pW kW s + j) * (channels * kW) + t) 0 =
      ∑ ch ∈ Finset.range channels, ∑ kx ∈ Finset.range kW,
        paddedCell input.data w ch (i * s : Nat) ((j * s + kx : Nat) - pW) := by
  rw [sum_range_blocks]
  refine Finset.sum_congr rfl fun ch hch => Finset.sum_congr rfl fun kx hkx => ?_
  rw [Finset.mem_range] at hch hkx
  have hin : (i * outSide w pW kW s + j) * (channels * kW) + (ch * kW + kx) < buf.length := by
    rw [hbuf]
    exact slot_lt (slot_lt hrow hj) (slot_lt hch hkx)
  rw [List.getD_eq_getElem?_getD, getElem?_fillTiles
    (fun q : Nat × Nat => q.1 * outSide w pW kW s + q.2) (fun q _ => length_rowTile ..)
    (fun q hq r hr => rect_slot_injective hq hr) buf (p := (i, j)) (mem_rect.mpr ⟨hi, hj⟩)
    (slot_lt hch hkx) hin, getElem?_rowTile hdata (by omega) ((lt_visited_iff hs).mp hi) hch hkx,
    Option.getD_some, Nat.zero_add]

/-- The sum of a written row of `im2col_core_H`'s matrix. -/
theorem sum_columnTile {input : ArrayType Int} (hdata : input.data.length = channels * (w * w))
    (hs : 1 ≤ s) {i j : Nat} (hi : i < outSide w pH kH s) (hj : j < visited w s)
    (hsquare : outSide w pH kH s = visited w s ∨ outSide w pH kH s = 1) {buf : List Int}
    (hbuf : buf.length = outSide w pH kH s * visited w s * (channels * kH)) :
    ∑ t ∈ Finset.range (channels * kH),
      (fillTiles (fun q => (q.1 * outSide w pH kH s + q.2) * (channels * kH))
        (columnTile input ((0 : Nat) * ((w : Int) * w)) channels w pH kH s) buf
        (rect (outSide w pH kH s) (visited w s))).getD
          ((i * outSide w pH kH s + j) * (channels * kH) + t) 0 =
      ∑ ch ∈ Finset.range channels, ∑ ky ∈ Finset.range kH,
        paddedCell input.data w ch ((i * s + ky : Nat) - pH) (j * s : Nat) := by
  rw [sum_range_blocks]
  refine Finset.sum_congr rfl fun ch hch => Finset.sum_congr rfl fun ky hky => ?_
  rw [Finset.mem_range] at hch hky
  have hslot : i * outSide w pH kH s + j < outSide w pH kH s * visited w s := by
    rcases hsquare with heq | hrow
    · rw [heq]
      exact slot_lt (heq ▸ hi) hj
    · obtain rfl : i = 0 := by omega
      rw [hrow]
      omega
  have hin : (i * outSide w pH kH s + j) * (channels * kH) + (ch * kH + ky) < buf.length := by
    rw [hbuf]
    exact slot_lt hslot (slot_lt hch hky)
  rw [List.getD_eq_getElem?_getD, getElem?_fillTiles
    (fun q : Nat × Nat => q.1 * outSide w pH kH s + q.2) (fun q _ => length_columnTile ..)
    (fun q hq r hr => strided_slot_injective (by omega) hq hr) buf (p := (i, j))
    (mem_rect.mpr ⟨hi, hj⟩) (slot_lt hch hky) hin,
    getElem?_columnTile hdata (by omega) ((lt_visited_iff hs).mp hj) hch hky, Option.getD_some,
    Nat.zero_add]

/-- A row kernel is right only if every window row is visited and, unless every window is
blank, the rows are not padded. -/
theorem axisHolds_of_row (h : NsCorrect channels oc 1 kW w pH pW s) (hoc : 1 ≤ oc)
    (hchannels : 1 ≤ channels) (hkW1 : 1 ≤ kW) (hs : 1 ≤ s) (hkH : 1 ≤ w + 2 * pH)
    (hkW : kW ≤ w + 2 * pW) : AxisHolds w pH pW kW s := by
  set oh := outSide w pH 1 s with hoh
  set ow := outSide w pW kW s with how
  have how1 : 0 < ow := Nat.succ_pos _
  have hoh1 : 0 < oh := Nat.succ_pos _
  have hL : 0 < channels * kW := Nat.mul_pos hchannels hkW1
  have hall : oh = visited w s := by
    refine Nat.le_antisymm (Nat.le_of_not_lt fun hlt => ?_) (fitting_le_outSide hs)
    -- the first window of the last row is not written
    obtain ⟨input, -, hrow⟩ := probe_row h hoc hs hkH hkW 1 0
    have hcell := hrow (oh - 1) (by omega) 0 how1
    rw [sum_blank] at hcell
    simp only [nsMatrix, if_true, Nat.mul_one, ← how, ← hoh] at hcell
    have hn : ∀ q ∈ rect (visited w s) ow, q.1 * ow + q.2 ≠ (oh - 1) * ow + 0 := by
      intro q hq
      rw [mem_rect] at hq
      have hbelow : q.1 * ow + q.2 < visited w s * ow := slot_lt hq.1 hq.2
      have hrows : visited w s * ow ≤ (oh - 1) * ow := Nat.mul_le_mul_right _ (by omega)
      omega
    rw [sum_unwritten (fun q => q.1 * ow + q.2) (fun q _ => length_rowTile ..) hn
      (slot_lt (by omega) how1)] at hcell
    omega
  refine (Nat.eq_zero_or_pos pH).imp_right fun hpad => ⟨fun j hj t ht hin => ?_, hall⟩
  -- the windows of the first row lie in the padding, but the first image row is copied
  obtain ⟨input, hdata, hrow⟩ := probe_row h hoc hs hkH hkW 0 1
  have hcell := hrow 0 hoh1 j hj
  have hvisit : 0 < visited w s := hall ▸ hoh1
  have hblank : ∑ ch ∈ Finset.range channels, ∑ ky ∈ Finset.range 1, ∑ kx ∈ Finset.range kW,
      paddedCell (List.replicate (channels * (w * w)) (1 : Int)) w ch ((0 * s + ky : Nat) - pH)
        ((j * s + kx : Nat) - pW) = 0 := by
    refine Finset.sum_eq_zero fun ch _ => Finset.sum_eq_zero fun ky hky =>
      Finset.sum_eq_zero fun kx _ => paddedCell_of_row_out ?_
    rw [Finset.mem_range] at hky
    omega
  rw [hblank] at hcell
  simp only [nsMatrix, if_true, Nat.mul_one, ← how, ← hoh] at hcell
  rw [how, sum_rowTile (by rw [hdata, List.length_replicate]) hs hvisit hoh1 hj
    (by rw [KernelEnv.palloc, List.length_map, List.length_range, Int.toNat_natCast]), hdata] at hcell
  have hw := (lt_visited_iff hs).mp hvisit
  exact cell_out_of_sum_zero hchannels hcell ht ⟨by omega, by omega, hin.1, hin.2⟩

/-- Numbers `a * n + b` with `a < n` and `b < m` that reach every number below `n * l`. -/
theorem square_of_covered {n m l : Nat} (hn : 0 < n) (hm : m ≤ l) (hl : 0 < l)
    (hcover : ∀ t < n * l, ∃ q ∈ rect n m, q.1 * n + q.2 = t) : l = m ∧ (n = l ∨ n = 1) := by
  have hnm : n ≤ m := by
    refine Nat.le_of_not_lt fun hlt => ?_
    obtain ⟨q, hq, heq⟩ := hcover m (hlt.trans_le (Nat.le_mul_of_pos_right n hl))
    rw [mem_rect] at hq
    -- number `m` lies behind row 0 and before row 1
    rcases Nat.eq_zero_or_pos q.1 with h0 | hpos
    · rw [h0] at heq
      omega
    · have hrow : n ≤ q.1 * n := Nat.le_mul_of_pos_left n hpos
      omega
  obtain ⟨q, hq, heq⟩ := hcover (n * l - 1) (Nat.sub_lt (Nat.mul_pos hn hl) Nat.one_pos)
  rw [mem_rect] at hq
  have hlast : q.1 * n ≤ (n - 1) * n := Nat.mul_le_mul_right n (by omega)
  obtain ⟨a, rfl⟩ : ∃ a, n = a + 1 := ⟨n - 1, by omega⟩
  have hsplit : (a + 1) * l = a * l + l := Nat.succ_mul a l
  have hle : a * l ≤ a * (a + 1) := by
    rw [Nat.add_sub_cancel] at hlast
    omega
  rcases Nat.eq_zero_or_pos a with rfl | hpos
  · simp only [Nat.zero_mul] at hsplit hlast
    omega
  · have hshort : l ≤ a + 1 := Nat.le_of_mul_le_mul_left hle hpos
    omega

/-- A column kernel is right only if moreover the windows are numbered as they are read. -/
theorem nsHolds_of_column (h : NsCorrect channels oc kH 1 w pH pW s) (hkH2 : kH ≠ 1) (hoc : 1 ≤ oc)
    (hchannels : 1 ≤ channels) (hkH1 : 1 ≤ kH) (hs : 1 ≤ s) (hkH : kH ≤ w + 2 * pH)
    (hkW : 1 ≤ w + 2 * pW) :
    AxisHolds w pW pH kH s ∧ (outSide w pH kH s = outSide w pW 1 s ∨ outSide w pH kH s = 1) := by
  set oh := outSide w pH kH s with hoh
  set ow := outSide w pW 1 s with how
  have how1 : 0 < ow := Nat.succ_pos _
  have hoh1 : 0 < oh := Nat.succ_pos _
  have hL : 0 < channels * kH := Nat.mul_pos hchannels hkH1
  obtain ⟨hall, hsquare⟩ : ow = visited w s ∧ (oh = ow ∨ oh = 1) := by
    refine square_of_covered hoh1 (fitting_le_outSide hs) how1 fun n hn => ?_
    -- a number no window has would leave a row of the matrix unwritten
    by_contra hnone
    obtain ⟨input, -, hrow⟩ := probe_row h hoc hs hkH hkW 1 0
    have hi : n / ow < oh := (Nat.div_lt_iff_lt_mul how1).mpr hn
    have hcell := hrow (n / ow) hi (n % ow) (Nat.mod_lt n how1)
    rw [sum_blank] at hcell
    simp only [nsMatrix, if_neg hkH2, Nat.mul_one, ← how, ← hoh, Nat.div_add_mod'] at hcell
    have hfree : ∀ q ∈ rect oh (visited w s), q.1 * oh + q.2 ≠ n :=
      fun q hq heq => hnone ⟨q, hq, heq⟩
    rw [sum_unwritten (fun q => q.1 * oh + q.2) (fun q _ => length_columnTile ..) hfree hn] at hcell
    omega
  refine ⟨(Nat.eq_zero_or_pos pW).imp_right fun hpad => ⟨fun i hi t ht hin => ?_, hall⟩, hsquare⟩
  -- the windows of the first column lie in the padding, but the first image column is copied
  obtain ⟨input, hdata, hrow⟩ := probe_row h hoc hs hkH hkW 0 1
  have hcell := hrow i hi 0 how1
  have hvisit : 0 < visited w s := hall ▸ how1
  have hblank : ∑ ch ∈ Finset.range channels, ∑ ky ∈ Finset.range kH, ∑ kx ∈ Finset.range 1,
      paddedCell (List.replicate (channels * (w * w)) (1 : Int)) w ch ((i * s + ky : Nat) - pH)
        ((0 * s + kx : Nat) - pW) = 0 := by
    refine Finset.sum_eq_zero fun ch _ => Finset.sum_eq_zero fun ky _ =>
      Finset.sum_eq_zero fun kx hkx => paddedCell_of_column_out ?_
    rw [Finset.mem_range] at hkx
    omega
  have hslot : i * ow + 0 = i * oh + 0 := by
    rcases hsquare with heq | hone
    · rw [heq]
    · obtain rfl : i = 0 := by omega
      simp
  rw [hblank] at hcell
  simp only [nsMatrix, if_neg hkH2, Nat.mul_one, ← how, ← hoh, hslot] at hcell
  rw [hoh, sum_columnTile (by rw [hdata, List.length_replicate]) hs hi hvisit (hall ▸ hsquare)
    (by rw [KernelEnv.palloc, List.length_map, List.length_range, Int.toNat_natCast, hall]), hdata]
    at hcell
  have hw := (lt_visited_iff hs).mp hvisit
  exact cell_out_of_sum_zero hchannels hcell ht ⟨hin.1, hin.2, by omega, by omega⟩

end Probe

/-! ## The two directions -/

end Peps
