import Peps.Kernel.MatrixIm2col

/-!
# `group_kfm_im2col` and the stride

The grouped kernel sizes its buffer, and each group's part of it, by
`(width + 2 * padding - kernel + 1) / stride` windows along an axis. `im2col_core`, which it
calls once for each group, counts `(width + 2 * padding - kernel) / stride + 1` of them. The two
numbers are the same exactly when the stride divides the first dividend (`shortSide_eq_iff`).

Where they are, the calls fill disjoint parts of the buffer with the windows of their own
channels (`getElem?_groups`) and block `q` of the result is the convolution of channel block
`q` with weight block `q`. Where they are not, the result has too few columns, and what
`im2col_core` writes for one group reaches into the next group's part.
-/

namespace Peps

open Lib

/-! ## The buffer of all groups -/

section Buffer

variable {α : Type} [Zero α] {g channels w p k s : Nat}

/-- The window of group `t.1` at grid position `t.2`. -/
def groupWindow (input : ArrayType α) (channels w p k s : Nat) (t : Nat × Nat × Nat) : List α :=
  gridWindow input ((t.1 * channels : Nat) * ((w : Int) * w)) channels w p k s t.2

/-- The groups' grid positions in the order they are visited. -/
def groupGrid (g n : Nat) : List (Nat × Nat × Nat) :=
  (List.range g).flatMap fun gn => (grid n).map fun q => (gn, q)

theorem mem_groupGrid {n : Nat} {t : Nat × Nat × Nat} :
    t ∈ groupGrid g n ↔ t.1 < g ∧ t.2 ∈ grid n := by
  obtain ⟨gn, q⟩ := t
  simp [groupGrid]

/-- The buffer after the loop over the groups when each of them is given room for `rows`
windows. -/
def groupBuffer (input : ArrayType α) (g channels w p k s rows : Nat) (buf : List α) : List α :=
  fillTiles (fun t => (t.1 * rows + (t.2.1 * outSide w p k s + t.2.2)) * (channels * k * k))
    (groupWindow input channels w p k s) buf (groupGrid g (outSide w p k s))

theorem groups_run {input : ArrayType α} (h0 : input.dimWord 0 = channels)
    (h1 : input.dimWord 1 = (w : Int) * w) (hs : 1 ≤ s) (hk : k ≤ w + 2 * p) (rows : Nat)
    (buf : List α) :
    (List.range g).foldlM (fun f_matrix (gn : Nat) =>
        im2colCore input (gn * ((w : Int) * w) * channels) k p s
          (gn * ((rows * (channels * k * k) : Nat) : Int)).toNat f_matrix) buf =
      .ok (groupBuffer input g channels w p k s rows buf) := by
  have hround : ∀ (f_matrix : List α) (gn : Nat),
      im2colCore input (gn * ((w : Int) * w) * channels) k p s
          (gn * ((rows * (channels * k * k) : Nat) : Int)).toNat f_matrix =
        pure (fillTiles
          (fun t => (t.1 * rows + (t.2.1 * outSide w p k s + t.2.2)) * (channels * k * k))
          (groupWindow input channels w p k s) f_matrix
          ((grid (outSide w p k s)).map fun q => (gn, q))) := by
    intro f_matrix gn
    have horigin : (gn : Int) * ((w : Int) * w) * channels =
        ((gn * channels : Nat) : Int) * ((w : Int) * w) := by
      push_cast
      ring
    have hbase : ((gn : Int) * ((rows * (channels * k * k) : Nat) : Int)).toNat =
        gn * rows * (channels * k * k) := by
      rw [← Nat.cast_mul, Int.toNat_natCast, Nat.mul_assoc gn]
    rw [im2colCore_eq_fillTiles h0 h1 hs hk, fillTiles_map, horigin, hbase]
    simp only [← Nat.add_mul]
    rfl
  simp only [hround]
  rw [List.foldlM_pure, groupBuffer, groupGrid, fillTiles_flatMap]
  rfl

/-- **The im2col matrices of all groups.** With room for `o * o` windows, the window at
`(i, j)` of group `gn` stands at row `i * o + j` of part `gn`. -/
theorem getElem?_groups {input : ArrayType α}
    (hdata : input.data.length = g * channels * (w * w)) {buf : List α}
    (hbuf : buf.length = g * (outSide w p k s * outSide w p k s * (channels * k * k)))
    {gn i j ch ky kx : Nat} (hgn : gn < g) (hi : i < outSide w p k s) (hj : j < outSide w p k s)
    (hch : ch < channels) (hky : ky < k) (hkx : kx < k) :
    (groupBuffer input g channels w p k s (outSide w p k s * outSide w p k s) buf)[
          (gn * (outSide w p k s * outSide w p k s) + (i * outSide w p k s + j))
            * (channels * k * k) + ((ch * k + ky) * k + kx)]? =
      some (paddedCell input.data w (gn * channels + ch) ((i * s + ky : Nat) - p)
        ((j * s + kx : Nat) - p)) := by
  set o := outSide w p k s with ho
  have hr : (ch * k + ky) * k + kx < channels * k * k := kernelCell_lt hch hky hkx
  have hin : (gn * (o * o) + (i * o + j)) * (channels * k * k) + ((ch * k + ky) * k + kx)
      < buf.length := by
    rw [hbuf, ← Nat.mul_assoc g]
    exact slot_lt (slot_lt hgn (slot_lt hi hj)) hr
  -- a group number and a row-major number within the group number the tiles apart
  have hinj : ∀ t ∈ groupGrid g o, ∀ u ∈ groupGrid g o,
      t.1 * (o * o) + (t.2.1 * o + t.2.2) = u.1 * (o * o) + (u.2.1 * o + u.2.2) → t = u := by
    intro t ht u hu htu
    rw [mem_groupGrid, mem_grid] at ht hu
    have hpair := rect_slot_injective (q := (t.1, t.2.1 * o + t.2.2))
      (r := (u.1, u.2.1 * o + u.2.2)) (mem_rect.mpr ⟨ht.1, slot_lt ht.2.1 ht.2.2⟩)
      (mem_rect.mpr ⟨hu.1, slot_lt hu.2.1 hu.2.2⟩) htu
    rw [Prod.mk.injEq] at hpair
    exact Prod.ext hpair.1 (rect_slot_injective (mem_grid.mpr ht.2) (mem_grid.mpr hu.2) hpair.2)
  have hsel : gn * channels + channels ≤ g * channels := by
    rw [← Nat.succ_mul]
    exact Nat.mul_le_mul_right channels hgn
  exact (getElem?_fillTiles (fun t : Nat × Nat × Nat => t.1 * (o * o) + (t.2.1 * o + t.2.2))
    (fun t _ => length_gridWindow ..) hinj buf (p := (gn, i, j))
    (mem_groupGrid.mpr ⟨hgn, mem_grid.mpr ⟨hi, hj⟩⟩) hr hin).trans
      (getElem?_gridWindow _ hdata hsel hch hky hkx)

end Buffer

/-! ## The result -/

section Main

variable {α : Type} [CommRing α]

/-- The convolution of the grouped kernel: row `r` belongs to block `r / kc`, whose channels
start at `r / kc * channels`. -/
def groupConvolution (kernels data : List α) (channels kc k w p s r i j : Nat) : α :=
  convolution kernels data channels k w p s (r / kc * channels) r i j

/-- A weight block is read like the rows of the whole weight that it is. -/
theorem convolution_drop (kernels data : List α) (channels k w p s start c i j n : Nat) :
    convolution (kernels.drop (n * (channels * k * k))) data channels k w p s start c i j =
      convolution kernels data channels k w p s start (n + c) i j := by
  unfold convolution
  refine Finset.sum_congr rfl fun ch _ => Finset.sum_congr rfl fun ky _ =>
    Finset.sum_congr rfl fun kx _ => ?_
  rw [List.getD_eq_getElem?_getD, List.getD_eq_getElem?_getD, List.getElem?_drop, ← Nat.add_assoc,
    ← Nat.add_mul]

/-- The products of the groups, one after the other. -/
def groupProduct (sgemm : (m n k : Nat) → (A B : List α) → List α) (kernels F : List α)
    (g kc rows klen : Nat) : List α :=
  (List.range g).flatMap fun gn =>
    sgemm kc rows klen (kernels.drop (gn * kc * klen)) (F.drop (gn * rows * klen))

theorem getElem?_groupProduct {sgemm : (m n k : Nat) → (A B : List α) → List α}
    (hgemm : IsGemmNT sgemm) (kernels : List α) {data F : List α} {g channels kc k w p s : Nat}
    (hF : ∀ gn < g, ∀ i < outSide w p k s, ∀ j < outSide w p k s, ∀ ch ky kx, ch < channels →
      ky < k → kx < k →
      F[(gn * (outSide w p k s * outSide w p k s) + (i * outSide w p k s + j))
          * (channels * k * k) + ((ch * k + ky) * k + kx)]? =
        some (paddedCell data w (gn * channels + ch) ((i * s + ky : Nat) - p)
          ((j * s + kx : Nat) - p)))
    {r i j : Nat} (hr : r < g * kc) (hi : i < outSide w p k s) (hj : j < outSide w p k s) :
    (groupProduct sgemm kernels F g kc (outSide w p k s * outSide w p k s) (channels * k * k))[
        r * (outSide w p k s * outSide w p k s) + (i * outSide w p k s + j)]? =
      some (groupConvolution kernels data channels kc k w p s r i j) := by
  set o := outSide w p k s with ho
  have hkc : 0 < kc := by
    rcases Nat.eq_zero_or_pos kc with rfl | hpos
    · simp at hr
    · exact hpos
  have hq : r / kc < g := (Nat.div_lt_iff_lt_mul hkc).mpr hr
  have hc : r % kc < kc := Nat.mod_lt r hkc
  have hsplit : r * (o * o) + (i * o + j) =
      r / kc * (kc * (o * o)) + (r % kc * (o * o) + (i * o + j)) := by
    calc r * (o * o) + (i * o + j) = (r / kc * kc + r % kc) * (o * o) + (i * o + j) := by
          rw [Nat.div_add_mod']
      _ = _ := by ring
  rw [hsplit, groupProduct, getElem?_flatMap_blocks (fun gn _ => (hgemm ..).1) hq
    (slot_lt hc (slot_lt hi hj)), (hgemm ..).2 _ hc _ (slot_lt hi hj)]
  have hrow : ∀ ch ky kx, ch < channels → ky < k → kx < k →
      (F.drop (r / kc * (o * o) * (channels * k * k)))[(i * o + j) * (channels * k * k)
          + ((ch * k + ky) * k + kx)]? =
        some (paddedCell data w (r / kc * channels + ch) ((i * s + ky : Nat) - p)
          ((j * s + kx : Nat) - p)) := by
    intro ch ky kx hch hky hkx
    rw [List.getElem?_drop, ← Nat.add_assoc, ← Nat.add_mul]
    exact hF _ hq i hi j hj ch ky kx hch hky hkx
  rw [row_sum_eq_convolution _ data s (r / kc * channels) hrow, convolution_drop, Nat.div_add_mod',
    groupConvolution]

variable [LinearOrder α]

/-- The grouped kernel with both weights found: buffer and product in terms of its own
size. -/
theorem groupKfmIm2col_run {env : KernelEnv α} {name : Bytes} {kernels bias : WeightEntry α}
    (hsup : Supplied env name kernels bias) {input : ArrayType α}
    {g channels w k p s kc rows : Nat}
    (hdims : input.dims = [((g * channels : Nat) : Int), (w : Int) * w]) (hg : 1 ≤ g)
    (hs : 1 ≤ s) (hk : k ≤ w + 2 * p) (hkc : kernels.dimWord 1 = kc)
    (hklen : kernels.dimWord 2 = (channels * k * k : Nat))
    (hrows : rows = shortSide w p k s * shortSide w p k s) :
    ∃ product : List α,
      product = groupProduct env.sgemm kernels.data
        (groupBuffer (input.setDim0 channels) g channels w p k s rows
          (env.palloc (g * (rows * (channels * k * k)) : Nat))) g kc rows (channels * k * k) ∧
      (groupKfmIm2col env name input k p s g).1 =
        .ok (ArrayType.matrix (g * kc : Nat) (rows : Nat)
          (if bias.dimWord 0 = ((g * kc : Nat) : Int) then
            biasClamp bias.data (g * kc) rows product else product) env.junk) := by
  have hword : input.dimWord 0 = ((g * channels : Nat) : Int) := by simp [ArrayType.dimWord, hdims]
  have hquot : (((g * channels : Nat) : Int)).tdiv g = (channels : Int) := by
    rw [Nat.cast_mul, Int.mul_tdiv_cancel_left _ (by omega)]
  have h0 : (input.setDim0 channels).dimWord 0 = channels := by
    simp [ArrayType.dimWord, ArrayType.setDim0, hdims]
  have h1 : (input.setDim0 channels).dimWord 1 = (w : Int) * w := by
    simp [ArrayType.dimWord, ArrayType.setDim0, hdims]
  have hgroups : ¬ (g : Int) = 0 := by omega
  have hstride : ¬ (s : Int) = 0 := by omega
  have hrest : ¬ (((g * channels : Nat) : Int)).tmod g ≠ 0 := by
    rw [Nat.cast_mul, Int.mul_tmod_right]
    simp
  -- the sizes as the code computes them
  have hcols : ((shortSide w p k s : Nat) : Int) * (shortSide w p k s : Nat) = (rows : Nat) := by
    rw [hrows, Nat.cast_mul]
  have hcell : (channels : Int) * k * k = ((channels * k * k : Nat) : Int) := by push_cast; ring
  have hnelems : (rows : Int) * channels * k * k = ((rows * (channels * k * k) : Nat) : Int) := by
    push_cast
    ring
  have hall : ((rows * (channels * k * k) : Nat) : Int) * g =
      ((g * (rows * (channels * k * k)) : Nat) : Int) := by
    push_cast
    ring
  refine ⟨_, rfl, ?_⟩
  simp only [groupKfmIm2col, hword, if_neg hgroups, if_neg hrest, hquot, groupKfmIm2colBody, h0, h1,
    side_sq, if_neg hstride, shortExtent_eq_shortSide hk, hcols, hnelems, hall, hcell,
    hsup.weight_val, hsup.weight_bias, hkc, hklen, groups_run h0 h1 hs hk, bind, Except.bind]
  have hout : (kc : Int) * g = ((g * kc : Nat) : Int) := by push_cast; ring
  have hout' : (g : Int) * kc = ((g * kc : Nat) : Int) := by push_cast; ring
  have hkernel : ∀ gn : Nat, ((gn : Int) * kc * ((channels * k * k : Nat) : Int)).toNat =
      gn * kc * (channels * k * k) := by
    intro gn
    rw [← Nat.cast_mul, ← Nat.cast_mul, Int.toNat_natCast]
  have hpart : ∀ gn : Nat, ((gn : Int) * ((rows * (channels * k * k) : Nat) : Int)).toNat =
      gn * rows * (channels * k * k) := by
    intro gn
    rw [← Nat.cast_mul, Int.toNat_natCast, Nat.mul_assoc gn]
  rw [if_neg (by simp), hout, hout']
  simp only [Int.toNat_natCast, hkernel, hpart, groupProduct]

/-- The columns of a result are counted by `shortSide`. -/
theorem groupKfmIm2col_dims {env : KernelEnv α} {name : Bytes} {kernels bias : WeightEntry α}
    (hsup : Supplied env name kernels bias) {input : ArrayType α} (g channels w k p s kc : Nat)
    (hdims : input.dims = [((g * channels : Nat) : Int), (w : Int) * w]) (hg : 1 ≤ g)
    (hs : 1 ≤ s) (hk : k ≤ w + 2 * p) (hkc : kernels.dimWord 1 = kc)
    (hklen : kernels.dimWord 2 = (channels * k * k : Nat)) {res : ArrayType α}
    (hres : (groupKfmIm2col env name input k p s g).1 = .ok res) :
    res.dims = [((g * kc : Nat) : Int), (shortSide w p k s * shortSide w p k s : Nat)] := by
  obtain ⟨product, -, hrun⟩ := groupKfmIm2col_run hsup hdims hg hs hk hkc hklen rfl
  rw [← Except.ok.inj (hrun.symm.trans hres)]
  rfl

theorem groupKfmIm2col_convolves {env : KernelEnv α} {name : Bytes} {kernels bias : WeightEntry α}
    (hsup : Supplied env name kernels bias) {input : ArrayType α} {g channels w k p s kc : Nat}
    (hdims : input.dims = [((g * channels : Nat) : Int), (w : Int) * w])
    (hdata : input.data.length = g * channels * (w * w)) (hs : 1 ≤ s) (hk : k ≤ w + 2 * p)
    (hkc : kernels.dimWord 1 = kc) (hklen : kernels.dimWord 2 = (channels * k * k : Nat))
    (hg : 1 ≤ g) (hdvd : s ∣ w + 2 * p - k + 1) :
    ∃ res, (groupKfmIm2col env name input k p s g).1 = .ok res ∧
      Convolves res bias (g * kc) (outSide w p k s) (outSide w p k s)
        (groupConvolution kernels.data input.data channels kc k w p s) := by
  have hrows : outSide w p k s * outSide w p k s = shortSide w p k s * shortSide w p k s := by
    rw [shortSide_eq_iff.mpr hdvd]
  obtain ⟨product, hproduct, hrun⟩ := groupKfmIm2col_run hsup hdims hg hs hk hkc hklen hrows
  refine ⟨_, hrun, convolves_of_product bias ?_ ?_ env.junk⟩
  · rw [hproduct, groupProduct, length_flatMap_blocks fun gn _ => (hsup.gemm ..).1, Nat.mul_assoc]
  · intro r hr i hi j hj
    rw [hproduct]
    refine getElem?_groupProduct hsup.gemm kernels.data ?_ hr hi hj
    intro gn hgn i hi j hj ch ky kx hch hky hkx
    refine getElem?_groups hdata ?_ hgn hi hj hch hky hkx
    rw [KernelEnv.palloc, List.length_map, List.length_range, Int.toNat_natCast]

/-- **A block of the result is a plain convolution**: what `kfm_im2col` returns for channel
block `q`, selected by its offset argument, and a weight that holds weight block `q` and its
part of the bias. -/
theorem groupKfmIm2col_block {env : KernelEnv α} {name : Bytes} {kernels bias : WeightEntry α}
    (hsup : Supplied env name kernels bias) {input : ArrayType α} {g channels w k p s kc : Nat}
    (hdims : input.dims = [((g * channels : Nat) : Int), (w : Int) * w])
    (hdata : input.data.length = g * channels * (w * w)) (hs : 1 ≤ s) (hk : k ≤ w + 2 * p)
    (hkc : kernels.dimWord 1 = kc) (hklen : kernels.dimWord 2 = (channels * k * k : Nat))
    (hg : 1 ≤ g) (hdvd : s ∣ w + 2 * p - k + 1)
    {env' : KernelEnv α} {name' : Bytes} {kernels' bias' : WeightEntry α}
    (hsup' : Supplied env' name' kernels' bias') {offset : Option (ArrayType Int)} {q : Nat}
    (hq : q < g)
    (hsel : Selects offset (g * channels) (q * channels) channels)
    (hblock : kernels'.data = kernels.data.drop (q * kc * (channels * k * k)))
    (hoc' : kernels'.dimWord 0 = kc) (hklen' : kernels'.dimWord 1 = (channels * k * k : Nat))
    (hlen' : bias'.dimWord 0 = kc ↔ bias.dimWord 0 = ((g * kc : Nat) : Int))
    (hpart : bias'.data = bias.data.drop (q * kc)) :
    ∃ res block, (groupKfmIm2col env name input k p s g).1 = .ok res ∧
      (kfmIm2col env' name' input k p s offset).1 = .ok block ∧
      block.data = (res.data.drop (q * kc * (outSide w p k s * outSide w p k s))).take
        (kc * (outSide w p k s * outSide w p k s)) := by
  obtain ⟨res, hres, hgroup⟩ := groupKfmIm2col_convolves hsup hdims hdata hs hk hkc hklen hg
    hdvd
  obtain ⟨block, hrun, hconv⟩ := kfmIm2col_convolves hsup' hdims hdata hs hk hsel hoc' hklen'
  refine ⟨res, block, hres, hrun, ?_⟩
  set o := outSide w p k s with ho
  -- the rows of the block, read as a result of their own
  suffices hrows : Convolves (ArrayType.matrix kc (o * o : Nat)
      ((res.data.drop (q * kc * (o * o))).take (kc * (o * o))) env.junk) bias' kc o o
        (convolution kernels'.data input.data channels k w p s (q * channels)) from
    hconv.data_eq hrows
  have hin : q * kc + kc ≤ g * kc := by
    rw [← Nat.succ_mul]
    exact Nat.mul_le_mul_right kc hq
  refine ⟨rfl, ?_, fun c hc i hi j hj => ?_⟩
  · have hle : q * kc * (o * o) + kc * (o * o) ≤ g * kc * (o * o) := by
      rw [← Nat.add_mul]
      exact Nat.mul_le_mul_right _ hin
    simp only [ArrayType.matrix, List.length_take, List.length_drop, hgroup.length]
    omega
  · have hcell := hgroup.cell (q * kc + c) (by omega) i hi j hj
    have hdiv : (q * kc + c) / kc = q := by
      rw [Nat.mul_comm, Nat.mul_add_div (by omega), Nat.div_eq_of_lt hc, Nat.add_zero]
    simp only [ArrayType.matrix]
    rw [List.getElem?_take_of_lt (slot_lt hc (slot_lt hi hj)), List.getElem?_drop, ← Nat.add_assoc,
      ← Nat.add_mul, hcell, groupConvolution, hdiv, hblock, convolution_drop, hpart]
    simp only [hlen', List.getD_eq_getElem?_getD, List.getElem?_drop]

end Main

/-! ## Two groups -/

/-- A pool with a `1 × 1` kernel for each of two groups and their bias. -/
def groupEnv : KernelEnv Int where
  pool := some
    { entries := fun key =>
        if key = ascii "g_val" then
          some { name := key, data := [1, 2], data_size := 8, ndims := 3,
                 words := [2, 1, 1, 0, FLOAT4OID, 0], hwords := rfl }
        else if key = ascii "g_bias" then some (smallEntry key [0, -1] 2 1)
        else none
      current_memory_usage := 0 }
  sgemm := gemmNT
  junk := fun _ => 0

/-- Two channels of `w * w` cells. -/
def twoChannels (w : Nat) (data : List Int) : ArrayType Int :=
  ArrayType.matrix 2 ((w : Int) * w) data fun _ => 0

theorem groupEnv_supplied : Supplied groupEnv (ascii "g")
    { name := ascii "g_val", data := [1, 2], data_size := 8, ndims := 3,
      words := [2, 1, 1, 0, FLOAT4OID, 0], hwords := rfl }
    (smallEntry (ascii "g_bias") [0, -1] 2 1) :=
  ⟨isGemmNT_gemmNT, _, rfl, rfl, rfl⟩

end Peps
