import Peps.Kernel.AxisConv

/-!
# `conv_text`: a convolution and its maximum

`conv_text` sizes its matrix for the windows of the padded text matrix, but its loops visit
only the windows that lie inside the text matrix, at corners `0`, `stride`, `2 * stride`, …; the
rows of the other windows keep the zeros of `palloc0`. The maximum over all windows that follows
hides which row a value stands in. The result is therefore right not only without padding: it is
enough that every window of the padded matrix is either one of those visited or lies in the
padding altogether (`TextHolds`), and no other sizes are right for every text and weight.
-/

namespace Peps

open Lib

/-! ## The function -/

section Model

variable {α : Type} [Zero α]

/-- The window at `(rn, cn)`. -/
def textWindow (input_f : Int → α) (num_channel nelems_channel width kernel_H kernel_W rn cn : Int) :
    List α :=
  (List.range num_channel.toNat).flatMap fun (c : Nat) =>
    (List.range kernel_H.toNat).flatMap fun (ky : Nat) =>
      (List.range kernel_W.toNat).map fun (kx : Nat) =>
        input_f (rn * width + cn + nelems_channel * c + width * ky + kx)

/-- The last loop: the maximum of row `i`, from `-INFINITY` on. -/
def rowMax [LinearOrder α] (res_data : List α) (res_cols i : Nat) : WithBot α :=
  (List.range res_cols).foldl
    (fun pool_max j => max pool_max (res_data.getD (i * res_cols + j) 0 : α)) ⊥

/-- `construct_array`: an array of one dimension, or of none if it is empty. -/
def constructArray {β : Type} (data : List β) (outside : Int → β) : ArrayType β where
  dims := if data.length = 0 then [] else [(data.length : Int)]
  lbs := if data.length = 0 then [] else [1]
  data := data
  outside := outside
  hndim := by split <;> simp [MAXDIM]
  hlbs := by split <;> rfl

/-- `conv_text(kmatrix, fmatrix, kernel_H, kernel_W, padding_H, padding_W, stride)`. -/
def convText [Add α] [LinearOrder α] (env : KernelEnv α) (name : Bytes) (input : ArrayType α)
    (kernel_H kernel_W padding_H padding_W stride : Int) :
    Except PgError (ArrayType (WithBot α)) := do
  let num_channel : Int := 1
  let height := input.dimWord 0
  let width := input.dimWord 1
  let nelems_channel := height * width
  if stride = 0 then .error .divisionByZero
  else do
    let out_height := outExtent height padding_H kernel_H stride
    let out_width := outExtent width padding_W kernel_W stride
    let out_nelems := out_height * out_width * num_channel * kernel_W * kernel_H
    let f_matrix ← tiledLoop 0 (height - kernel_H + 1) 0 (width - kernel_W + 1) stride
      (fun rn cn => ((rn.tdiv stride * out_width + cn.tdiv stride)
        * num_channel * kernel_H * kernel_W).toNat)
      (textWindow input.elem num_channel nelems_channel width kernel_H kernel_W)
      (List.replicate out_nelems.toNat 0)
    if env.pool.isNone then .error (.report "[conv_text] WEIGHT POOL is NULL" [] [])
    else do
      let res ← kernelProduct env "[kfm_im2col] %s_val not found" "[kfm_im2col] %s_bias not found"
        name (out_width * out_height) (num_channel * kernel_H * kernel_W) f_matrix
      .ok (constructArray ((List.range (res.dimWord 0).toNat).map
        (rowMax res.data (res.dimWord 1).toNat)) fun i => (env.junk i : α))

end Model

/-! ## What stands in the matrix -/

section Matrix

variable {α : Type} [Zero α] {h w kH kW pH pW s : Nat}

/-- The cell `(y, x)` of an `h × w` matrix, zero beyond the borders. -/
def textCell (data : List α) (h w : Nat) (y x : Int) : α :=
  if 0 ≤ y ∧ y < h ∧ 0 ≤ x ∧ x < w then data.getD (y.toNat * w + x.toNat) 0 else 0

/-- The window the loops visit at grid position `q`. -/
def textTile (input : ArrayType α) (h w kH kW s : Nat) (q : Nat × Nat) : List α :=
  textWindow input.elem 1 ((h : Int) * w) w kH kW ((q.1 : Int) * s) ((q.2 : Int) * s)

/-- `f_matrix` after the loops. -/
def textMatrix (input : ArrayType α) (h w kH kW pH pW s : Nat) : List α :=
  fillTiles (fun q => (q.1 * outSide w pW kW s + q.2) * (kH * kW)) (textTile input h w kH kW s)
    (List.replicate (outSide h pH kH s * outSide w pW kW s * (kH * kW)) 0)
    (rect (fitting h kH s) (fitting w kW s))

omit [Zero α] in
theorem textWindow_one (input_f : Int → α) (nelems width rn cn : Int) :
    textWindow input_f 1 nelems width kH kW rn cn =
      (List.range kH).flatMap fun (ky : Nat) => (List.range kW).map fun (kx : Nat) =>
        input_f (rn * width + cn + nelems * (0 : Nat) + width * ky + kx) := by
  show (List.range 1).flatMap _ = _
  simp only [List.range_one, List.flatMap_singleton, Int.toNat_natCast]

omit [Zero α] in
theorem length_textTile (input : ArrayType α) (q : Nat × Nat) :
    (textTile input h w kH kW s q).length = kH * kW := by
  rw [textTile, textWindow_one]
  exact length_plane

theorem textLoop_eq (input : ArrayType α) (hs : 1 ≤ s) :
    tiledLoop 0 ((h : Int) - kH + 1) 0 ((w : Int) - kW + 1) s
      (fun rn cn => ((rn.tdiv s * (outSide w pW kW s : Nat) + cn.tdiv s) * 1 * kH * kW).toNat)
      (textWindow input.elem 1 ((h : Int) * w) w kH kW)
      (List.replicate (outSide h pH kH s * outSide w pW kW s * (kH * kW)) 0) =
        .ok (textMatrix input h w kH kW pH pW s) := by
  rw [tiledLoop, if_neg (by omega), steps_fitting hs, steps_fitting hs, flatMap_map_rect,
    fillTiles_map]
  refine congrArg _ (fillTiles_congr (fun q _ => ?_) (fun _ _ => rfl) _)
  show ((((q.1 : Int) * s).tdiv s * (outSide w pW kW s : Nat) + ((q.2 : Int) * s).tdiv s) * 1
    * kH * kW).toNat = _
  have hcast : ((q.1 : Int) * (outSide w pW kW s : Nat) + q.2) * 1 * kH * kW =
      (((q.1 * outSide w pW kW s + q.2) * (kH * kW) : Nat) : Int) := by
    push_cast
    ring
  rw [Int.mul_tdiv_cancel _ (by omega), Int.mul_tdiv_cancel _ (by omega), hcast, Int.toNat_natCast]

/-- A visited window lies inside the matrix. -/
theorem getElem?_textTile {input : ArrayType α} (hdata : input.data.length = h * w)
    {i j ky kx : Nat} (hi : i * s + kH ≤ h) (hj : j * s + kW ≤ w) (hky : ky < kH) (hkx : kx < kW) :
    (textTile input h w kH kW s (i, j))[ky * kW + kx]? =
      some (textCell input.data h w ((i * s : Nat) + ky) ((j * s : Nat) + kx)) := by
  rw [textTile, textWindow_one, getElem?_plane hky hkx, textCell, if_pos (by omega)]
  have hin : (i * s + ky) * w + (j * s + kx) < input.data.length := by
    rw [hdata]
    exact slot_lt (by omega) (by omega)
  have hindex : (i : Int) * s * w + (j : Int) * s + (h : Int) * w * (0 : Nat) + w * ky + kx =
      (((i * s + ky) * w + (j * s + kx) : Nat) : Int) := by
    push_cast
    ring
  have hy : (((i * s : Nat) : Int) + ky).toNat = i * s + ky := by omega
  have hx : (((j * s : Nat) : Int) + kx).toNat = j * s + kx := by omega
  rw [hindex, ArrayType.elem_of_lt _ hin, hy, hx, List.getD_eq_getElem?_getD,
    List.getElem?_eq_getElem hin, Option.getD_some]

/-- The row of a visited window. -/
theorem getElem?_textMatrix {input : ArrayType α} (hdata : input.data.length = h * w) (hs : 1 ≤ s)
    {i j ky kx : Nat} (hi : i < fitting h kH s) (hj : j < fitting w kW s) (hky : ky < kH)
    (hkx : kx < kW) :
    (textMatrix input h w kH kW pH pW s)[(i * outSide w pW kW s + j) * (kH * kW)
        + (ky * kW + kx)]? =
      some (textCell input.data h w ((i * s : Nat) + ky) ((j * s : Nat) + kx)) := by
  have hrows : fitting h kH s ≤ outSide h pH kH s := fitting_le_outSide hs
  have hcols : fitting w kW s ≤ outSide w pW kW s := fitting_le_outSide hs
  have hin : (i * outSide w pW kW s + j) * (kH * kW) + (ky * kW + kx) <
      (List.replicate (outSide h pH kH s * outSide w pW kW s * (kH * kW)) (0 : α)).length := by
    rw [List.length_replicate]
    exact slot_lt (slot_lt (by omega) (by omega)) (slot_lt hky hkx)
  rw [textMatrix, getElem?_fillTiles (fun q : Nat × Nat => q.1 * outSide w pW kW s + q.2)
    (fun q _ => length_textTile input q)
    (fun q hq r hr => strided_slot_injective (.inr hcols) hq hr) _ (p := (i, j))
    (mem_rect.mpr ⟨hi, hj⟩) (slot_lt hky hkx) hin]
  exact getElem?_textTile hdata ((lt_fitting_iff hs).mp hi) ((lt_fitting_iff hs).mp hj) hky hkx

/-- The row of a window that is not visited. -/
theorem getElem?_textMatrix_blank (input : ArrayType α) (hs : 1 ≤ s) {i j r : Nat}
    (hi : i < outSide h pH kH s) (hj : j < outSide w pW kW s)
    (hout : ¬ (i < fitting h kH s ∧ j < fitting w kW s)) (hr : r < kH * kW) :
    (textMatrix input h w kH kW pH pW s)[(i * outSide w pW kW s + j) * (kH * kW) + r]? =
      some 0 := by
  have hcols : fitting w kW s ≤ outSide w pW kW s := fitting_le_outSide hs
  have hn : ∀ q ∈ rect (fitting h kH s) (fitting w kW s),
      q.1 * outSide w pW kW s + q.2 ≠ i * outSide w pW kW s + j := by
    intro q hq heq
    rw [mem_rect] at hq
    obtain ⟨hqi, hqj⟩ := (slot_inj (by omega) hj).mp heq
    exact hout ⟨hqi ▸ hq.1, hqj ▸ hq.2⟩
  rw [textMatrix, getElem?_fillTiles_unwritten (fun q : Nat × Nat => q.1 * outSide w pW kW s + q.2)
    (fun q _ => length_textTile input q) hn _ hr,
    List.getElem?_replicate_of_lt (slot_lt (slot_lt hi hj) hr)]

end Matrix

/-! ## The result -/

section Result

variable {α : Type} [CommRing α] {h w kH kW pH pW s : Nat}

/-- The convolution value of output channel `c` for the window with corner `(y, x)`. -/
def windowValue (kernels data : List α) (h w kH kW c : Nat) (y x : Int) : α :=
  ∑ ky ∈ Finset.range kH, ∑ kx ∈ Finset.range kW,
    kernels.getD (c * (kH * kW) + (ky * kW + kx)) 0 * textCell data h w (y + ky) (x + kx)

/-- The product of a weight row with row `i * ow + j` of the matrix. -/
def slotValue (kernels data : List α) (h w kH kW s c i j : Nat) : α :=
  if i < fitting h kH s ∧ j < fitting w kW s then
    windowValue kernels data h w kH kW c (i * s : Nat) (j * s : Nat)
  else 0

theorem sum_textMatrix (kernels : List α) {input : ArrayType α}
    (hdata : input.data.length = h * w) (hs : 1 ≤ s) {c i j : Nat} (hi : i < outSide h pH kH s)
    (hj : j < outSide w pW kW s) :
    ∑ t ∈ Finset.range (kH * kW), kernels.getD (c * (kH * kW) + t) 0 *
        (textMatrix input h w kH kW pH pW s).getD
          ((i * outSide w pW kW s + j) * (kH * kW) + t) 0 =
      slotValue kernels input.data h w kH kW s c i j := by
  unfold slotValue
  split
  · next hvisit =>
    rw [sum_range_blocks, windowValue]
    refine Finset.sum_congr rfl fun ky hky => Finset.sum_congr rfl fun kx hkx => ?_
    rw [Finset.mem_range] at hky hkx
    rw [List.getD_eq_getElem?_getD (l := textMatrix ..), getElem?_textMatrix hdata hs hvisit.1
      hvisit.2 hky hkx, Option.getD_some]
  · next hblank =>
    refine Finset.sum_eq_zero fun t ht => ?_
    rw [List.getD_eq_getElem?_getD (l := textMatrix ..),
      getElem?_textMatrix_blank input hs hi hj hblank (Finset.mem_range.mp ht), Option.getD_some,
      mul_zero]

variable [LinearOrder α]

/-- What is done with a convolution value before the maximum is taken. -/
def activated (bias : WeightEntry α) (oc c : Nat) (v : α) : α :=
  if bias.dimWord 0 = oc then max 0 (v + bias.data.getD c 0) else v

/-- **The run of `conv_text`**: the greatest activated value over all rows of the matrix. -/
theorem convText_run {env : KernelEnv α} {name : Bytes} {kernels bias : WeightEntry α}
    (hsup : Supplied env name kernels bias) {input : ArrayType α} {oc : Nat}
    (hdims : input.dims = [(h : Int), (w : Int)]) (hdata : input.data.length = h * w) (hs : 1 ≤ s)
    (hkH : kH ≤ h + 2 * pH) (hkW : kW ≤ w + 2 * pW) (hoc : kernels.dimWord 0 = oc)
    (hklen : kernels.dimWord 1 = (kH * kW : Nat)) :
    ∃ res, convText env name input kH kW pH pW s = .ok res ∧ res.data.length = oc ∧
      ∀ c < oc, ∃ m : α, res.data[c]? = some (m : WithBot α) ∧
        IsGreatest {v | ∃ i < outSide h pH kH s, ∃ j < outSide w pW kW s,
          v = activated bias oc c (slotValue kernels.data input.data h w kH kW s c i j)} m := by
  have h0 : input.dimWord 0 = h := by simp [ArrayType.dimWord, hdims]
  have h1 : input.dimWord 1 = w := by simp [ArrayType.dimWord, hdims]
  set oh := outSide h pH kH s with hoh
  set ow := outSide w pW kW s with how
  have hstride : ¬ (s : Int) = 0 := by omega
  have hnelems : ((oh : Int) * ow * 1 * kW * kH).toNat = oh * ow * (kH * kW) := by
    have hcast : (oh : Int) * ow * 1 * kW * kH = ((oh * ow * (kH * kW) : Nat) : Int) := by
      push_cast
      ring
    rw [hcast, Int.toNat_natCast]
  have hrows : (ow : Int) * oh = ((oh * ow : Nat) : Int) := by push_cast; ring
  have hcols : (1 : Int) * kH * kW = ((kH * kW : Nat) : Int) := by push_cast; ring
  -- the product before the maximum
  obtain ⟨mat, hmat, hconv⟩ : ∃ mat, kernelProduct env "[kfm_im2col] %s_val not found"
      "[kfm_im2col] %s_bias not found" name ((oh * ow : Nat) : Int) ((kH * kW : Nat) : Int)
      (textMatrix input h w kH kW pH pW s) = .ok mat ∧ Convolves mat bias oc oh ow
        (slotValue kernels.data input.data h w kH kW s) := by
    refine ⟨_, kernelProduct_eq hsup hoc hklen _, convolves_of_product bias (hsup.gemm ..).1 ?_ _⟩
    intro c hc i hi j hj
    rw [(hsup.gemm ..).2 c hc _ (slot_lt hi hj), sum_textMatrix kernels.data hdata hs hi hj]
  have hword0 : mat.dimWord 0 = oc := by simp [ArrayType.dimWord, hconv.dims]
  have hword1 : mat.dimWord 1 = (oh * ow : Nat) := by simp [ArrayType.dimWord, hconv.dims]
  refine ⟨constructArray ((List.range oc).map (rowMax mat.data (oh * ow)))
    (fun i => (env.junk i : α)), ?_, by simp [constructArray], fun c hc => ?_⟩
  · have hloop : tiledLoop 0 ((h : Int) - kH + 1) 0 ((w : Int) - kW + 1) s
        (fun rn cn => ((rn.tdiv s * (ow : Nat) + cn.tdiv s) * 1 * kH * kW).toNat)
        (textWindow input.elem 1 ((h : Int) * w) w kH kW)
        (List.replicate (oh * ow * (kH * kW)) 0) = .ok (textMatrix input h w kH kW pH pW s) :=
      textLoop_eq input hs
    simp only [convText, h0, h1, if_neg hstride, outExtent_eq_outSide hkH, outExtent_eq_outSide hkW,
      ← hoh, ← how, hnelems, hloop, hrows, hcols, hsup.pool_isNone, hmat, hword0, hword1, bind,
      Except.bind, Int.toNat_natCast]
    rfl
  · have hpos : 0 < oh * ow := Nat.mul_pos (Nat.succ_pos _) (Nat.succ_pos _)
    obtain ⟨m, hm, hgreatest⟩ :=
      foldl_max_isGreatest (fun t => mat.data.getD (c * (oh * ow) + t) 0) hpos
    refine ⟨m, ?_, ?_⟩
    · rw [← hm, constructArray, List.getElem?_map, List.getElem?_range hc, Option.map_some]
      rfl
    have hcell : ∀ i < oh, ∀ j < ow, mat.data.getD (c * (oh * ow) + (i * ow + j)) 0 =
        activated bias oc c (slotValue kernels.data input.data h w kH kW s c i j) := by
      intro i hi j hj
      rw [List.getD_eq_getElem?_getD, hconv.cell c hc i hi j hj, Option.getD_some, activated]
    refine ⟨?_, ?_⟩
    · obtain ⟨t, ht, rfl⟩ := hgreatest.1
      have how1 : 0 < ow := Nat.succ_pos _
      refine ⟨t / ow, (Nat.div_lt_iff_lt_mul how1).mpr ht, t % ow, Nat.mod_lt t how1, ?_⟩
      rw [← hcell _ ((Nat.div_lt_iff_lt_mul how1).mpr ht) _ (Nat.mod_lt t how1), Nat.div_add_mod']
    · rintro v ⟨i, hi, j, hj, rfl⟩
      exact hgreatest.2 ⟨i * ow + j, slot_lt hi hj, (hcell i hi j hj).symm⟩

end Result

/-! ## The sizes that are right -/

/-- Window `i` along a padded axis lies inside the matrix. -/
def AxisIn (h p k s i : Nat) : Prop := p ≤ i * s ∧ i * s + k ≤ h + p

/-- When the visited windows, and a blank one if there is padding, are the windows of the padded
matrix: none of these is cut by the border, and those inside are at multiples of the stride. -/
def TextHolds (h w kH kW pH pW s : Nat) : Prop :=
  (∀ i < outSide h pH kH s, ∀ j < outSide w pW kW s,
    (AxisIn h pH kH s i ∧ AxisIn w pW kW s j) ∨ AxisOut h pH kH s i ∨ AxisOut w pW kW s j) ∧
  (kH ≤ h → kW ≤ w → s ∣ pH ∧ s ∣ pW)

instance (h w kH kW pH pW s : Nat) : Decidable (TextHolds h w kH kW pH pW s) := by
  unfold TextHolds AxisIn
  infer_instance

/-- `conv_text` returns the maxima over the windows of the padded matrix whatever the text and
the weights are. -/
def TextCorrect (oc h w kH kW pH pW s : Nat) : Prop :=
  ∀ (α : Type) [CommRing α] [LinearOrder α] (env : KernelEnv α) (name : Bytes)
    (kernels bias : WeightEntry α) (input : ArrayType α), Supplied env name kernels bias →
    input.dims = [(h : Int), (w : Int)] → input.data.length = h * w → kernels.dimWord 0 = oc →
    kernels.dimWord 1 = (kH * kW : Nat) →
    ∃ res, convText env name input kH kW pH pW s = .ok res ∧ res.data.length = oc ∧
      ∀ c < oc, ∃ m : α, res.data[c]? = some (m : WithBot α) ∧
        IsGreatest {v | ∃ i < outSide h pH kH s, ∃ j < outSide w pW kW s,
          v = activated bias oc c (windowValue kernels.data input.data h w kH kW c
            ((i * s : Nat) - pH) ((j * s : Nat) - pW))} m

section Sufficient

variable {α : Type} [CommRing α] {h w kH kW pH pW s c : Nat} (kernels data : List α)

theorem windowValue_of_out {i j : Nat} (hout : AxisOut h pH kH s i ∨ AxisOut w pW kW s j) :
    windowValue kernels data h w kH kW c ((i * s : Nat) - pH) ((j * s : Nat) - pW) = 0 := by
  refine Finset.sum_eq_zero fun ky hky => Finset.sum_eq_zero fun kx hkx => ?_
  rw [Finset.mem_range] at hky hkx
  rw [textCell, if_neg ?_, mul_zero]
  rcases hout with hrow | hcol
  · have := hrow ky hky
    omega
  · have := hcol kx hkx
    omega

theorem windowValue_of_empty (hempty : kH * kW = 0) (y x : Int) :
    windowValue kernels data h w kH kW c y x = 0 := by
  rcases Nat.mul_eq_zero.mp hempty with rfl | rfl <;> simp [windowValue]

/-- Padding of at least a stride adds a window behind those that fit. -/
theorem fitting_lt_outSide {k p : Nat} (hs : 1 ≤ s) (hk : k ≤ h) (hp : s ≤ p) :
    fitting h k s < outSide h p k s := by
  have hpos : 0 < fitting h k s := (lt_fitting_iff hs).mpr (by omega)
  have hlast := (lt_fitting_iff hs).mp (Nat.sub_lt hpos Nat.one_pos)
  have hsplit : fitting h k s * s = (fitting h k s - 1) * s + s := by
    rw [← Nat.succ_mul, Nat.succ_eq_add_one, Nat.sub_add_cancel hpos]
  rw [lt_outSide_iff hs]
  omega

/-- With padding, the first window of the padded matrix is not one of those inside. -/
theorem TextHolds.first_out (hh : TextHolds h w kH kW pH pW s) (hpad : ¬ (pH = 0 ∧ pW = 0)) :
    AxisOut h pH kH s 0 ∨ AxisOut w pW kW s 0 := by
  refine (hh.1 0 (Nat.succ_pos _) 0 (Nat.succ_pos _)).resolve_left fun hin => ?_
  have hrow := hin.1.1
  have hcol := hin.2.1
  omega

/-- With padding, some row of the matrix is left blank. -/
theorem TextHolds.exists_blank (hh : TextHolds h w kH kW pH pW s) (hs : 1 ≤ s)
    (hpad : ¬ (pH = 0 ∧ pW = 0)) :
    ∃ i < outSide h pH kH s, ∃ j < outSide w pW kW s,
      ¬ (i < fitting h kH s ∧ j < fitting w kW s) := by
  rcases Nat.lt_or_ge h kH with hlt | hle
  · refine ⟨0, Nat.succ_pos _, 0, Nat.succ_pos _, fun hvisit => ?_⟩
    have := (lt_fitting_iff hs).mp hvisit.1
    omega
  rcases Nat.lt_or_ge w kW with hlt | hle'
  · refine ⟨0, Nat.succ_pos _, 0, Nat.succ_pos _, fun hvisit => ?_⟩
    have := (lt_fitting_iff hs).mp hvisit.2
    omega
  obtain ⟨hdvdH, hdvdW⟩ := hh.2 hle hle'
  rcases Nat.eq_zero_or_pos pH with h0 | hpos
  · have hsW : s ≤ pW := Nat.le_of_dvd (by omega) hdvdW
    exact ⟨0, Nat.succ_pos _, fitting w kW s, fitting_lt_outSide hs hle' hsW, by omega⟩
  · have hsH : s ≤ pH := Nat.le_of_dvd hpos hdvdH
    exact ⟨fitting h kH s, fitting_lt_outSide hs hle hsH, 0, Nat.succ_pos _, by omega⟩

/-- Every value over the padded matrix is the value of some row. -/
theorem TextHolds.window_of_slot (hh : TextHolds h w kH kW pH pW s) (hs : 1 ≤ s) (hkH1 : 1 ≤ kH)
    (hkW1 : 1 ≤ kW) (hkH : kH ≤ h + 2 * pH) (hkW : kW ≤ w + 2 * pW) {i j : Nat} (hi : i < outSide h pH kH s) (hj : j < outSide w pW kW s) :
    ∃ i' < outSide h pH kH s, ∃ j' < outSide w pW kW s,
      windowValue kernels data h w kH kW c ((i * s : Nat) - pH) ((j * s : Nat) - pW) =
        slotValue kernels data h w kH kW s c i' j' := by
  rcases hh.1 i hi j hj with ⟨hrow, hcol⟩ | hout
  · -- inside: the corner is a multiple of the stride again
    unfold AxisIn at hrow hcol
    obtain ⟨⟨a, ha⟩, ⟨b, hb⟩⟩ := hh.2 (by omega) (by omega)
    have hia : (i - a) * s = i * s - pH := by rw [Nat.sub_mul, ha, Nat.mul_comm s]
    have hjb : (j - b) * s = j * s - pW := by rw [Nat.sub_mul, hb, Nat.mul_comm s]
    have hfit : i - a < fitting h kH s ∧ j - b < fitting w kW s :=
      ⟨(lt_fitting_iff hs).mpr (by omega), (lt_fitting_iff hs).mpr (by omega)⟩
    refine ⟨i - a, hfit.1.trans_le (fitting_le_outSide hs), j - b,
      hfit.2.trans_le (fitting_le_outSide hs), ?_⟩
    rw [slotValue, if_pos hfit, hia, hjb, Nat.cast_sub hrow.1, Nat.cast_sub hcol.1]
  · have hpad : ¬ (pH = 0 ∧ pW = 0) := by
      -- without padding no window is blank
      rintro ⟨rfl, rfl⟩
      rw [lt_outSide_iff hs] at hi hj
      rcases hout with hrow | hcol
      · exact hrow 0 hkH1 (by omega)
      · exact hcol 0 hkW1 (by omega)
    obtain ⟨i', hi', j', hj', hblank⟩ := hh.exists_blank hs hpad
    exact ⟨i', hi', j', hj', by rw [windowValue_of_out kernels data hout, slotValue, if_neg hblank]⟩

/-- Every row has the value of some window of the padded matrix. -/
theorem TextHolds.slot_of_window (hh : TextHolds h w kH kW pH pW s) (hs : 1 ≤ s)
    (hkH : kH ≤ h + 2 * pH) (hkW : kW ≤ w + 2 * pW) {i j : Nat} (hi : i < outSide h pH kH s) (hj : j < outSide w pW kW s) :
    ∃ i' < outSide h pH kH s, ∃ j' < outSide w pW kW s,
      slotValue kernels data h w kH kW s c i j =
        windowValue kernels data h w kH kW c ((i' * s : Nat) - pH) ((j' * s : Nat) - pW) := by
  unfold slotValue
  split
  · next hvisit =>
    rw [lt_fitting_iff hs, lt_fitting_iff hs] at hvisit
    obtain ⟨⟨a, ha⟩, ⟨b, hb⟩⟩ := hh.2 (by omega) (by omega)
    have hia : (i + a) * s = i * s + pH := by rw [Nat.add_mul, ha, Nat.mul_comm s]
    have hjb : (j + b) * s = j * s + pW := by rw [Nat.add_mul, hb, Nat.mul_comm s]
    refine ⟨i + a, (lt_outSide_iff hs).mpr (by omega), j + b, (lt_outSide_iff hs).mpr (by omega), ?_⟩
    rw [hia, hjb, Nat.cast_add, Nat.cast_add, Int.add_sub_cancel, Int.add_sub_cancel]
  · next hblank =>
    have hpad : ¬ (pH = 0 ∧ pW = 0) := by
      rintro ⟨rfl, rfl⟩
      rw [outSide_unpadded (h := h) hs hkH] at hi
      rw [outSide_unpadded (h := w) hs hkW] at hj
      exact hblank ⟨hi, hj⟩
    exact ⟨0, Nat.succ_pos _, 0, Nat.succ_pos _,
      (windowValue_of_out kernels data (hh.first_out hpad)).symm⟩

/-- Rows and windows have the same values. -/
theorem same_values (c : Nat) (hs : 1 ≤ s) (hkH : kH ≤ h + 2 * pH) (hkW : kW ≤ w + 2 * pW)
    (hcond : kH * kW = 0 ∨ TextHolds h w kH kW pH pW s) :
    (∀ i < outSide h pH kH s, ∀ j < outSide w pW kW s,
      ∃ i' < outSide h pH kH s, ∃ j' < outSide w pW kW s,
        windowValue kernels data h w kH kW c ((i * s : Nat) - pH) ((j * s : Nat) - pW) =
          slotValue kernels data h w kH kW s c i' j') ∧
    ∀ i < outSide h pH kH s, ∀ j < outSide w pW kW s,
      ∃ i' < outSide h pH kH s, ∃ j' < outSide w pW kW s,
        slotValue kernels data h w kH kW s c i j =
          windowValue kernels data h w kH kW c ((i' * s : Nat) - pH) ((j' * s : Nat) - pW) := by
  by_cases hempty : kH * kW = 0
  · have hslot : ∀ i j, slotValue kernels data h w kH kW s c i j = 0 := by
      intro i j
      rw [slotValue, windowValue_of_empty _ _ hempty, ite_self]
    exact ⟨fun i hi j hj => ⟨i, hi, j, hj, by rw [windowValue_of_empty _ _ hempty, hslot]⟩,
      fun i hi j hj => ⟨i, hi, j, hj, by rw [windowValue_of_empty _ _ hempty, hslot]⟩⟩
  · have hh := hcond.resolve_left hempty
    have hkH1 : 1 ≤ kH := Nat.pos_of_ne_zero fun h0 => hempty (by simp [h0])
    have hkW1 : 1 ≤ kW := Nat.pos_of_ne_zero fun h0 => hempty (by simp [h0])
    exact ⟨fun i hi j hj => hh.window_of_slot _ _ hs hkH1 hkW1 hkH hkW hi hj,
      fun i hi j hj => hh.slot_of_window _ _ hs hkH hkW hi hj⟩

end Sufficient

/-! ## No other sizes are right -/

section Necessary

variable {oc h w kH kW pH pW s : Nat}

/-- `n` zeros, but for a one at `t`. -/
def unitList (n t : Nat) : List Int := (List.range n).map fun m => if m = t then 1 else 0

theorem getD_unitList {n t m : Nat} (hm : m < n) :
    (unitList n t).getD m 0 = if m = t then 1 else 0 := by
  rw [List.getD_eq_getElem?_getD, unitList, List.getElem?_map, List.getElem?_range hm,
    Option.map_some, Option.getD_some]

/-- A single one in the weight and a single one in the text meet at one corner. -/
theorem windowValue_unit (hoc : 1 ≤ oc) {t u y₀ x₀ : Nat} (ht : t < kH) (hu : u < kW) (hy : y₀ < h)
    (hx : x₀ < w) (y x : Int) :
    windowValue (unitList (oc * (kH * kW)) (t * kW + u)) (unitList (h * w) (y₀ * w + x₀)) h w kH kW 0
      y x = if y + t = y₀ ∧ x + u = x₀ then 1 else 0 := by
  have hkernel : ∀ ky < kH, ∀ kx < kW,
      (unitList (oc * (kH * kW)) (t * kW + u)).getD (0 * (kH * kW) + (ky * kW + kx)) 0 =
        if ky = t ∧ kx = u then 1 else 0 := by
    intro ky hky kx hkx
    rw [getD_unitList (slot_lt hoc (slot_lt hky hkx)), Nat.zero_mul, Nat.zero_add,
      if_congr (slot_inj hkx hu) rfl rfl]
  have hcell : ∀ y x : Int, textCell (unitList (h * w) (y₀ * w + x₀)) h w y x =
      if y = y₀ ∧ x = x₀ then 1 else 0 := by
    intro y x
    unfold textCell
    split
    · next hin =>
      obtain ⟨hy0, hyh, hx0, hxw⟩ := hin
      rw [getD_unitList (slot_lt (by omega) (by omega)),
        if_congr (slot_inj (by omega) hx) rfl rfl]
      refine if_congr ?_ rfl rfl
      omega
    · rw [if_neg (by omega)]
  unfold windowValue
  rw [Finset.sum_eq_single t, Finset.sum_eq_single u]
  · rw [hkernel t ht u hu, if_pos ⟨rfl, rfl⟩, one_mul, hcell]
  · intro kx hkx hne
    rw [hkernel t ht kx (Finset.mem_range.mp hkx), if_neg (fun h => hne h.2), zero_mul]
  · intro hnot
    exact absurd (Finset.mem_range.mpr hu) hnot
  · intro ky hky hne
    refine Finset.sum_eq_zero fun kx hkx => ?_
    rw [hkernel ky (Finset.mem_range.mp hky) kx (Finset.mem_range.mp hkx),
      if_neg (fun h => hne h.1), zero_mul]
  · intro hnot
    exact absurd (Finset.mem_range.mpr ht) hnot

/-- On any weight and text a correct kernel's rows and the padded matrix's windows have the same
greatest value. -/
theorem TextCorrect.same_greatest (hcorrect : TextCorrect oc h w kH kW pH pW s) (hoc : 1 ≤ oc)
    (hs : 1 ≤ s) (hkH : kH ≤ h + 2 * pH) (hkW : kW ≤ w + 2 * pW) (kernels data : List Int)
    (hdata : data.length = h * w) :
    ∃ m, IsGreatest {v | ∃ i < outSide h pH kH s, ∃ j < outSide w pW kW s,
        v = slotValue kernels data h w kH kW s 0 i j} m ∧
      IsGreatest {v | ∃ i < outSide h pH kH s, ∃ j < outSide w pW kW s,
        v = windowValue kernels data h w kH kW 0 ((i * s : Nat) - pH) ((j * s : Nat) - pW)} m := by
  have hsup := weightEnv_supplied oc (kH * kW) kernels 0
  have hdims : (ArrayType.matrix h w data fun _ => 0).dims = [(h : Int), (w : Int)] := rfl
  obtain ⟨res, hres, -, hcell⟩ := hcorrect Int _ _ _ _ _ hsup hdims hdata rfl rfl
  obtain ⟨res', hres', -, hcell'⟩ := convText_run hsup hdims hdata hs hkH hkW rfl rfl
  obtain rfl : res = res' := Except.ok.inj (hres.symm.trans hres')
  obtain ⟨m, hm, hwindows⟩ := hcell 0 hoc
  obtain ⟨m', hm', hslots⟩ := hcell' 0 hoc
  obtain rfl : m = m' := WithBot.coe_injective (Option.some.inj (hm.symm.trans hm'))
  simp only [activated, if_neg (not_biased oc)] at hwindows hslots
  exact ⟨m, hslots, hwindows⟩

/-- A window that meets the matrix is one of those visited. -/
theorem TextCorrect.corner_visited (hcorrect : TextCorrect oc h w kH kW pH pW s) (hoc : 1 ≤ oc)
    (hs : 1 ≤ s) (hkH : kH ≤ h + 2 * pH) (hkW : kW ≤ w + 2 * pW) {i j t u : Nat}
    (hi : i < outSide h pH kH s) (hj : j < outSide w pW kW s) (ht : t < kH) (hu : u < kW)
    (hy : 0 ≤ ((i * s + t : Nat) : Int) - pH ∧ ((i * s + t : Nat) : Int) - pH < h)
    (hx : 0 ≤ ((j * s + u : Nat) : Int) - pW ∧ ((j * s + u : Nat) : Int) - pW < w) :
    AxisIn h pH kH s i ∧ AxisIn w pW kW s j := by
  -- a one in that cell, and a weight that picks it out of this window
  obtain ⟨y₀, hy₀⟩ := Int.eq_ofNat_of_zero_le hy.1
  obtain ⟨x₀, hx₀⟩ := Int.eq_ofNat_of_zero_le hx.1
  have hvalue := windowValue_unit hoc ht hu (show y₀ < h by omega) (show x₀ < w by omega)
  obtain ⟨m, hslots, hwindows⟩ := hcorrect.same_greatest hoc hs hkH hkW
    (unitList (oc * (kH * kW)) (t * kW + u)) (unitList (h * w) (y₀ * w + x₀)) (by simp [unitList])
  have hone := hwindows.2 ⟨i, hi, j, hj, rfl⟩
  rw [hvalue, if_pos (by omega)] at hone
  obtain ⟨i', -, j', -, rfl⟩ := hslots.1
  unfold slotValue at hone
  split at hone
  · next hvisit =>
    rw [lt_fitting_iff hs, lt_fitting_iff hs] at hvisit
    rw [hvalue] at hone
    split at hone
    · unfold AxisIn
      omega
    · omega
  · omega

/-- The first visited window is one of the padded matrix's. -/
theorem TextCorrect.dvd_padding (hcorrect : TextCorrect oc h w kH kW pH pW s) (hoc : 1 ≤ oc)
    (hs : 1 ≤ s) (hkH1 : 1 ≤ kH) (hkW1 : 1 ≤ kW) (hkH : kH ≤ h) (hkW : kW ≤ w) :
    s ∣ pH ∧ s ∣ pW := by
  have hvalue := windowValue_unit hoc hkH1 hkW1 (show 0 < h by omega) (show 0 < w by omega)
  obtain ⟨m, hslots, hwindows⟩ := hcorrect.same_greatest hoc hs (by omega) (by omega)
    (unitList (oc * (kH * kW)) (0 * kW + 0)) (unitList (h * w) (0 * w + 0)) (by simp [unitList])
  have hone := hslots.2 ⟨0, Nat.succ_pos _, 0, Nat.succ_pos _, rfl⟩
  have hvisit : 0 < fitting h kH s ∧ 0 < fitting w kW s :=
    ⟨(lt_fitting_iff hs).mpr (by omega), (lt_fitting_iff hs).mpr (by omega)⟩
  rw [slotValue, if_pos hvisit, hvalue, if_pos (by omega)] at hone
  obtain ⟨i, -, j, -, rfl⟩ := hwindows.1
  rw [hvalue] at hone
  split at hone
  · next hcorner =>
    exact ⟨⟨i, by rw [Nat.mul_comm]; omega⟩, ⟨j, by rw [Nat.mul_comm]; omega⟩⟩
  · omega

end Necessary

/-! ## The two directions -/

end Peps
