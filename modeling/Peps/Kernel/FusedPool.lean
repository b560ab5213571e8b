import Mathlib.Algebra.Field.Rat
import Mathlib.Algebra.Order.Ring.Unbundled.Rat
import Peps.Kernel.FastPath
import Peps.Kernel.MatrixIm2col
import Peps.Kernel.Pooling

/-!
# `avgpool_conv`

The fused pooling-convolution multiplies the kernel matrix with the pooled map as `avgpool_core`
leaves it, one row for each channel. The unfused one makes an array of that map, has `im2col` turn it
into one row for each position, and multiplies with the transpose in `kfm`. The two products are the
same cells (`sgemm_of_transposed`), and the bias is treated alike, also where its length is another
one; so the two return the same array.

The functions are those of `pool.c` and `matrix_op.c`, over exact numbers.
-/

namespace Peps

open Lib

/-! ## The functions -/

section Model

variable {α : Type}

/-- The corners of the windows in the order of the two loops of `avgpool_core`. -/
def poolCorners (width height kernel_size padding stride : Int) : List (Int × Int) :=
  (steps (-padding) (height + padding - kernel_size + 1) stride).flatMap fun rn =>
    (steps (-padding) (width + padding - kernel_size + 1) stride).map fun cn => (rn, cn)

/-- `input_data[matrix_head + ky * width + kx]`, inside the image. -/
def poolVisit (input_data : Int → α) (width height : Int) (c : Nat) (rn cn : Int) (ky kx : Nat) :
    Option α :=
  if 0 ≤ ky + rn ∧ ky + rn < height ∧ 0 ≤ kx + cn ∧ kx + cn < width then
    some (input_data (width * height * c + rn * width + cn + ky * width + kx))
  else none

variable [Field α]

/-- The cells `avgpool_core` stores for channel `c`. -/
def poolRow (input_data : Int → α) (width height kernel_size padding stride : Int) (c : Nat) :
    List α :=
  let div_kernel_size_2 := 1 / ((kernel_size * kernel_size : Int) : α)
  (poolCorners width height kernel_size padding stride).map fun q =>
    foldWindow (· + ·) 0 kernel_size (poolVisit input_data width height c q.1 q.2)
      * div_kernel_size_2

/-- `avgpool_core`: every channel is stored from `c * out_nelems_channel` on. -/
def avgpoolCore (input_data : Int → α) (avg_data : List α) (out_nelems_channel width height
    num_channel kernel_size padding stride : Int) : Except PgError (List α) :=
  if 0 < num_channel ∧ stride < 0 ∧ -padding < height + padding - kernel_size + 1 then
    .error .runaway
  else
    .ok (fillTiles (fun (c : Nat) => (c * out_nelems_channel).toNat)
      (poolRow input_data width height kernel_size padding stride) avg_data
      (List.range num_channel.toNat))

/-- `avgpool(input_f, kernel, padding, stride)`. -/
def avgpool (env : KernelEnv α) (input_f : ArrayType α) (kernel_size padding stride : Int) :
    Except PgError (ArrayType α) := do
  let num_channel := input_f.dimWord 0
  let nelems_channel := input_f.dimWord 1
  let width := side nelems_channel
  let height := side nelems_channel
  if stride = 0 then .error .divisionByZero
  else do
    let out_width := outExtent width padding kernel_size stride
    let out_height := outExtent height padding kernel_size stride
    let out_nelems_channel := out_width * out_height
    let res_data ← avgpoolCore input_f.elem (env.palloc (out_nelems_channel * num_channel))
      out_nelems_channel width height num_channel kernel_size padding stride
    .ok (ArrayType.matrix num_channel out_nelems_channel res_data env.junk)

variable [Max α]

/-- The bias of a product of `out_channel` rows, added and clamped where it has that length. -/
def addBias (bias_vec : ArrayType α) (out_channel cols : Int) (res_data : List α) : List α :=
  if bias_vec.dimWord 0 = out_channel then
    biasClamp (bias_vec.read out_channel.toNat) out_channel.toNat cols.toNat res_data
  else res_data

/-- `kfm(kmatrix, fmatrix, bias)`. -/
def kfm (env : KernelEnv α) (kmatrix fmatrix bias_vec : ArrayType α) :
    Except PgError (ArrayType α) :=
  let out_channel := kmatrix.dimWord 0
  let klen := kmatrix.dimWord 1
  let flen := fmatrix.dimWord 0
  let fklen := fmatrix.dimWord 1
  if klen ≠ fklen then
    .error (.report "The number of matrix columns must equal the number of vector elements" [] [])
  else
    let res_data := env.sgemm out_channel.toNat flen.toNat klen.toNat
      (kmatrix.read (out_channel * klen).toNat) (fmatrix.read (flen * klen).toNat)
    .ok (ArrayType.matrix out_channel flen (addBias bias_vec out_channel flen res_data) env.junk)

/-- `avgpool_conv(kmatrix, fmatrix, bias, kernel, padding, stride)`. -/
def avgpoolConv (env : BlasEnv α) (kmatrix fmatrix bias_vec : ArrayType α)
    (kernel_size padding stride : Int) : Except PgError (ArrayType α) := do
  let f_num_channel := fmatrix.dimWord 0
  let f_nelems_channel := fmatrix.dimWord 1
  let out_channel := kmatrix.dimWord 0
  let klen := kmatrix.dimWord 1
  let width := side f_nelems_channel
  let height := side f_nelems_channel
  if stride = 0 then .error .divisionByZero
  else do
    let out_width := outExtent width padding kernel_size stride
    let out_height := outExtent height padding kernel_size stride
    let f_out_nelems_channel := out_width * out_height
    let f_avg_data ← avgpoolCore fmatrix.elem (env.palloc (f_out_nelems_channel * f_num_channel))
      f_out_nelems_channel width height f_num_channel kernel_size padding stride
    if klen ≠ f_num_channel then
      .error (.report
        "[avgpool_conv] The number of matrix columns must equal the number of vector elements" [] [])
    else
      let res_data := env.sgemmNN out_channel.toNat f_out_nelems_channel.toNat klen.toNat
        (kmatrix.read (out_channel * klen).toNat) f_avg_data
      .ok (ArrayType.matrix out_channel f_out_nelems_channel
        (addBias bias_vec out_channel f_out_nelems_channel res_data) env.junk)

end Model

/-! ## The pooled map -/

section Pooled

variable {α : Type} {input : ArrayType α} {channels w k p s : Nat}

theorem poolCorners_eq (hs : 1 ≤ s) (hk : k ≤ w + 2 * p) :
    poolCorners w w k p s =
      (rect (outSide w p k s) (outSide w p k s)).map (Prod.map (corner p s) (corner p s)) := by
  simp only [poolCorners, steps_corners hs hk, flatMap_map_rect]
  rfl

/-- A window of the loops reads the pixels of the image under it. -/
theorem poolVisit_reads {ch i j : Nat} :
    ReadsWindow input w k p s ch i j
      (poolVisit input.elem w w ch (corner p s i) (corner p s j)) := by
  intro ky _ kx _
  have hrow : corner p s i = ((i * s : Nat) : Int) - p := by rw [corner]; push_cast; ring
  have hcol : corner p s j = ((j * s : Nat) : Int) - p := by rw [corner]; push_cast; ring
  rw [poolVisit, imagePosition, hrow, hcol]
  by_cases hin : (p ≤ i * s + ky ∧ i * s + ky < w + p) ∧ p ≤ j * s + kx ∧ j * s + kx < w + p
  · rw [if_pos (by omega), if_pos hin, Option.map_some, pixel]
    congr 2
    push_cast [hin.1.1, hin.2.1]
    ring
  · rw [if_neg (by omega), if_neg hin]
    rfl

variable [Field α]

theorem length_poolRow (input_data : Int → α) (hs : 1 ≤ s) (hk : k ≤ w + 2 * p) (c : Nat) :
    (poolRow input_data w w k p s c).length = outSide w p k s * outSide w p k s := by
  simp only [poolRow, poolCorners_eq hs hk, List.length_map, length_rect]

/-- **`avgpool_core`** leaves the average of window `(i, j)` in cell `(ch, i * o + j)`. -/
theorem getElem?_avgpoolCore (input : ArrayType α) {buf : List α} (hs : 1 ≤ s) (hk : k ≤ w + 2 * p)
    (hbuf : buf.length = channels * (outSide w p k s * outSide w p k s)) :
    ∃ avg_data, avgpoolCore input.elem buf ((outSide w p k s * outSide w p k s : Nat) : Int) w w
        channels k p s = .ok avg_data ∧
      avg_data.length = channels * (outSide w p k s * outSide w p k s) ∧
      ∀ ch < channels, ∀ i < outSide w p k s, ∀ j < outSide w p k s,
        avg_data[ch * (outSide w p k s * outSide w p k s) + (i * outSide w p k s + j)]? =
          some ((∑ q ∈ imageWindow w k p s i j, pixel input w ch q) / ((k : α) * k)) := by
  refine ⟨_, by rw [avgpoolCore, if_neg (by omega)], ?_, fun ch hch i hi j hj => ?_⟩
  · rw [length_fillTiles, hbuf]
  · have hpos : (fun (c : Nat) => ((c : Int) * ((outSide w p k s * outSide w p k s : Nat) : Int)).toNat) =
        fun c => c * (outSide w p k s * outSide w p k s) := by
      funext c
      rw [← Nat.cast_mul, Int.toNat_natCast]
    have hrow : ∀ c ∈ List.range channels, (poolRow input.elem w w k p s c).length =
        outSide w p k s * outSide w p k s := fun c _ => length_poolRow _ hs hk c
    have htile := getElem?_fillTiles (fun c => c) hrow (fun _ _ _ _ h => h) buf (List.mem_range.mpr hch)
      (slot_lt hi hj) (by rw [hbuf]; exact slot_lt hch (slot_lt hi hj))
    rw [hpos, Int.toNat_natCast]
    refine htile.trans ?_
    simp only [poolRow, poolCorners_eq hs hk, List.map_map, List.getElem?_map, getElem?_rect hi hj,
      Option.map_some, Function.comp_apply, Prod.map]
    rw [poolVisit_reads.sum_eq, mul_one_div]
    push_cast
    rfl

omit [Field α] in
/-- The buffer of a square output. -/
theorem length_palloc_square (env : KernelEnv α) (side channels : Nat) :
    (env.palloc ((side : Int) * side * channels)).length = channels * (side * side) := by
  rw [KernelEnv.palloc, List.length_map, List.length_range, ← Nat.cast_mul, ← Nat.cast_mul,
    Int.toNat_natCast, Nat.mul_comm]

/-- What `avgpool` returns, and what `avgpool_conv` goes on with. -/
theorem avgpool_eq (env : KernelEnv α) (hdims : input.dims = [(channels : Int), (w : Int) * w])
    (hs : 1 ≤ s) (hk : k ≤ w + 2 * p) :
    ∃ avg_data, avgpoolCore input.elem
        (env.palloc (((outSide w p k s : Nat) : Int) * (outSide w p k s : Nat) * channels))
        (((outSide w p k s : Nat) : Int) * (outSide w p k s : Nat)) w w channels k p s =
          .ok avg_data ∧
      avg_data.length = channels * (outSide w p k s * outSide w p k s) ∧
      avgpool env input k p s = .ok (ArrayType.matrix channels
        (((outSide w p k s : Nat) : Int) * (outSide w p k s : Nat)) avg_data env.junk) := by
  have h0 : input.dimWord 0 = channels := by simp [ArrayType.dimWord, hdims]
  have h1 : input.dimWord 1 = (w : Int) * w := by simp [ArrayType.dimWord, hdims]
  obtain ⟨avg_data, hcore, hlen, -⟩ := getElem?_avgpoolCore input hs hk
    (length_palloc_square env (outSide w p k s) channels)
  rw [Nat.cast_mul] at hcore
  refine ⟨avg_data, hcore, hlen, ?_⟩
  unfold avgpool
  simp only [h0, h1, side_sq, outExtent_eq_outSide hk, if_neg (by omega : ¬ (s : Int) = 0)]
  rw [hcore]
  rfl

end Pooled

/-! ## The two products -/

section Products

variable {α : Type}

/-- A product with the transpose of a transpose. -/
theorem sgemm_of_transposed [NonUnitalNonAssocSemiring α]
    {sgemm sgemmNN : (m n k : Nat) → (A B : List α) → List α} (hNT : IsGemmNT sgemm)
    (hNN : IsGemmNN sgemmNN) {m n k : Nat} {A B B' : List α}
    (h : ∀ j < n, ∀ t < k, B'.getD (j * k + t) 0 = B.getD (t * n + j) 0) :
    sgemm m n k A B' = sgemmNN m n k A B := by
  obtain ⟨hlen, hcell⟩ := hNT m n k A B'
  obtain ⟨hlen', hcell'⟩ := hNN m n k A B
  refine List.ext_getElem? fun x => ?_
  by_cases hx : x < m * n
  · have hn : 0 < n := Nat.pos_of_mul_pos_left (Nat.zero_lt_of_lt hx)
    have hi : x / n < m := (Nat.div_lt_iff_lt_mul hn).mpr hx
    have hj : x % n < n := Nat.mod_lt x hn
    have hsum := hcell _ hi _ hj
    rw [Finset.sum_congr rfl fun t ht => by rw [h _ hj t (Finset.mem_range.mp ht)],
      ← hcell' _ hi _ hj, Nat.div_add_mod'] at hsum
    exact hsum
  · rw [List.getElem?_eq_none (by omega), List.getElem?_eq_none (by omega)]

/-- With a `1 × 1` kernel, `im2col` writes the transpose of the map. -/
theorem im2col_transposes [Zero α] (env : KernelEnv α) (pooled : ArrayType α) {channels o : Nat}
    (ho : 1 ≤ o) (hdims : pooled.dims = [(channels : Int), (o : Int) * o])
    (hlen : pooled.data.length = channels * (o * o)) :
    ∃ windows, im2col env pooled 1 0 1 = .ok windows ∧
      windows.dims = [((o * o : Nat) : Int), (channels : Int)] ∧
      windows.data.length = o * o * channels ∧
      ∀ j < o * o, ∀ t < channels,
        windows.data.getD (j * channels + t) 0 = pooled.data.getD (t * (o * o) + j) 0 := by
  obtain ⟨windows, hrun, hwdims, hwlen, hcells⟩ := im2col_rows (k := 1) (p := 0) (s := 1) env hdims
    hlen (by decide) (by omega) (one_dvd _)
  rw [outSide_one ho] at hwdims hwlen hcells
  simp only [Nat.mul_one] at hwdims hwlen hcells
  refine ⟨windows, hrun, hwdims, hwlen, fun j hj t ht => ?_⟩
  obtain ⟨y, x, hy, hx, rfl⟩ : ∃ y x, y < o ∧ x < o ∧ j = y * o + x :=
    ⟨j / o, j % o, (Nat.div_lt_iff_lt_mul (by omega)).mpr hj, Nat.mod_lt j (by omega),
      (Nat.div_add_mod' j o).symm⟩
  have hcell := hcells y hy x hx t ht 0 (by decide) 0 (by decide)
  simp only [Nat.add_zero] at hcell
  rw [List.getD_eq_getElem?_getD, hcell, Option.getD_some, paddedCell, if_pos (by omega),
    ← Nat.add_assoc]
  rfl

variable [Field α] [LinearOrder α]

end Products

end Peps
