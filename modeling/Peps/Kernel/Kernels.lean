import Mathlib.Algebra.Notation.Defs
import Mathlib.Order.Notation
import Peps.Kernel.Im2col
import Peps.Pool.WeightPool

/-!
# `conv.c`, `matrix_op.c`, `extended_op.c` — the SQL-callable kernels

`PG_GETARG_ARRAYTYPE_P` hands a kernel the caller's own array (for plain 4-byte-header
values), so what a kernel writes through it the caller sees. Each kernel therefore returns its
outcome together with its argument arrays as it leaves them, also when it raises.

`cblas_sgemm`, the weight pool and what freshly allocated memory holds come from outside and
are collected in `KernelEnv`. Memory allocation itself always succeeds here.
-/

namespace Peps

open Lib

structure KernelEnv (α : Type) where
  pool : Option (WeightPool α)
  /-- `cblas_sgemm(CblasRowMajor, CblasNoTrans, CblasTrans, m, n, k, 1.0, A, k, B, k, 0.0, C,
  n)`: the `m * n` cells of `C`. -/
  sgemm : (m n k : Nat) → (A B : List α) → List α
  junk : Int → α

/-- What a kernel returns, and its argument arrays afterwards. -/
abbrev Called (α : Type) := Except PgError (ArrayType α) × List (ArrayType α)

section Kernels

variable {α : Type}

namespace KernelEnv

/-- The content of `palloc`ed memory. -/
def palloc (env : KernelEnv α) (n : Int) : List α :=
  (List.range n.toNat).map fun (i : Nat) => env.junk i

/-- `get_weight(WEIGHT_POOL, psprintf("%s_…", name))` with the caller's complaint about a
missing entry. -/
def weight (env : KernelEnv α) (missing : String) (name : Bytes) (part : Part) :
    Except PgError (WeightEntry α) :=
  match env.pool with
  | none => .error (.report "[get_weight] pool is NULL" [] [])
  | some pool =>
    match pool.getWeight (name ++ part.suffix) with
    | none => .error (.report missing [name] [])
    | some entry => .ok entry

end KernelEnv

/-! ## Convolutions -/

/-- The bias loop: `res_data[i] += bias[c]; res_data[i] = fmax(0, res_data[i]);` over the
`cols` cells of each channel. -/
def biasClamp [Zero α] [Add α] [Max α] (bias : List α) (channels cols : Nat)
    (res_data : List α) : List α :=
  (List.range channels).foldl (fun res c =>
    (List.range cols).foldl (fun res i =>
      res.modify (c * cols + i) fun x => max 0 (x + bias.getD c 0)) res) res_data

/-- The offset argument: the caller's first dimension is overwritten with the number of
channels it selects, and the data pointer moves to the first of them. -/
def selectChannels (input : ArrayType α) (offset : Option (ArrayType Int)) :
    Except PgError (ArrayType α × Int) :=
  match offset with
  | none => .ok (input, 0)
  | some off =>
    if off.ndim ≠ 1 ∨ off.dimWord 0 ≠ 2 then
      .error (.report "Offset must be an array of two integers" [] [])
    else if off.elem 0 - 1 < 0 ∨ input.dimWord 0 < off.elem 1 ∨ off.elem 1 ≤ off.elem 0 - 1 then
      .error (.report "Invalid offset range" [] [])
    else
      .ok (input.setDim0 (off.elem 1 - (off.elem 0 - 1)), off.elem 0 - 1)

variable [Zero α] [Add α] [Max α]

/-- The product of the pool's kernel matrix with the im2col matrix, and the bias. -/
def kernelProduct (env : KernelEnv α) (valMissing biasMissing : String) (name : Bytes)
    (f_rows f_cols : Int) (f_matrix : List α) : Except PgError (ArrayType α) := do
  let kmatrix ← env.weight valMissing name .val
  let k_channel := kmatrix.dimWord 0
  let klen := kmatrix.dimWord 1
  if klen ≠ f_cols then
    .error (.report "The number of matrix columns must equal the number of vector elements" [] [])
  else do
    let res_data := env.sgemm k_channel.toNat f_rows.toNat klen.toNat kmatrix.data f_matrix
    let bias ← env.weight biasMissing name .bias
    let res_data :=
      if bias.dimWord 0 = k_channel then
        biasClamp bias.data k_channel.toNat f_rows.toNat res_data
      else res_data
    .ok (ArrayType.matrix k_channel f_rows res_data env.junk)

/-- `kfm_im2col` after the offset has been handled. -/
def kfmIm2colBody (env : KernelEnv α) (name : Bytes) (input : ArrayType α) (start : Int)
    (kernel_size padding stride : Int) : Except PgError (ArrayType α) := do
  let num_channel := input.dimWord 0
  let width := side (input.dimWord 1)
  if stride = 0 then .error .divisionByZero
  else do
    let out_width := outExtent width padding kernel_size stride
    let out_height := outExtent width padding kernel_size stride
    let out_nelems := out_width * out_height * num_channel * kernel_size * kernel_size
    let f_matrix ← im2colCore input (start * input.dimWord 1) kernel_size padding stride 0
      (env.palloc out_nelems)
    if env.pool.isNone then .error (.report "[kfm_im2col] WEIGHT POOL is NULL" [] [])
    else
      kernelProduct env "[kfm_im2col] %s_val not found" "[kfm_im2col] %s_bias not found" name
        (out_width * out_height) (num_channel * kernel_size * kernel_size) f_matrix

/-- `kfm_im2col(kmatrix, fmatrix, kernel, padding, stride, f_offset)`. -/
def kfmIm2col (env : KernelEnv α) (name : Bytes) (input : ArrayType α)
    (kernel_size padding stride : Int) (offset : Option (ArrayType Int)) : Called α :=
  match selectChannels input offset with
  | .error e => (.error e, [input])
  | .ok (input', start) =>
      (kfmIm2colBody env name input' start kernel_size padding stride, [input'])

/-- `kfm_im2col_ns` after the offset has been handled. -/
def kfmIm2colNsBody (env : KernelEnv α) (name : Bytes) (input : ArrayType α) (start : Int)
    (kernel_H kernel_W padding_H padding_W stride : Int) : Except PgError (ArrayType α) := do
  let num_channel := input.dimWord 0
  let width := side (input.dimWord 1)
  if stride = 0 then .error .divisionByZero
  else do
    let out_width := outExtent width padding_W kernel_W stride
    let out_height := outExtent width padding_H kernel_H stride
    let out_nelems := out_width * out_height * num_channel * kernel_W * kernel_H
    let f_matrix ←
      if kernel_H = 1 then
        im2colCoreW input (start * input.dimWord 1) kernel_W padding_W stride
          (env.palloc out_nelems)
      else
        im2colCoreH input (start * input.dimWord 1) kernel_H padding_H stride
          (env.palloc out_nelems)
    kernelProduct env "[kfm_im2col_ns] %s_val not found" "[kfm_im2col] %s_bias not found" name
      (out_width * out_height) (num_channel * kernel_H * kernel_W) f_matrix

/-- `kfm_im2col_ns(kmatrix, fmatrix, kernel_H, kernel_W, padding_H, padding_W, stride,
f_offset)`. -/
def kfmIm2colNs (env : KernelEnv α) (name : Bytes) (input : ArrayType α)
    (kernel_H kernel_W padding_H padding_W stride : Int) (offset : Option (ArrayType Int)) :
    Called α :=
  match selectChannels input offset with
  | .error e => (.error e, [input])
  | .ok (input', start) =>
      (kfmIm2colNsBody env name input' start kernel_H kernel_W padding_H padding_W stride,
        [input'])

/-- `group_kfm_im2col` once the first dimension of the caller's array is the number of
channels of one group. The output extent is `(width + 2 * padding - kernel + 1) / stride`
here. -/
def groupKfmIm2colBody (env : KernelEnv α) (name : Bytes) (input : ArrayType α)
    (kernel_size padding stride split_num : Int) : Except PgError (ArrayType α) := do
  let sub_num_channel := input.dimWord 0
  let nelems_channel := input.dimWord 1
  let width := side nelems_channel
  if stride = 0 then .error .divisionByZero
  else do
    let out_width := (width + 2 * padding - kernel_size + 1).tdiv stride
    let res_cols := out_width * out_width
    let out_nelems := res_cols * sub_num_channel * kernel_size * kernel_size
    let kmatrix ← env.weight "[group_kfm_im2col] %s_val not found" name .val
    let k_channel := kmatrix.dimWord 1
    let klen := kmatrix.dimWord 2
    if klen ≠ sub_num_channel * kernel_size * kernel_size then
      .error (.report "The number of matrix columns must equal the number of vector elements"
        [] [])
    else do
      let f_matrix_all ← (List.range split_num.toNat).foldlM (fun f_matrix (gn : Nat) =>
          im2colCore input (gn * nelems_channel * sub_num_channel) kernel_size padding stride
            (gn * out_nelems).toNat f_matrix)
        (env.palloc (out_nelems * split_num))
      let res_data := (List.range split_num.toNat).flatMap fun (gn : Nat) =>
        env.sgemm k_channel.toNat res_cols.toNat klen.toNat
          (kmatrix.data.drop (gn * k_channel * klen).toNat)
          (f_matrix_all.drop (gn * out_nelems).toNat)
      let bias ← env.weight "[group_kfm_im2col] %s_bias not found" name .bias
      let res_data :=
        if bias.dimWord 0 = split_num * k_channel then
          biasClamp bias.data (split_num * k_channel).toNat res_cols.toNat res_data
        else res_data
      .ok (ArrayType.matrix (k_channel * split_num) res_cols res_data env.junk)

/-- `group_kfm_im2col(kmatrix, fmatrix, kernel, padding, stride, groups)`. -/
def groupKfmIm2col (env : KernelEnv α) (name : Bytes) (input : ArrayType α)
    (kernel_size padding stride split_num : Int) : Called α :=
  if split_num = 0 then (.error .divisionByZero, [input])
  else if (input.dimWord 0).tmod split_num ≠ 0 then
    (.error (.report
      "The number of rows in the input array is not evenly divisible by split_num" [] []),
      [input])
  else
    let input' := input.setDim0 ((input.dimWord 0).tdiv split_num)
    (groupKfmIm2colBody env name input' kernel_size padding stride split_num, [input'])

/-! ## Element-wise kernels -/

/-- `relu(input_f)`, in place: `data[i] = fmaxf(0, data[i])`. -/
def relu (env : KernelEnv α) (input : ArrayType α) : Called α :=
  let size := (input.dimWord 0 * input.dimWord 1).toNat
  (.ok (ArrayType.matrix (input.dimWord 0) (input.dimWord 1)
      ((List.range size).map fun (i : Nat) => max 0 (input.elem i)) env.junk),
    [input.withData
      ((List.range size).foldl (fun data i => data.modify i (max 0)) input.data)])

/-- `madd(matrix1, matrix2)`, in place: `matrix1_data[i] += matrix2_data[i]`. -/
def madd (env : KernelEnv α) (matrix1 matrix2 : ArrayType α) : Called α :=
  let size := (matrix1.dimWord 0 * matrix1.dimWord 1).toNat
  (.ok (ArrayType.matrix (matrix1.dimWord 0) (matrix1.dimWord 1)
      ((List.range size).map fun (i : Nat) => matrix1.elem i + matrix2.elem i) env.junk),
    [matrix1.withData ((List.range size).foldl
        (fun data (i : Nat) => data.modify i (· + matrix2.elem i)) matrix1.data),
      matrix2])

/-! ## `concat_array` -/

/-- What the input loop of `concat_array` makes of its first array. -/
def selectFirst (first : ArrayType α) (offset : Option (ArrayType Int)) : ArrayType α × Int :=
  match offset with
  | none => (first, 0)
  | some off =>
    (first.setDim0 (off.elem 1 - (off.elem 0 - 1)), (off.elem 0 - 1) * first.dimWord 1)

/-- The cells one input contributes. -/
def contribution (input : ArrayType α) (origin : Int) : List α :=
  (List.range (input.dimWord 0 * input.dimWord 1).toNat).map fun (i : Nat) =>
    input.elem (origin + i)

/-- `concat_array(num_inputs, …, f_offset)` over the `num_inputs` arrays it is given. -/
def concatArray (env : KernelEnv α) (inputs : List (ArrayType α))
    (offset : Option (ArrayType Int)) : Called α :=
  match inputs with
  | [] => (.ok (ArrayType.matrix 0 0 [] env.junk), [])
  | first :: rest =>
    let (first', origin) := selectFirst first offset
    let total_channel := ((first' :: rest).map (ArrayType.dimWord · 0)).sum
    let res_size := total_channel * first'.dimWord 1
    (.ok (ArrayType.matrix total_channel (first'.dimWord 1)
        (writeAt (List.replicate res_size.toNat 0) 0
          (contribution first' origin ++ rest.flatMap (contribution · 0))) env.junk),
      first' :: rest)

end Kernels

end Peps
