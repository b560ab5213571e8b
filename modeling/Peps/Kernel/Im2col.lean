import Mathlib.Data.Nat.Sqrt
import Peps.Lib.Loops
import Peps.Pg.ArrayType

/-!
# `conv.c` — the im2col loops

`im2col_core` and its one-axis variants copy the window of every output position into one row
of the matrix the product is taken with. Each is a nest of loops: the two outer ones walk the
window positions and are run in parallel, each round writing the cells of its own row from a
start it computes (`tiledLoop`); the inner ones list the window's cells, channel by channel.

C `int`s are unbounded here, as sizes that do not fit them cannot be allocated. `/` on them
truncates (`Int.tdiv`).
-/

namespace Peps

open Lib

/-- `width = height = sqrt(nelems_channel)`. -/
def side (nelems_channel : Int) : Int := (Nat.sqrt nelems_channel.toNat : Nat)

/-- `(extent + 2 * padding - kernel) / stride + 1`. -/
def outExtent (extent padding kernel stride : Int) : Int :=
  (extent + 2 * padding - kernel).tdiv stride + 1

section Windows

variable {α : Type}

/-- The two outer loops: at each position the window's cells are stored from its row start
on. With a negative stride the first loop never ends. -/
def tiledLoop (r0 r1 c0 c1 stride : Int) (head : Int → Int → Nat) (window : Int → Int → List α)
    (buf : List α) : Except PgError (List α) :=
  if stride < 0 ∧ r0 < r1 then .error .runaway
  else .ok (fillTiles (fun p : Int × Int => head p.1 p.2) (fun p => window p.1 p.2) buf
    ((steps r0 r1 stride).flatMap fun rn => (steps c0 c1 stride).map fun cn => (rn, cn)))

/-- The window at `(rn, cn)` without a look at the borders. -/
def plainWindow (input_f : Int → α) (num_channel nelems_channel width kernel rn cn : Int) :
    List α :=
  (List.range num_channel.toNat).flatMap fun (c : Nat) =>
    (List.range kernel.toNat).flatMap fun (ky : Nat) =>
      (List.range kernel.toNat).map fun (kx : Nat) =>
        input_f (rn * width + cn + nelems_channel * c + width * ky + kx)

variable [Zero α]

/-- The window at `(rn, cn)`, with zeros for the cells beyond the borders. -/
def paddedWindow (input_f : Int → α) (num_channel nelems_channel width height kernel rn cn : Int) :
    List α :=
  (List.range num_channel.toNat).flatMap fun (c : Nat) =>
    (List.range kernel.toNat).flatMap fun (ky : Nat) =>
      (List.range kernel.toNat).map fun (kx : Nat) =>
        if ky + rn < 0 ∨ height ≤ ky + rn ∨ kx + cn < 0 ∨ width ≤ kx + cn then 0
        else input_f (rn * width + cn + nelems_channel * c + width * ky + kx)

/-- The window row of a `1 × kernel_W` kernel. -/
def rowWindow (input_f : Int → α) (num_channel nelems_channel width kernel_W rn cn : Int) :
    List α :=
  (List.range num_channel.toNat).flatMap fun (c : Nat) =>
    (List.range kernel_W.toNat).map fun (kx : Nat) =>
      if kx + cn < 0 ∨ width ≤ kx + cn then 0
      else input_f (rn * width + cn + nelems_channel * c + kx)

/-- The window column of a `kernel_H × 1` kernel. -/
def columnWindow (input_f : Int → α) (num_channel nelems_channel width height kernel_H rn cn : Int) :
    List α :=
  (List.range num_channel.toNat).flatMap fun (c : Nat) =>
    (List.range kernel_H.toNat).map fun (ky : Nat) =>
      if ky + rn < 0 ∨ height ≤ ky + rn then 0
      else input_f (rn * width + cn + nelems_channel * c + width * ky)

/-- `im2col_core(input_f, input_f_shape, f_matrix, kernel_size, padding, stride)`: `input_f`
is the caller's data from `origin` on, `input_f_shape` its dimension words, and `f_matrix`
the buffer from `base` on. -/
def im2colCore (input : ArrayType α) (origin : Int) (kernel_size padding stride : Int)
    (base : Nat) (f_matrix : List α) : Except PgError (List α) :=
  let num_channel := input.dimWord 0
  let nelems_channel := input.dimWord 1
  let width := side nelems_channel
  let height := side nelems_channel
  let out_width := outExtent width padding kernel_size stride
  let input_f := fun i => input.elem (origin + i)
  let head := fun rn cn => base + (((rn + padding).tdiv stride * out_width
    + (cn + padding).tdiv stride) * num_channel * kernel_size * kernel_size).toNat
  if padding ≠ 0 then
    tiledLoop (-padding) (height + padding - kernel_size + 1) (-padding)
      (width + padding - kernel_size + 1) stride head
      (paddedWindow input_f num_channel nelems_channel width height kernel_size) f_matrix
  else
    tiledLoop 0 (height - kernel_size + 1) 0 (width - kernel_size + 1) stride head
      (plainWindow input_f num_channel nelems_channel width kernel_size) f_matrix

/-- `im2col_core_W`. -/
def im2colCoreW (input : ArrayType α) (origin : Int) (kernel_W padding_W stride : Int)
    (f_matrix : List α) : Except PgError (List α) :=
  let num_channel := input.dimWord 0
  let nelems_channel := input.dimWord 1
  let width := side nelems_channel
  let height := side nelems_channel
  let out_width := outExtent width padding_W kernel_W stride
  tiledLoop 0 height (-padding_W) (width + padding_W - kernel_W + 1) stride
    (fun rn cn => ((rn.tdiv stride * out_width + (cn + padding_W).tdiv stride)
      * num_channel * kernel_W).toNat)
    (rowWindow (fun i => input.elem (origin + i)) num_channel nelems_channel width kernel_W)
    f_matrix

/-- `im2col_core_H`; the row start is scaled with `out_height`. -/
def im2colCoreH (input : ArrayType α) (origin : Int) (kernel_H padding_H stride : Int)
    (f_matrix : List α) : Except PgError (List α) :=
  let num_channel := input.dimWord 0
  let nelems_channel := input.dimWord 1
  let width := side nelems_channel
  let height := side nelems_channel
  let out_height := outExtent height padding_H kernel_H stride
  tiledLoop (-padding_H) (height + padding_H - kernel_H + 1) 0 width stride
    (fun rn cn => (((rn + padding_H).tdiv stride * out_height + cn.tdiv stride)
      * num_channel * kernel_H).toNat)
    (columnWindow (fun i => input.elem (origin + i)) num_channel nelems_channel width height
      kernel_H)
    f_matrix

end Windows

end Peps
