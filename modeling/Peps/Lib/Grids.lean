import Mathlib.Algebra.BigOperators.Intervals
import Mathlib.Algebra.Field.Defs
import Mathlib.Data.Nat.Sqrt

/-!
# Two-dimensional arrays

An array of rows and columns that is zero outside, so that two arrays with the same cells are equal
(`Grid.ext`). The operations are those of layered networks: cellwise ones, products, and the windows
of an image whose channels are the rows of the array (`patches`, `average`).
-/

namespace Peps.Lib

structure Grid (R : Type) [Zero R] where
  rows : Nat
  cols : Nat
  cell : Nat → Nat → R
  outside : ∀ i j, ¬ (i < rows ∧ j < cols) → cell i j = 0

namespace Grid

section Basic

variable {R : Type} [Zero R]

/-- The cells of a function. -/
def of (rows cols : Nat) (f : Nat → Nat → R) : Grid R where
  rows := rows
  cols := cols
  cell := fun i j => if i < rows ∧ j < cols then f i j else 0
  outside := fun _ _ h => if_neg h

instance : Inhabited (Grid R) := ⟨of 0 0 fun _ _ => 0⟩

@[simp]
theorem rows_of (rows cols : Nat) (f : Nat → Nat → R) : (of rows cols f).rows = rows := rfl

@[simp]
theorem cols_of (rows cols : Nat) (f : Nat → Nat → R) : (of rows cols f).cols = cols := rfl

theorem cell_of {rows cols i j : Nat} (f : Nat → Nat → R) (hi : i < rows) (hj : j < cols) :
    (of rows cols f).cell i j = f i j := if_pos ⟨hi, hj⟩

/-- Arrays of one size are equal if their cells are. -/
theorem ext {x y : Grid R} (hrows : x.rows = y.rows) (hcols : x.cols = y.cols)
    (hcell : ∀ i < x.rows, ∀ j < x.cols, x.cell i j = y.cell i j) : x = y := by
  have hsame : x.cell = y.cell := by
    funext i j
    by_cases h : i < x.rows ∧ j < x.cols
    · exact hcell i h.1 j h.2
    · rw [x.outside i j h, y.outside i j (by rwa [← hrows, ← hcols])]
  cases x
  cases y
  simp_all

theorem of_congr {rows cols : Nat} {f f' : Nat → Nat → R}
    (h : ∀ i < rows, ∀ j < cols, f i j = f' i j) : of rows cols f = of rows cols f' := by
  refine ext rfl rfl fun i hi j hj => ?_
  calc (of rows cols f).cell i j = f i j := cell_of f hi hj
    _ = f' i j := h i hi j hj
    _ = (of rows cols f').cell i j := (cell_of f' hi hj).symm

def map (f : R → R) (x : Grid R) : Grid R := of x.rows x.cols fun i j => f (x.cell i j)

theorem map_id (x : Grid R) : x.map id = x :=
  ext rfl rfl fun _ hi _ hj => cell_of _ hi hj

theorem map_map (f f' : R → R) (x : Grid R) : (x.map f).map f' = x.map (f' ∘ f) :=
  of_congr fun _ hi _ hj => congrArg f' (cell_of _ hi hj)

/-- One row of all the cells. -/
def flatten (x : Grid R) : Grid R :=
  of 1 (x.rows * x.cols) fun _ n => x.cell (n / x.cols) (n % x.cols)

/-- The cells in the same order, in other rows and columns. -/
def reshape (rows cols : Nat) (x : Grid R) : Grid R :=
  of rows cols fun i j => x.cell ((i * cols + j) / x.cols) ((i * cols + j) % x.cols)

theorem reshape_row (x : Grid R) : reshape 1 (x.rows * x.cols) x = x.flatten := by
  refine of_congr fun i hi j _ => ?_
  rw [Nat.lt_one_iff.mp hi, Nat.zero_mul, Nat.zero_add]

def transpose (x : Grid R) : Grid R := of x.cols x.rows fun i j => x.cell j i

/-- The side of the square that a row is taken for. -/
def side (x : Grid R) : Int := Nat.sqrt x.cols

end Basic

/-! ## Sums and products -/

section Sums

variable {R : Type} [CommSemiring R]

def sum (x y : Grid R) : Grid R := of x.rows x.cols fun i j => x.cell i j + y.cell i j

/-- The sum where a single row or column stands for as many as the other array has. -/
def broadcastSum (x y : Grid R) : Grid R :=
  let read (z : Grid R) (i j : Nat) : R :=
    z.cell (if z.rows = 1 then 0 else i) (if z.cols = 1 then 0 else j)
  of (max x.rows y.rows) (max x.cols y.cols) fun i j => read x i j + read y i j

/-- The cell that stands for `(i, j)` where a single row or column is repeated. -/
def spread (x : Grid R) (i j : Nat) : R :=
  x.cell (if x.rows = 1 then 0 else i) (if x.cols = 1 then 0 else j)

theorem spread_of_lt {x : Grid R} {i j : Nat} (hi : i < x.rows) (hj : j < x.cols) :
    x.spread i j = x.cell i j := by
  have hrow : (if x.rows = 1 then 0 else i) = i := by
    split <;> omega
  have hcol : (if x.cols = 1 then 0 else j) = j := by
    split <;> omega
  rw [spread, hrow, hcol]

theorem cell_broadcastSum (x y : Grid R) {i j : Nat} (hi : i < max x.rows y.rows)
    (hj : j < max x.cols y.cols) : (broadcastSum x y).cell i j = x.spread i j + y.spread i j :=
  cell_of _ hi hj

theorem broadcastSum_eq {x y : Grid R} (hrows : x.rows = y.rows) (hcols : x.cols = y.cols) :
    broadcastSum x y = sum x y := by
  unfold broadcastSum sum
  rw [← hrows, ← hcols, max_self, max_self]
  refine of_congr fun i hi j hj => ?_
  -- a single row has only row 0
  have hrow : (if x.rows = 1 then 0 else i) = i := by
    split <;> omega
  have hcol : (if x.cols = 1 then 0 else j) = j := by
    split <;> omega
  simp only [← hrows, ← hcols, hrow, hcol]

def product (x y : Grid R) : Grid R :=
  of x.rows y.cols fun i j => ∑ k ∈ Finset.range y.rows, x.cell i k * y.cell k j

/-- The product of `x` and the transpose of `y`. -/
def productTransposed (x y : Grid R) : Grid R :=
  of x.rows y.rows fun i j => ∑ k ∈ Finset.range x.cols, x.cell i k * y.cell j k

/-- A matrix and a vector, which is an array of one row. -/
def matrixVector (w x : Grid R) : Grid R :=
  of 1 w.rows fun _ i => ∑ k ∈ Finset.range w.cols, w.cell i k * x.cell 0 k

theorem product_transpose (w : Grid R) {x : Grid R} (hx : x.rows = 1) :
    product x w.transpose = matrixVector w x := by
  unfold product matrixVector
  rw [hx]
  refine of_congr fun i hi j hj => Finset.sum_congr rfl fun k hk => ?_
  have hcell : w.transpose.cell k j = w.cell j k := cell_of _ (Finset.mem_range.mp hk) hj
  rw [Nat.lt_one_iff.mp hi, hcell, mul_comm]

end Sums

/-! ## Windows -/

/-- Windows over an image with padding. -/
structure Window where
  height : Int
  width : Int
  kernelH : Int
  kernelW : Int
  padH : Int
  padW : Int
  strideH : Int
  strideW : Int
deriving DecidableEq

namespace Window

def square (side kernel pad stride : Int) : Window :=
  ⟨side, side, kernel, kernel, pad, pad, stride, stride⟩

def outH (v : Window) : Int := (v.height + 2 * v.padH - v.kernelH) / v.strideH + 1
def outW (v : Window) : Int := (v.width + 2 * v.padW - v.kernelW) / v.strideW + 1

end Window

section Patches

variable {R : Type} [Zero R]

/-- What cell `(ky, kx)` of window `r` sees in channel `c`; the padding is zero. -/
def seen (v : Window) (x : Grid R) (c : Nat) (r ky kx : Int) : R :=
  let row := r / v.outW * v.strideH + ky - v.padH
  let col := r % v.outW * v.strideW + kx - v.padW
  if 0 ≤ row ∧ row < v.height ∧ 0 ≤ col ∧ col < v.width then x.cell c (row * v.width + col).toNat
  else 0

/-- One row for each window, with the cells it sees channel by channel. -/
def patches (v : Window) (x : Grid R) : Grid R :=
  of (v.outH * v.outW).toNat (x.rows * (v.kernelH * v.kernelW).toNat) fun r q =>
    seen v x (q / (v.kernelH * v.kernelW).toNat) r (q / v.kernelW % v.kernelH) (q % v.kernelW)

end Patches

/-- The mean of each window, channel by channel. -/
def average {R : Type} [Field R] (v : Window) (x : Grid R) : Grid R :=
  of x.rows (v.outH * v.outW).toNat fun c r =>
    (∑ ky ∈ Finset.range v.kernelH.toNat, ∑ kx ∈ Finset.range v.kernelW.toNat, seen v x c r ky kx) /
      ((v.kernelH * v.kernelW : Int) : R)

end Grid

end Peps.Lib
