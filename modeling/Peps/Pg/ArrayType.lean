import Mathlib.Data.List.Basic
import Mathlib.Algebra.Order.BigOperators.GroupWithZero.List
import Mathlib.Algebra.Order.Ring.Nat
import Peps.Lib.Outcome

/-!
# PostgreSQL arrays, as the extension's C code sees them

An `ArrayType` value is one block of memory: the dimension words, the lower bounds and, from
`ARR_DATA_PTR` on, the elements that are not NULL, packed. The kernels of the extension index
that block without looking at `ndim` or at the null bitmap, so the model keeps the parts they
can reach: a dimension word past the last dimension is a lower bound, and an element before or past
the packed data is whatever the memory there holds (`outside`).
-/

namespace Peps

open Lib

abbrev Bytes := List UInt8

/-- The bytes of an ASCII literal. -/
def ascii (s : String) : Bytes := s.toList.map fun c => UInt8.ofNat c.toNat

/-- How a call can end without returning: an `elog`/`ereport` at level `ERROR`, with its
format and what is printed into it, the signal an integer division by zero raises, or a loop
that never reaches its bound. -/
inductive PgError where
  | report (format : String) (names : List Bytes) (numbers : List Int)
  | divisionByZero
  | runaway
deriving DecidableEq

def MAXDIM : Nat := 6
def FLOAT4OID : Nat := 700
def FLOAT4ARRAYOID : Nat := 1021

structure ArrayType (α : Type) where
  dims : List Int
  lbs : List Int
  data : List α
  outside : Int → α
  hndim : dims.length ≤ MAXDIM
  hlbs : lbs.length = dims.length

namespace ArrayType

variable {α : Type}

/-- `ARR_NDIM`. -/
def ndim (a : ArrayType α) : Nat := a.dims.length

/-- `ARR_DIMS(a)[i]`: the lower bounds follow the dimensions. -/
def dimWord (a : ArrayType α) (i : Nat) : Int := (a.dims ++ a.lbs).getD i 0

/-- `((float4 *) ARR_DATA_PTR(a))[i]`. -/
def elem (a : ArrayType α) (i : Int) : α :=
  if 0 ≤ i then a.data.getD i.toNat (a.outside i) else a.outside i

/-- The first `n` elements from `ARR_DATA_PTR` on. -/
def read (a : ArrayType α) (n : Nat) : List α := (List.range n).map fun (i : Nat) => a.elem i

/-- `ARR_DIMS(a)[0] = v`. -/
def setDim0 (a : ArrayType α) (v : Int) : ArrayType α :=
  { a with dims := a.dims.set 0 v
           hndim := by rw [List.length_set]; exact a.hndim
           hlbs := by rw [List.length_set]; exact a.hlbs }

/-- The array with other elements in the place of its own. -/
def withData (a : ArrayType α) (data : List α) : ArrayType α := { a with data }

/-- `float4construct_md_array(data, size, 2, {rows, cols}, {1, 1}, …)`. -/
def matrix (rows cols : Int) (data : List α) (outside : Int → α) : ArrayType α where
  dims := [rows, cols]
  lbs := [1, 1]
  data := data
  outside := outside
  hndim := by simp [MAXDIM]
  hlbs := rfl

theorem elem_of_lt (a : ArrayType α) {i : Nat} (h : i < a.data.length) :
    a.elem (i : Nat) = a.data[i] := by
  simp [elem, h]

/-- Reading as many elements as are stored gives the stored ones. -/
theorem read_length (a : ArrayType α) : a.read a.data.length = a.data := by
  refine List.ext_getElem (by simp [read]) fun i h₁ h₂ => ?_
  simp only [read, List.getElem_map, List.getElem_range]
  exact a.elem_of_lt h₂

@[simp] theorem length_read (a : ArrayType α) (n : Nat) : (a.read n).length = n := by
  simp [read]

end ArrayType

/-! ## `ArrayGetNItems` -/

def MaxAllocSize : Nat := 0x3fffffff
def MaxArraySize : Nat := MaxAllocSize / 8

def arraySizeError : PgError :=
  .report "array size exceeds the maximum allowed (%d)" [] [MaxArraySize]

/-- One round of the loop of `ArrayGetNItems`: a negative dimension, or a product that
leaves `int32`, is refused. -/
def nitemsRound (ret : Nat) (d : Int) : Except PgError Nat :=
  if d < 0 then .error arraySizeError
  else if 2 ^ 31 ≤ ret * d.toNat then .error arraySizeError
  else .ok (ret * d.toNat)

/-- `ArrayGetNItems(ndim, dims)`. -/
def arrayGetNItems (dims : List Int) : Except PgError Nat :=
  if dims = [] then .ok 0
  else do
    let ret ← dims.foldlM nitemsRound 1
    if MaxArraySize < ret then .error arraySizeError else .ok ret

/-- The number of elements a shape has. -/
def nitems (dims : List Int) : Nat := if dims = [] then 0 else (dims.map Int.toNat).prod

theorem nitems_three (a b c : Nat) : nitems [(a : Int), (b : Int), (c : Int)] = a * (b * c) := by
  show [a, b, c].prod = _
  rw [List.prod_cons, List.prod_cons, List.prod_singleton]

theorem nitemsRound_fold {dims : List Int} {acc n : Nat}
    (h : dims.foldlM nitemsRound acc = .ok n) : n = acc * (dims.map Int.toNat).prod := by
  induction dims generalizing acc with
  | nil =>
    cases h
    simp
  | cons d dims ih =>
    rw [List.foldlM_cons, bind_ok_iff] at h
    obtain ⟨mid, hround, hrest⟩ := h
    simp only [nitemsRound, guard_ok_iff, Except.ok.injEq] at hround
    rw [ih hrest, ← hround.2.2, List.map_cons, List.prod_cons, Nat.mul_assoc]

/-- **When `ArrayGetNItems` returns, it returns the number of elements.** -/
theorem nitems_of_arrayGetNItems {dims : List Int} {n : Nat}
    (h : arrayGetNItems dims = .ok n) : n = nitems dims := by
  unfold arrayGetNItems at h
  unfold nitems
  split at h
  · next hnil =>
    cases h
    rw [if_pos hnil]
  · next hne =>
    simp only [bind_ok_iff, guard_ok_iff, Except.ok.injEq] at h
    obtain ⟨ret, hfold, -, rfl⟩ := h
    rw [if_neg hne, nitemsRound_fold hfold, Nat.one_mul]

/-- A shape of positive dimensions within the limit is accepted: no partial product passes the
whole. -/
theorem arrayGetNItems_of_le (ds : List Nat) (hne : ds ≠ []) (hpos : ∀ d ∈ ds, 0 < d)
    (hle : ds.prod ≤ MaxArraySize) : arrayGetNItems (ds.map Int.ofNat) = .ok ds.prod := by
  have hfold : ∀ (ds : List Nat) (acc : Nat), (∀ d ∈ ds, 0 < d) → 0 < acc →
      acc * ds.prod ≤ MaxArraySize →
      (ds.map Int.ofNat).foldlM nitemsRound acc = .ok (acc * ds.prod) := by
    intro ds
    induction ds with
    | nil => intro acc _ _ _; simp [pure, Except.pure]
    | cons d ds ih =>
      intro acc hpos hacc hle
      have hd : 0 < d := hpos d (List.mem_cons_self ..)
      have hrest : 0 < ds.prod := List.prod_pos fun e he => hpos e (List.mem_cons_of_mem _ he)
      rw [List.prod_cons, ← Nat.mul_assoc] at hle
      have hpart : acc * d ≤ MaxArraySize :=
        Nat.le_trans (Nat.le_mul_of_pos_right _ hrest) hle
      have hround : nitemsRound acc (Int.ofNat d) = .ok (acc * d) := by
        have hmax : MaxArraySize < 2 ^ 31 := by decide
        have hneg : ¬ Int.ofNat d < 0 := Int.not_lt.mpr (Int.natCast_nonneg d)
        have htoNat : (Int.ofNat d).toNat = d := rfl
        rw [nitemsRound, if_neg hneg, htoNat, if_neg (by omega)]
      rw [List.map_cons, List.foldlM_cons, hround, List.prod_cons, ← Nat.mul_assoc]
      exact ih (acc * d) (fun e he => hpos e (List.mem_cons_of_mem _ he))
        (Nat.mul_pos hacc hd) hle
  rw [arrayGetNItems, if_neg (by simpa using hne), hfold ds 1 hpos Nat.one_pos (by simpa using hle)]
  simp only [Nat.one_mul]
  show (if MaxArraySize < ds.prod then _ else _) = _
  rw [if_neg (by omega)]

theorem le_of_arrayGetNItems {dims : List Int} {n : Nat} (h : arrayGetNItems dims = .ok n) :
    n ≤ MaxArraySize := by
  unfold arrayGetNItems at h
  split at h
  · cases h
    exact Nat.zero_le _
  · simp only [bind_ok_iff, guard_ok_iff, Except.ok.injEq] at h
    obtain ⟨ret, -, hle, rfl⟩ := h
    omega

/-! ## Matrices -/

/-- A matrix as PostgreSQL holds it, without NULLs. -/
structure ArrayType.IsMatrix {α : Type} (a : ArrayType α) (rows cols : Nat) : Prop where
  dims : a.dims = [(rows : Int), (cols : Int)]
  full : a.data.length = rows * cols
  rows_pos : 0 < rows
  cols_pos : 0 < cols
  size : rows * cols ≤ MaxArraySize

section Matrices

variable {α : Type} {a : ArrayType α} {rows cols : Nat}

theorem ArrayType.IsMatrix.rows_eq (h : a.IsMatrix rows cols) : a.dimWord 0 = rows := by
  rw [ArrayType.dimWord, h.dims]
  rfl

theorem ArrayType.IsMatrix.cols_eq (h : a.IsMatrix rows cols) : a.dimWord 1 = cols := by
  rw [ArrayType.dimWord, h.dims]
  rfl

end Matrices

end Peps
