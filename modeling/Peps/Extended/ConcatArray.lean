import Mathlib.Algebra.BigOperators.Group.Finset.Basic
import Mathlib.Algebra.BigOperators.Ring.Finset
import Mathlib.Algebra.Group.Action.Defs
import Mathlib.Algebra.Order.BigOperators.Group.Finset
import Peps.Extended.SplitArray

/-!
# `concat_array`

`concat_array` puts up to six matrices under each other, the first possibly cut to a range of its
rows. It checks nothing: not that an input is there, not that the column counts agree, not the
offset. The result is as large as the rows of all inputs take with the columns of the *first*, while
each input is copied with its own size. And the number of rows of the cut first input is written into
that array itself, where another argument that is the same array finds it.

`concatArray` has the ways in which such a call can go wrong as outcomes. `concatArray_meets_iff` says
for which calls it raises or returns what it should.
-/

namespace Peps

open Lib

/-! ## The function -/

section Definitions

variable {α : Type}

/-- The arguments. The inputs are addresses, since two of them can be one array; behind the sixth the
function reads whatever stands there. -/
structure ConcatCall (α : Type) where
  num : Int
  heap : Nat → ArrayType α
  inputs : Nat → Option Nat
  offset : Option (ArrayType Int)
  /-- `nelems_channel[0]` before it is set. -/
  unset : Int
  hinputs : ∀ i < 6, ∀ r, inputs i = some r → ∃ rows cols, (heap r).IsMatrix rows cols

/-- What the first loop notes of an input. -/
structure Piece (α : Type) where
  cell : Int → α
  channels : Int
  nelems : Int

/-- The cells that the second loop copies of it. -/
def Piece.copy (p : Piece α) : List α :=
  (List.range (p.channels * p.nelems).toNat).map fun (k : Nat) => p.cell k

/-- How a call ends. -/
inductive ConcatOutcome (α : Type) where
  /-- An SQL error. -/
  | raises (e : PgError)
  /-- A read or a copy that no memory stands behind: a NULL input, a negative size. -/
  | crashes
  /-- Cells are written behind the result. -/
  | overruns
  | returns (dims : List Int) (cells : List α) (copied : Nat)

namespace ConcatCall

variable (c : ConcatCall α)

/-- The array of input `i`. -/
def matrix (i : Nat) : ArrayType α := c.heap ((c.inputs i).getD 0)

/-- One round of the first loop. -/
def piece (i : Nat) : Piece α :=
  let matrix := c.matrix i
  match c.offset with
  | none => ⟨fun k => matrix.elem k, matrix.dimWord 0, matrix.dimWord 1⟩
  | some offset_array =>
    let start_index := i32 (offset_array.elem 0 - 1)
    let end_index := offset_array.elem 1
    let rows := i32 (end_index - start_index)
    if i = 0 then
      ⟨fun k => matrix.elem (i32 (start_index * matrix.dimWord 1) + k), rows, matrix.dimWord 1⟩
    -- the array of the first input has its new number of rows by now
    else if c.inputs i = c.inputs 0 then ⟨fun k => matrix.elem k, rows, matrix.dimWord 1⟩
    else ⟨fun k => matrix.elem k, matrix.dimWord 0, matrix.dimWord 1⟩

def pieces : List (Piece α) := (List.range c.num.toNat).map c.piece

/-- `total_channel`. -/
def total : Int := c.pieces.foldl (fun t p => i32 (t + p.channels)) 0

/-- `nelems_channel[0]`. -/
def columns : Int := (c.pieces.head?).elim c.unset Piece.nelems

/-- The size `float4construct_md_array_ncpy` asks `palloc0` for, as `maxpoolSizes` has it. -/
def request : Int := i32 (4 * i32 (c.total * c.columns)) + 32

/-- No NULL among the first `num` inputs. -/
def Present : Prop := 0 ≤ c.num ∧ ∀ i < c.num.toNat, c.inputs i ≠ none

instance : Decidable c.Present := by
  unfold Present
  infer_instance

/-- `concat_array`. A stack array of negative length counts as a crash. -/
def concatArray [Zero α] : ConcatOutcome α :=
  if ¬ c.Present then .crashes
  else
    match palloc c.request with
    | .error e => .raises e
    | .ok () =>
      if c.pieces.any (fun p => decide (p.channels * p.nelems < 0)) then .crashes
      else
        let res_size := i32 (c.total * c.columns)
        let copied := c.pieces.flatMap Piece.copy
        if res_size < copied.length then .overruns
        else .returns [c.total, c.columns]
          (copied ++ List.replicate (res_size - copied.length).toNat 0) copied.length

/-! ## What it should do -/

/-- The rows input `i` is to contribute: the first, and how many. -/
def wantedRows (i : Nat) : Int × Int :=
  match c.offset with
  | none => (0, (c.matrix i).dimWord 0)
  | some offset_array =>
    if i = 0 then (offset_array.elem 0 - 1, offset_array.elem 1 - (offset_array.elem 0 - 1))
    else (0, (c.matrix i).dimWord 0)

/-- The offset is a range of rows of the first input. -/
def ValidOffset : Prop := ∀ offset_array, c.offset = some offset_array →
  offset_array.dims = [2] ∧ offset_array.data.length = 2 ∧ 1 ≤ offset_array.elem 0 ∧
    offset_array.elem 0 ≤ offset_array.elem 1 ∧ offset_array.elem 1 ≤ (c.matrix 0).dimWord 0

/-- The calls that should not raise: one to six matrices of the same number of columns. -/
structure Acceptable : Prop where
  atLeast : 1 ≤ c.num
  atMost : c.num ≤ 6
  present : c.Present
  columns : ∀ i < c.num.toNat, (c.matrix i).dimWord 1 = (c.matrix 0).dimWord 1
  offset : c.ValidOffset

def wantedCells (i : Nat) : List α :=
  let cols := (c.matrix i).dimWord 1
  ((c.matrix i).data.drop ((c.wantedRows i).1 * cols).toNat).take ((c.wantedRows i).2 * cols).toNat

/-- The rows under each other, and every cell copied once. -/
def wanted : ConcatOutcome α :=
  let rows := ∑ i ∈ Finset.range c.num.toNat, (c.wantedRows i).2
  .returns [rows, (c.matrix 0).dimWord 1] ((List.range c.num.toNat).flatMap c.wantedCells)
    (rows * (c.matrix 0).dimWord 1).toNat

/-- The call raises, or returns the concatenation where there is one. -/
def Meets (outcome : ConcatOutcome α) : Prop :=
  (∃ e, outcome = .raises e) ∨ c.Acceptable ∧ outcome = c.wanted

/-! ## When it does -/

/-- The rows of input `i`, where the offset gives those of the array of the first input. -/
def rowsTaken (i : Nat) : Int :=
  match c.offset with
  | none => (c.matrix i).dimWord 0
  | some offset_array =>
    if c.inputs i = c.inputs 0 then offset_array.elem 1 - (offset_array.elem 0 - 1)
    else (c.matrix i).dimWord 0

/-- The bytes of so many rows of the width of the first input, counted by an `int`, and the header. -/
def bytes : Int :=
  i32 (4 * ((∑ i ∈ Finset.range c.num.toNat, c.rowsTaken i) * (c.matrix 0).dimWord 1)) + 32

/-- The inputs are there, and that is no size that can be allocated. -/
def Refused : Prop := c.Present ∧ (c.bytes < 0 ∨ MaxAllocSize < c.bytes)

/-- No other input is the array that the offset cuts. -/
def Unshared : Prop := ∀ offset_array, c.offset = some offset_array → ∀ i < c.num.toNat, i ≠ 0 →
  c.inputs i = c.inputs 0 → offset_array.elem 1 - (offset_array.elem 0 - 1) = (c.matrix 0).dimWord 0

end ConcatCall

end Definitions

/-! ## The pieces of an acceptable call -/

namespace ConcatCall

variable {α : Type} {c : ConcatCall α} {i : Nat}

theorem matrix_of_present (hpresent : c.Present) (hsix : c.num ≤ 6) (hi : i < c.num.toNat) :
    ∃ rows cols, (c.matrix i).IsMatrix rows cols := by
  obtain ⟨r, hr⟩ := Option.ne_none_iff_exists'.mp (hpresent.2 i hi)
  rw [matrix, hr]
  exact c.hinputs i (by omega) r hr

/-- Input `i` has `rows` rows and `cols` columns, and is to contribute `count` of them from `start`
on. -/
structure Shape (c : ConcatCall α) (i rows cols start count : Nat) : Prop where
  matrix : (c.matrix i).IsMatrix rows cols
  columns : (c.matrix 0).dimWord 1 = cols
  wanted : c.wantedRows i = ((start : Int), (count : Int))
  count_pos : 0 < count
  within : start + count ≤ rows

theorem Acceptable.shape (h : c.Acceptable) (hi : i < c.num.toNat) :
    ∃ rows cols start count, c.Shape i rows cols start count := by
  obtain ⟨rows, cols, hmatrix⟩ := matrix_of_present h.present h.atMost hi
  have hcols : (c.matrix 0).dimWord 1 = cols := (h.columns i hi).symm.trans hmatrix.cols_eq
  have hrows := hmatrix.rows_eq
  have hwhole : (0, (c.matrix i).dimWord 0) = (((0 : Nat) : Int), (rows : Int)) := by rw [hrows]; rfl
  cases hoffset : c.offset with
  | none =>
    refine ⟨rows, cols, 0, rows, hmatrix, hcols, ?_, hmatrix.rows_pos, by omega⟩
    rw [wantedRows, hoffset, ← hwhole]
  | some offset_array =>
    obtain ⟨-, -, hlow, hle, hhigh⟩ := h.offset offset_array hoffset
    by_cases hzero : i = 0
    · subst hzero
      refine ⟨rows, cols, (offset_array.elem 0 - 1).toNat,
        (offset_array.elem 1 - (offset_array.elem 0 - 1)).toNat, hmatrix, hcols, ?_, by omega, by omega⟩
      rw [wantedRows, hoffset]
      simp only [if_true]
      rw [Int.toNat_of_nonneg (by omega), Int.toNat_of_nonneg (by omega)]
    · refine ⟨rows, cols, 0, rows, hmatrix, hcols, ?_, hmatrix.rows_pos, by omega⟩
      rw [wantedRows, hoffset]
      simp only [if_neg hzero]
      exact hwhole

variable {rows cols start count : Nat}

/-- The cells of the input up to the end of its range are elements of the array. -/
theorem Shape.room (h : c.Shape i rows cols start count) :
    start * cols + count * cols ≤ (c.matrix i).data.length ∧
      start * cols + count * cols ≤ MaxArraySize := by
  have hle : (start + count) * cols ≤ rows * cols := Nat.mul_le_mul_right _ h.within
  have hsize := h.matrix.size
  rw [h.matrix.full, ← Nat.add_mul]
  exact ⟨hle, hle.trans hsize⟩

theorem Shape.wantedCells_eq (h : c.Shape i rows cols start count) :
    c.wantedCells i = ((c.matrix i).data.drop (start * cols)).take (count * cols) := by
  have hcols := h.matrix.cols_eq
  simp only [wantedCells, h.wanted, hcols, ← Int.natCast_mul, Int.toNat_natCast]

/-- A piece of these rows is copied as it should be. -/
theorem Shape.copy_eq (h : c.Shape i rows cols start count) {p : Piece α} (hchannels : p.channels = count)
    (hnelems : p.nelems = cols)
    (hcell : ∀ k : Nat, p.cell k = (c.matrix i).elem (((start * cols : Nat) : Int) + k)) :
    p.copy = c.wantedCells i := by
  rw [h.wantedCells_eq, ← map_elem_eq (c.matrix i) h.room.1, Piece.copy, hchannels, hnelems,
    ← Int.natCast_mul, Int.toNat_natCast]
  exact List.map_congr_left fun k _ => hcell k

/-- The rows that were noted: those wanted, unless the array was cut through another input. -/
def Cut (c : ConcatCall α) (i : Nat) : Prop := c.offset ≠ none ∧ i ≠ 0 ∧ c.inputs i = c.inputs 0

/-- **The pieces** of an acceptable call. -/
theorem Acceptable.piece_eq (h : c.Acceptable) (hi : i < c.num.toNat)
    (hshape : c.Shape i rows cols start count) :
    (c.piece i).nelems = cols ∧ (¬ c.Cut i → (c.piece i).channels = count ∧
      (c.piece i).copy = c.wantedCells i) := by
  have hmax : MaxArraySize = 2 ^ 27 - 1 := by decide
  have hroom := hshape.room.2
  have hwanted := hshape.wanted
  have hcols := hshape.matrix.cols_eq
  -- a piece of the whole array
  have hplain : c.wantedRows i = (0, (c.matrix i).dimWord 0) →
      c.piece i = ⟨fun k => (c.matrix i).elem k, (c.matrix i).dimWord 0, (c.matrix i).dimWord 1⟩ →
      (c.piece i).nelems = cols ∧ (c.piece i).channels = count ∧
        (c.piece i).copy = c.wantedCells i := by
    intro hrows hpiece
    rw [hwanted, Prod.mk.injEq] at hrows
    rw [hpiece]
    refine ⟨hcols, hrows.2.symm, hshape.copy_eq hrows.2.symm hcols fun k => ?_⟩
    have hzero : start = 0 := by omega
    rw [hzero, Nat.zero_mul]
    simp
  cases hoffset : c.offset with
  | none =>
    obtain ⟨hn, hrest⟩ := hplain (by rw [wantedRows, hoffset]) (by rw [piece, hoffset])
    exact ⟨hn, fun _ => hrest⟩
  | some offset_array =>
    by_cases hzero : i = 0
    · subst hzero
      obtain ⟨-, -, hlow, hle, hhigh⟩ := h.offset offset_array hoffset
      rw [wantedRows, hoffset] at hwanted
      simp only [if_true, Prod.mk.injEq] at hwanted
      obtain ⟨hstart, hcount⟩ := hwanted
      have hrows := hshape.matrix.rows_eq
      have hrowsLe : rows ≤ rows * cols := Nat.le_mul_of_pos_right _ hshape.matrix.cols_pos
      have hsize := hshape.matrix.size
      have hs : i32 (offset_array.elem 0 - 1) = start := by
        rw [hstart]
        exact i32_eq_self ⟨by omega, by omega⟩
      have hc : i32 (offset_array.elem 1 - start) = count := by
        rw [← hcount, ← hstart]
        exact i32_eq_self ⟨by omega, by omega⟩
      have hp : i32 ((start : Int) * cols) = ((start * cols : Nat) : Int) := by
        rw [← Int.natCast_mul]
        exact i32_eq_self ⟨by omega, by omega⟩
      have hpiece : c.piece 0 =
          ⟨fun k => (c.matrix 0).elem (((start * cols : Nat) : Int) + k), count, cols⟩ := by
        simp only [piece, hoffset, if_true, hs, hc, hcols, hp]
      rw [hpiece]
      exact ⟨rfl, fun _ => ⟨rfl, hshape.copy_eq rfl rfl fun k => rfl⟩⟩
    · by_cases hsame : c.inputs i = c.inputs 0
      · refine ⟨?_, fun hcut => absurd ⟨by simp [hoffset], hzero, hsame⟩ hcut⟩
        simp only [piece, hoffset, if_neg hzero, if_pos hsame, hcols]
      · obtain ⟨hn, hrest⟩ := hplain (by rw [wantedRows, hoffset]; simp only [if_neg hzero])
          (by simp only [piece, hoffset, if_neg hzero, if_neg hsame])
        exact ⟨hn, fun _ => hrest⟩

/-- A cut array contributes as many rows as the first input, and from its first row on. -/
theorem piece_of_cut {offset_array : ArrayType Int} (h : c.Acceptable)
    (hoffset : c.offset = some offset_array) (hzero : i ≠ 0) (hsame : c.inputs i = c.inputs 0) :
    c.piece i = ⟨fun k => (c.matrix i).elem k, offset_array.elem 1 - (offset_array.elem 0 - 1),
      (c.matrix i).dimWord 1⟩ ∧
    c.wantedRows i = (0, (c.matrix 0).dimWord 0) ∧
    offset_array.elem 1 - (offset_array.elem 0 - 1) ≤ (c.matrix 0).dimWord 0 := by
  have hmax : MaxArraySize = 2 ^ 27 - 1 := by decide
  obtain ⟨-, -, hlow, hle, hhigh⟩ := h.offset offset_array hoffset
  have hn := h.atLeast
  obtain ⟨rows, cols, start, count, hshape⟩ := h.shape (i := 0) (by omega)
  have hrows := hshape.matrix.rows_eq
  have hrowsLe : rows ≤ rows * cols := Nat.le_mul_of_pos_right _ hshape.matrix.cols_pos
  have hsize := hshape.matrix.size
  have hmatrix : c.matrix i = c.matrix 0 := by rw [matrix, hsame, matrix]
  have hs : i32 (offset_array.elem 0 - 1) = offset_array.elem 0 - 1 :=
    i32_eq_self ⟨by omega, by omega⟩
  have hc : i32 (offset_array.elem 1 - (offset_array.elem 0 - 1)) =
      offset_array.elem 1 - (offset_array.elem 0 - 1) := i32_eq_self ⟨by omega, by omega⟩
  refine ⟨?_, ?_, by omega⟩
  · simp only [piece, hoffset, if_neg hzero, if_pos hsame, hs, hc]
  · simp only [wantedRows, hoffset, if_neg hzero, hmatrix]

/-- How many rows each input is to contribute. -/
def rowCount (c : ConcatCall α) (i : Nat) : Nat := (c.wantedRows i).2.toNat

theorem Shape.rowCount_eq (h : c.Shape i rows cols start count) : c.rowCount i = count := by
  rw [rowCount, h.wanted, Int.toNat_natCast]

/-- No piece has more rows than it should, and without sharing each has as many. -/
theorem Acceptable.channels_le (h : c.Acceptable) (hi : i < c.num.toNat) :
    (c.piece i).channels ≤ c.rowCount i := by
  obtain ⟨rows, cols, start, count, hshape⟩ := h.shape hi
  rw [hshape.rowCount_eq]
  by_cases hcut : c.Cut i
  · obtain ⟨hsome, hzero, hsame⟩ := hcut
    obtain ⟨offset_array, hoffset⟩ := Option.ne_none_iff_exists'.mp hsome
    obtain ⟨hpiece, hwanted, hle⟩ := piece_of_cut h hoffset hzero hsame
    rw [hshape.wanted, Prod.mk.injEq] at hwanted
    rw [hpiece, hwanted.2]
    exact hle
  · exact le_of_eq (((h.piece_eq hi hshape).2 hcut).1)

theorem Acceptable.channels_nonneg (h : c.Acceptable) (hi : i < c.num.toNat) :
    0 ≤ (c.piece i).channels := by
  obtain ⟨rows, cols, start, count, hshape⟩ := h.shape hi
  by_cases hcut : c.Cut i
  · obtain ⟨hsome, hzero, hsame⟩ := hcut
    obtain ⟨offset_array, hoffset⟩ := Option.ne_none_iff_exists'.mp hsome
    obtain ⟨-, -, hlow, hle, -⟩ := h.offset offset_array hoffset
    rw [(piece_of_cut h hoffset hzero hsame).1]
    show 0 ≤ offset_array.elem 1 - (offset_array.elem 0 - 1)
    omega
  · rw [((h.piece_eq hi hshape).2 hcut).1]
    exact Int.natCast_nonneg _

theorem Acceptable.piece_unshared (h : c.Acceptable) (hunshared : c.Unshared) (hi : i < c.num.toNat) :
    (c.piece i).channels = c.rowCount i ∧ (c.piece i).nelems = (c.matrix 0).dimWord 1 ∧
      (c.piece i).copy = c.wantedCells i := by
  obtain ⟨rows, cols, start, count, hshape⟩ := h.shape hi
  obtain ⟨hnelems, hrest⟩ := h.piece_eq hi hshape
  rw [hshape.rowCount_eq, hshape.columns]
  by_cases hcut : c.Cut i
  · obtain ⟨hsome, hzero, hsame⟩ := hcut
    obtain ⟨offset_array, hoffset⟩ := Option.ne_none_iff_exists'.mp hsome
    obtain ⟨hpiece, hwanted, -⟩ := piece_of_cut h hoffset hzero hsame
    rw [hshape.wanted, Prod.mk.injEq] at hwanted
    have hchannels : (c.piece i).channels = count := by
      rw [hpiece, hwanted.2]
      exact hunshared offset_array hoffset i hi hzero hsame
    refine ⟨hchannels, hnelems, hshape.copy_eq hchannels hnelems fun k => ?_⟩
    have hstart : start = 0 := by omega
    rw [hpiece, hstart, Nat.zero_mul]
    simp
  · exact ⟨(hrest hcut).1, hnelems, (hrest hcut).2⟩

/-! ## The sums -/

theorem sum_wantedRows (h : c.Acceptable) :
    ∑ i ∈ Finset.range c.num.toNat, (c.wantedRows i).2 =
      ((∑ i ∈ Finset.range c.num.toNat, c.rowCount i : Nat) : Int) := by
  rw [Nat.cast_sum]
  refine Finset.sum_congr rfl fun i hi => ?_
  obtain ⟨rows, cols, start, count, hshape⟩ := h.shape (Finset.mem_range.mp hi)
  rw [hshape.rowCount_eq, hshape.wanted]

/-- All cells together. -/
theorem sum_rowCount_le (h : c.Acceptable) {cols : Nat} (hcols : (c.matrix 0).dimWord 1 = cols) :
    (∑ i ∈ Finset.range c.num.toNat, c.rowCount i) * cols ≤ 6 * MaxArraySize := by
  rw [Finset.sum_mul]
  refine (Finset.sum_le_card_nsmul _ _ MaxArraySize fun i hi => ?_).trans ?_
  · obtain ⟨rows, cols', start, count, hshape⟩ := h.shape (Finset.mem_range.mp hi)
    obtain rfl : cols = cols' := by
      have := hcols.symm.trans hshape.columns
      omega
    have := hshape.room.2
    rw [hshape.rowCount_eq]
    omega
  · rw [Finset.card_range, smul_eq_mul]
    have := h.atMost
    exact Nat.mul_le_mul_right _ (by omega)

theorem total_eq_i32 :
    c.total = i32 (∑ i ∈ Finset.range c.num.toNat, (c.piece i).channels) := by
  have hsum : (c.pieces.map Piece.channels).sum =
      ∑ i ∈ Finset.range c.num.toNat, (c.piece i).channels := by
    rw [pieces, List.map_map]
    rfl
  rw [total, foldl_i32_add Piece.channels c.pieces ⟨by norm_num, by norm_num⟩, Int.zero_add, hsum]

theorem total_eq (h : c.Acceptable) :
    c.total = ∑ i ∈ Finset.range c.num.toNat, (c.piece i).channels := by
  have hmax : MaxArraySize = 2 ^ 27 - 1 := by decide
  have hn := h.atLeast
  obtain ⟨rows, cols, start, count, hshape⟩ := h.shape (i := 0) (by omega)
  have hle : ∑ i ∈ Finset.range c.num.toNat, (c.piece i).channels ≤
      ((∑ i ∈ Finset.range c.num.toNat, c.rowCount i : Nat) : Int) := by
    rw [Nat.cast_sum]
    exact Finset.sum_le_sum fun i hi => h.channels_le (Finset.mem_range.mp hi)
  have hnonneg : 0 ≤ ∑ i ∈ Finset.range c.num.toNat, (c.piece i).channels :=
    Finset.sum_nonneg fun i hi => h.channels_nonneg (Finset.mem_range.mp hi)
  have hcells := sum_rowCount_le h hshape.columns
  have hsmall : ∑ i ∈ Finset.range c.num.toNat, c.rowCount i ≤ 6 * MaxArraySize :=
    (Nat.le_mul_of_pos_right _ hshape.matrix.cols_pos).trans hcells
  rw [total_eq_i32]
  exact i32_eq_self ⟨by omega, by omega⟩

/-- Every piece keeps the columns of its input, and its rows are those taken up to what an `int`
loses. -/
theorem piece_sizes (i : Nat) :
    (c.piece i).nelems = (c.matrix i).dimWord 1 ∧ i32 (c.piece i).channels = i32 (c.rowsTaken i) := by
  unfold piece rowsTaken
  cases c.offset with
  | none => exact ⟨rfl, rfl⟩
  | some offset_array =>
    by_cases hzero : i = 0
    · subst hzero
      simp
    · simp only [if_neg hzero]
      split
      · simp
      · exact ⟨rfl, rfl⟩

theorem columns_eq (hnum : 0 < c.num.toNat) : c.columns = (c.matrix 0).dimWord 1 := by
  obtain ⟨n, hn⟩ : ∃ n, c.num.toNat = n + 1 := ⟨c.num.toNat - 1, by omega⟩
  have hhead : c.pieces.head? = some (c.piece 0) := by
    rw [pieces, hn, List.range_succ_eq_map]
    rfl
  rw [columns, hhead]
  exact (piece_sizes 0).1

theorem request_eq : c.request = c.bytes := by
  rw [request, bytes, i32_mul_i32]
  rcases Nat.eq_zero_or_pos c.num.toNat with hnone | hnum
  · have hzero : i32 0 = 0 := by decide
    rw [total_eq_i32, hnone, Finset.sum_range_zero, Finset.sum_range_zero, hzero, Int.zero_mul,
      Int.zero_mul]
  · have htotal : c.total = i32 (∑ i ∈ Finset.range c.num.toNat, c.rowsTaken i) := by
      rw [total_eq_i32]
      exact i32_sum_congr fun i _ => (piece_sizes i).2
    rw [htotal, columns_eq hnum, ← i32_mul_i32, i32_i32_mul, i32_mul_i32]

theorem palloc_request_error_iff :
    (∃ e, palloc c.request = .error e) ↔ c.bytes < 0 ∨ MaxAllocSize < c.bytes := by
  have hmax : MaxAllocSize = 2 ^ 30 - 1 := by decide
  have hbytes : -2 ^ 31 ≤ c.bytes ∧ c.bytes < 2 ^ 32 := by
    have := isInt32_i32
      (4 * ((∑ i ∈ Finset.range c.num.toNat, c.rowsTaken i) * (c.matrix 0).dimWord 1))
    unfold IsInt32 at this
    unfold bytes
    omega
  rw [request_eq]
  unfold palloc
  split <;> simp <;> omega

/-- The cells that are copied, if no array is shared. -/
theorem copied_eq (h : c.Acceptable) (hunshared : c.Unshared) {cols : Nat}
    (hcols : (c.matrix 0).dimWord 1 = cols) :
    c.pieces.flatMap Piece.copy = (List.range c.num.toNat).flatMap c.wantedCells ∧
      (c.pieces.flatMap Piece.copy).length =
        (∑ i ∈ Finset.range c.num.toNat, c.rowCount i) * cols := by
  have hcopy : c.pieces.flatMap Piece.copy = (List.range c.num.toNat).flatMap c.wantedCells := by
    rw [pieces, List.flatMap_map]
    exact List.flatMap_congr fun i hi => (h.piece_unshared hunshared (List.mem_range.mp hi)).2.2
  refine ⟨hcopy, ?_⟩
  rw [hcopy, List.length_flatMap, Finset.sum_mul]
  refine congrArg List.sum (List.map_congr_left fun i hi => ?_)
  obtain ⟨rows, cols', start, count, hshape⟩ := h.shape (List.mem_range.mp hi)
  obtain rfl : cols = cols' := by
    have := hcols.symm.trans hshape.columns
    omega
  have hroom := hshape.room.1
  rw [hshape.wantedCells_eq, hshape.rowCount_eq, List.length_take, List.length_drop]
  omega

/-! ## The calls that go well -/

variable [Zero α]

/-- **An acceptable call without sharing** returns the concatenation. -/
theorem concatArray_of_unshared (h : c.Acceptable) (hunshared : c.Unshared)
    (hpalloc : palloc c.request = .ok ()) : c.concatArray = c.wanted := by
  have hmax : MaxArraySize = 2 ^ 27 - 1 := by decide
  have hn := h.atLeast
  obtain ⟨rows, cols, start, count, hshape⟩ := h.shape (i := 0) (by omega)
  have hcols := hshape.columns
  obtain ⟨hcopied, hlength⟩ := copied_eq h hunshared hcols
  have hcells := sum_rowCount_le h hcols
  have htotal : c.total = ((∑ i ∈ Finset.range c.num.toNat, c.rowCount i : Nat) : Int) := by
    rw [total_eq h, Nat.cast_sum]
    exact Finset.sum_congr rfl fun i hi =>
      (h.piece_unshared hunshared (Finset.mem_range.mp hi)).1
  have hsize : i32 (c.total * c.columns) =
      (((∑ i ∈ Finset.range c.num.toNat, c.rowCount i) * cols : Nat) : Int) := by
    rw [htotal, columns_eq (by omega), hcols, ← Int.natCast_mul]
    exact i32_eq_self ⟨by omega, by omega⟩
  have hsigns : ¬ c.pieces.any (fun p => decide (p.channels * p.nelems < 0)) = true := by
    rw [List.any_eq_true]
    rintro ⟨p, hp, hneg⟩
    obtain ⟨i, hi, rfl⟩ := List.mem_map.mp hp
    obtain ⟨hchannels, hnelems, -⟩ := h.piece_unshared hunshared (List.mem_range.mp hi)
    rw [decide_eq_true_eq, hchannels, hnelems, hcols, ← Int.natCast_mul] at hneg
    omega
  unfold concatArray wanted
  rw [if_neg (not_not.mpr h.present), hpalloc]
  -- what was allocated is what is copied, so nothing is left over
  simp only [if_neg hsigns, hsize, hlength, lt_irrefl, if_false, Int.sub_self, Int.toNat_zero,
    List.replicate_zero, List.append_nil]
  rw [htotal, columns_eq (by omega), hcopied, sum_wantedRows h, hcols, ← Int.natCast_mul, Int.toNat_natCast]

/-- **`concat_array`** raises or returns the concatenation exactly when the result is too large to be
allocated, or the call is acceptable and no other input is the array that the offset cuts. -/
theorem concatArray_meets_iff (c : ConcatCall α) :
    c.Meets c.concatArray ↔ c.Refused ∨ c.Acceptable ∧ c.Unshared := by
  by_cases hpresent : c.Present
  swap
  · refine iff_of_false ?_ ?_
    · rw [concatArray, if_pos hpresent]
      rintro (⟨e, he⟩ | ⟨h, -⟩)
      · cases he
      · exact hpresent h.present
    · rintro (h | ⟨h, -⟩)
      · exact hpresent h.1
      · exact hpresent h.present
  cases hpalloc : palloc c.request with
  | error e =>
    refine iff_of_true (Or.inl ⟨e, ?_⟩) (Or.inl ⟨hpresent, palloc_request_error_iff.mp ⟨e, hpalloc⟩⟩)
    rw [concatArray, if_neg (not_not.mpr hpresent), hpalloc]
  | ok u =>
    constructor
    · rintro (⟨e, he⟩ | ⟨h, hwanted⟩)
      · -- nothing raises but the allocation
        exfalso
        rw [concatArray, if_neg (not_not.mpr hpresent), hpalloc] at he
        simp only at he
        split at he
        · cases he
        · split at he <;> cases he
      · refine Or.inr ⟨h, fun offset_array hoffset i hi hzero hsame => ?_⟩
        -- the rows of the result are those wanted, and no piece has more than its share
        have hrows : c.total = ∑ i ∈ Finset.range c.num.toNat, (c.wantedRows i).2 := by
          rw [concatArray, if_neg (not_not.mpr hpresent), hpalloc] at hwanted
          simp only at hwanted
          split at hwanted
          · cases hwanted
          · split at hwanted
            · cases hwanted
            · injection hwanted with hdims
              exact (List.cons.inj hdims).1
        rw [total_eq h, sum_wantedRows h, Nat.cast_sum] at hrows
        have hall := (Finset.sum_eq_sum_iff_of_le fun j hj =>
          h.channels_le (Finset.mem_range.mp hj)).mp hrows i (Finset.mem_range.mpr hi)
        obtain ⟨hpiece, hwantedRows, -⟩ := piece_of_cut h hoffset hzero hsame
        obtain ⟨rows, cols, start, count, hshape⟩ := h.shape hi
        rw [hshape.wanted, Prod.mk.injEq] at hwantedRows
        rw [hpiece, hshape.rowCount_eq, hwantedRows.2] at hall
        exact hall
    · rintro (⟨-, hrefused⟩ | ⟨h, hunshared⟩)
      · obtain ⟨e, he⟩ := palloc_request_error_iff.mpr hrefused
        rw [hpalloc] at he
        cases he
      · exact Or.inr ⟨h, concatArray_of_unshared h hunshared hpalloc⟩

/-- `concat_array(2, ARRAY[[1]], ARRAY[[2, 3]])`. -/
def widerSecond : ConcatCall Int where
  num := 2
  heap := fun r => if r = 0 then ArrayType.matrix 1 1 [1] fun _ => 0
    else ArrayType.matrix 1 2 [2, 3] fun _ => 0
  inputs := fun i => if i < 2 then some i else none
  offset := none
  unset := 0
  hinputs := by
    rintro i - r -
    split
    · exact ⟨1, 1, rfl, rfl, by decide, by decide, by decide⟩
    · exact ⟨1, 2, rfl, rfl, by decide, by decide, by decide⟩

/-- The column counts differ, and the second row is written over the end of the result. -/
theorem concatArray_widerSecond :
    widerSecond.concatArray = .overruns ∧ ¬ widerSecond.Meets widerSecond.concatArray := by
  have hrun : widerSecond.concatArray = .overruns := by
    rw [concatArray, if_neg (by decide)]
    rfl
  refine ⟨hrun, ?_⟩
  rw [hrun]
  rintro (⟨e, he⟩ | ⟨-, hwanted⟩)
  · cases he
  · cases hwanted

end ConcatCall

end Peps
