import Peps.Agg.GroupOrder
import Peps.Kernel.IntSizes

/-!
# `split_array`

`split_array` cuts a matrix into matrices of the same number of rows and returns them with their
numbers, for a plan that works on them one by one and puts the results together with `array_2d_agg`.
It reads element `i * sub_size + j` for element `j` of part `i`; that the aggregate of the parts is
the matrix again is `splitArray_aggregate`.
-/

namespace Peps

open Lib

/-! ## The function -/

section Definitions

variable {α : Type}

/-- `construct_md_array` with two dimensions and no NULLs. The lower bounds are 1, so
`ArrayCheckBounds` has nothing to refuse, and `float4` elements within `MaxArraySize` fit an
allocation. -/
def constructMatrix (rows cols : Int) (elems : List α) (outside : Int → α) :
    Except PgError (ArrayType α) := do
  let nelems ← arrayGetNItems [rows, cols]
  if nelems = 0 then
    .ok { dims := [], lbs := [], data := [], outside, hndim := Nat.zero_le _, hlbs := rfl }
  else .ok (ArrayType.matrix rows cols (elems.take nelems) outside)

/-- One round of the loop: part `i` and its number. -/
def splitRound (input : ArrayType α) (rows_per_subarray ncols sub_size : Int) (i : Nat) :
    Except PgError (Nat × ArrayType α) := do
  palloc (8 * sub_size)
  let data_head := i32 (i * sub_size)
  let subarray_data := (List.range sub_size.toNat).map fun (j : Nat) => input.elem (data_head + j)
  let resultArray ← constructMatrix rows_per_subarray ncols subarray_data input.outside
  .ok (i + 1, resultArray)

/-- `split_array`: the rows the first call prepares and each further call returns one of. -/
def splitArray (input : ArrayType α) (split_num : Int) : Except PgError (List (Nat × ArrayType α)) :=
  do
  palloc (8 * split_num)
  let nrows := input.dimWord 0
  let ncols := input.dimWord 1
  if split_num = 0 then .error .divisionByZero
  else if nrows.tmod split_num ≠ 0 then
    .error (.report
      "The number of rows in the input array is not evenly divisible by split_num" [] [])
  else
    let rows_per_subarray := nrows.tdiv split_num
    let sub_size := i32 (rows_per_subarray * ncols)
    (List.range split_num.toNat).mapM (splitRound input rows_per_subarray ncols sub_size)

/-- Part `i` of the matrix, in parts of `rows` rows. -/
def ArrayType.part (a : ArrayType α) (rows cols i : Nat) : ArrayType α :=
  ArrayType.matrix rows cols ((a.data.drop (i * (rows * cols))).take (rows * cols)) a.outside

/-- The bytes of a `float4` that has these bits. -/
def float4Bytes (bits : UInt32) : List UInt8 := (beBytes 4 bits.toNat).reverse

/-- A `real[][]` without NULLs as an argument of the aggregate. -/
def ArrayType.toArg (a : ArrayType UInt32) : Agg.ArrayArg where
  dims := a.dims
  lbs := a.lbs
  data := a.data.flatMap float4Bytes
  nullbitmap := none

end Definitions

/-! ## The parts -/

section Parts

variable {α : Type} {a : ArrayType α} {rows cols n : Nat}

/-- A slice of the elements, read one by one. -/
theorem map_elem_eq (a : ArrayType α) {start len : Nat} (h : start + len ≤ a.data.length) :
    ((List.range len).map fun (j : Nat) => a.elem ((start : Int) + j)) =
      (a.data.drop start).take len := by
  refine List.ext_getElem (by simp; omega) fun j hj hj' => ?_
  have hlt : j < len := by simpa using hj
  simp only [List.getElem_map, List.getElem_range, List.getElem_take, List.getElem_drop]
  rw [show ((start : Int) + j) = ((start + j : Nat) : Int) by push_cast; rfl]
  exact a.elem_of_lt (by omega)

/-- **The parts of a list one after the other** are its beginning. -/
theorem flatMap_slices (xs : List α) (k n : Nat) :
    ((List.range n).flatMap fun i => (xs.drop (i * k)).take k) = xs.take (n * k) := by
  induction n with
  | zero => simp
  | succ n ih =>
    rw [List.range_succ, List.flatMap_append, ih, Nat.add_mul, Nat.one_mul, List.take_add]
    simp

theorem constructMatrix_ok {elems : List α} {outside : Int → α} (hrows : 0 < rows) (hcols : 0 < cols)
    (hsize : rows * cols ≤ MaxArraySize) :
    constructMatrix rows cols elems outside =
      .ok (ArrayType.matrix rows cols (elems.take (rows * cols)) outside) := by
  have hget : arrayGetNItems [(rows : Int), (cols : Int)] = .ok (rows * cols) := by
    have hget := arrayGetNItems_of_le [rows, cols] (by simp) (by simp [hrows, hcols])
      (by simpa using hsize)
    simpa using hget
  have hpos : rows * cols ≠ 0 := Nat.ne_of_gt (Nat.mul_pos hrows hcols)
  rw [constructMatrix, hget]
  show (if rows * cols = 0 then _ else _) = _
  rw [if_neg hpos]

/-- **One round.** -/
theorem splitRound_ok (h : a.IsMatrix (n * rows) cols) (hrows : 0 < rows) {i : Nat} (hi : i < n) :
    splitRound a rows cols ((rows * cols : Nat) : Int) i = .ok (i + 1, a.part rows cols i) := by
  have hmax : MaxArraySize = 2 ^ 27 - 1 := by decide
  have hmaxAlloc : MaxAllocSize = 2 ^ 30 - 1 := by decide
  have hall : n * (rows * cols) ≤ MaxArraySize := by
    rw [← Nat.mul_assoc]
    exact h.size
  have hend : i * (rows * cols) + rows * cols ≤ n * (rows * cols) := by
    rw [← Nat.succ_mul]
    exact Nat.mul_le_mul_right _ hi
  have hhead : i32 ((i : Int) * ((rows * cols : Nat) : Int)) = ((i * (rows * cols) : Nat) : Int) := by
    rw [← Int.natCast_mul]
    exact i32_eq_self ⟨by omega, by omega⟩
  have hfull : i * (rows * cols) + rows * cols ≤ a.data.length := by
    rw [h.full, Nat.mul_assoc]
    exact hend
  unfold splitRound
  simp only [palloc_ok (by omega : 0 ≤ 8 * ((rows * cols : Nat) : Int)) (by omega), hhead,
    Int.toNat_natCast, map_elem_eq a hfull]
  show (constructMatrix _ _ _ _ >>= _) = _
  rw [constructMatrix_ok hrows h.cols_pos (by omega), List.take_take, Nat.min_self]
  rfl

/-- **`split_array`** returns the parts if the number divides the rows, and raises otherwise. -/
theorem splitArray_eq (h : a.IsMatrix rows cols) (hn : 0 < n) :
    (n ∣ rows → splitArray a n =
      .ok ((List.range n).map fun i => (i + 1, a.part (rows / n) cols i))) ∧
    (¬ n ∣ rows → ∃ err, splitArray a n = .error err) := by
  have hmax : MaxArraySize = 2 ^ 27 - 1 := by decide
  have hmaxAlloc : MaxAllocSize = 2 ^ 30 - 1 := by decide
  have hne : (n : Int) ≠ 0 := by omega
  have hmod : ((rows : Int).tmod n ≠ 0) ↔ ¬ n ∣ rows := by
    rw [Int.tmod_eq_emod_of_nonneg (by omega), ← Int.natCast_mod, Nat.dvd_iff_mod_eq_zero]
    omega
  unfold splitArray
  rw [h.rows_eq, h.cols_eq]
  constructor
  · rintro ⟨per, rfl⟩
    have hper : 0 < per := Nat.pos_of_mul_pos_left h.rows_pos
    have hpart : per * cols ≤ n * per * cols := by
      rw [Nat.mul_assoc]
      exact Nat.le_mul_of_pos_left _ hn
    have hle : n ≤ n * per * cols := by
      rw [Nat.mul_assoc]
      exact Nat.le_mul_of_pos_right _ (Nat.mul_pos hper h.cols_pos)
    have hsize := h.size
    have hdiv : ((n * per : Nat) : Int).tdiv n = per := by
      rw [Int.tdiv_eq_ediv_of_nonneg (by omega), ← Int.natCast_div, Nat.mul_div_cancel_left _ hn]
    have hsub : i32 ((per : Int) * cols) = ((per * cols : Nat) : Int) := by
      rw [← Int.natCast_mul]
      exact i32_eq_self ⟨by omega, by omega⟩
    rw [palloc_ok (by omega) (by omega)]
    show (if (n : Int) = 0 then _ else _) = _
    rw [if_neg hne, if_neg (fun hbad => hmod.mp hbad (Nat.dvd_mul_right n per)), hdiv,
      Nat.mul_div_cancel_left _ hn]
    simp only [hsub, Int.toNat_natCast]
    exact mapM_eq_ok_map fun i hi => splitRound_ok h hper (List.mem_range.mp hi)
  · intro hbad
    cases hpalloc : palloc (8 * (n : Int)) with
    | error err => exact ⟨err, rfl⟩
    | ok u =>
      show ∃ err, (if (n : Int) = 0 then _ else _) = _
      rw [if_neg hne, if_pos (hmod.mpr hbad)]
      exact ⟨_, rfl⟩

end Parts

/-! ## The aggregate of the parts -/

section Aggregate

open Agg

variable {a : ArrayType UInt32} {rows cols n : Nat}

theorem length_flatMap_float4Bytes (xs : List UInt32) :
    (xs.flatMap float4Bytes).length = 4 * xs.length := by
  induction xs with
  | nil => rfl
  | cons x xs ih =>
    rw [List.flatMap_cons, List.length_append, ih, List.length_cons, float4Bytes, List.length_reverse,
      length_beBytes]
    omega

/-- A part is a block of the aggregate. -/
theorem part_block (h : a.IsMatrix (n * rows) cols) (hrows : 0 < rows) {i : Nat} (hi : i < n) :
    Block rows cols (a.part rows cols i).toArg := by
  have hend : (i + 1) * (rows * cols) ≤ n * (rows * cols) := Nat.mul_le_mul_right _ hi
  have hsize : rows * cols ≤ n * (rows * cols) := Nat.le_mul_of_pos_left _ (by omega)
  have hall : n * (rows * cols) = a.data.length := by rw [h.full, Nat.mul_assoc]
  have hmax : n * (rows * cols) ≤ MaxArraySize := by
    rw [← Nat.mul_assoc]
    exact h.size
  have hlen : (a.part rows cols i).toArg.data.length = 4 * (rows * cols) := by
    show (List.flatMap float4Bytes ((a.data.drop _).take _)).length = _
    rw [length_flatMap_float4Bytes, List.length_take, List.length_drop]
    rw [Nat.add_mul] at hend
    omega
  exact ⟨⟨rfl, rfl, hrows, h.cols_pos, by omega, by omega, by decide⟩, hlen, rfl⟩

/-- The parts as the rows of a plan. -/
def planRows (a : ArrayType UInt32) (rows cols n : Nat) : List GroupRow :=
  (List.range n).map fun i => ⟨i + 1, (a.part rows cols i).toArg⟩

theorem stacked_planRows (h : a.IsMatrix (n * rows) cols) :
    stacked rows cols (planRows a rows cols n) =
      { dims := a.dims, lbs := [1, 1], data := a.toArg.data, nullbitmap := none } := by
  have hdata : ((List.range n).flatMap fun i => (a.part rows cols i).toArg.data) = a.toArg.data := by
    show ((List.range n).flatMap fun i =>
      ((a.data.drop (i * (rows * cols))).take (rows * cols)).flatMap float4Bytes) =
        a.data.flatMap float4Bytes
    rw [← List.flatMap_assoc, flatMap_slices, List.take_of_length_le]
    rw [h.full, Nat.mul_assoc]
  simp only [stacked, planRows, List.flatMap_map, hdata, List.length_map, List.length_range, h.dims]
  push_cast
  rfl

/-- **`split_array` and `array_2d_agg`.** A matrix without NULLs is cut into `n` numbered matrices of
`rows / n` rows if `n` divides the rows, and their aggregate is the matrix again; otherwise
`split_array` raises. -/
theorem splitArray_aggregate (junk : Nat → UInt8) (a : ArrayType UInt32) (rows cols n : Nat)
    (h : a.IsMatrix rows cols) (hn : 1 ≤ n) :
    (n ∣ rows → ∃ parts, splitArray a n = .ok parts ∧
      parts.map Prod.fst = (List.range n).map (· + 1) ∧
      (∀ p ∈ parts, p.2.dims = [((rows / n : Nat) : Int), (cols : Int)]) ∧
      aggregateSerially junk (parts.map fun p => p.2.toArg) =
        .ok (some { dims := a.dims, lbs := [1, 1], data := a.toArg.data, nullbitmap := none })) ∧
    (¬ n ∣ rows → ∃ err, splitArray a n = .error err) := by
  obtain ⟨hdivides, hrefused⟩ := splitArray_eq h hn
  refine ⟨fun hdvd => ⟨_, hdivides hdvd, ?_, ?_, ?_⟩, hrefused⟩
  · rw [List.map_map]
    rfl
  · intro p hp
    obtain ⟨i, -, rfl⟩ := List.mem_map.mp hp
    rfl
  · obtain ⟨per, rfl⟩ := hdvd
    have hper : 0 < per := Nat.pos_of_mul_pos_left h.rows_pos
    rw [Nat.mul_div_cancel_left _ hn]
    have hne : planRows a per cols n ≠ [] := by
      simp [planRows]
      omega
    have hblocks : ∀ row ∈ planRows a per cols n, Block per cols row.value := by
      intro row hrow
      obtain ⟨i, hi, rfl⟩ := List.mem_map.mp hrow
      exact part_block h hper (List.mem_range.mp hi)
    have hsize : (planRows a per cols n).length * (per * cols) ≤ MaxArraySize := by
      rw [planRows, List.length_map, List.length_range, ← Nat.mul_assoc]
      exact h.size
    have hplan := aggregateSerially_blocks junk hne hblocks hsize
    rw [stacked_planRows h, planRows, List.map_map] at hplan
    rw [List.map_map]
    exact hplan

/-- A matrix of four rows. -/
def fourRows : ArrayType UInt32 := ArrayType.matrix 4 2 [1, 2, 3, 4, 5, 6, 7, 8] fun _ => 0

theorem splitArray_fourRows :
    fourRows.IsMatrix 4 2 ∧
      (∃ parts, splitArray fourRows 2 = .ok parts ∧ parts.map Prod.fst = [1, 2] ∧
        aggregateSerially zeroes (parts.map fun p => p.2.toArg) = .ok (some fourRows.toArg)) ∧
      ∃ err, splitArray fourRows 3 = .error err := by
  have h : fourRows.IsMatrix 4 2 := ⟨rfl, rfl, by decide, by decide, by decide⟩
  obtain ⟨parts, hrun, hnumbers, -, hagg⟩ :=
    (splitArray_aggregate zeroes fourRows 4 2 2 h (by decide)).1 (by decide)
  exact ⟨h, ⟨parts, hrun, hnumbers, hagg⟩,
    (splitArray_aggregate zeroes fourRows 4 2 3 h (by decide)).2 (by decide)⟩

end Aggregate

end Peps
