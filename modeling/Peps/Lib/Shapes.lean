import Mathlib.Algebra.Ring.Int.Defs
import Mathlib.Tactic.Ring

/-!
# Shapes of arrays

A shape is the list of the extents of an array. `rowMajor` gives the strides of its layout without
gaps, last dimension fastest; `broadcast` is the shape two arrays are brought to before they are
combined cell by cell: extents are aligned at the last dimension, a missing one counts as 1, and an
extent of 1 is stretched to the other one, also if that is 0.
-/

namespace Peps.Lib.Shape

/-- The number of cells. -/
def volume : List Int → Int
  | [] => 1
  | d :: ds => d * volume ds

/-- The strides of a row-major layout. -/
def rowMajor : List Int → List Int
  | [] => []
  | _ :: ds => volume ds :: rowMajor ds

@[simp] theorem length_rowMajor (ds : List Int) : (rowMajor ds).length = ds.length := by
  induction ds with
  | nil => rfl
  | cons d ds ih => rw [rowMajor, List.length_cons, ih, List.length_cons]

theorem volume_append (xs ys : List Int) : volume (xs ++ ys) = volume xs * volume ys := by
  induction xs with
  | nil => rw [List.nil_append, volume, one_mul]
  | cons x xs ih => rw [List.cons_append, volume, ih, volume, mul_assoc]

theorem volume_reverse (xs : List Int) : volume xs.reverse = volume xs := by
  induction xs with
  | nil => rfl
  | cons x xs ih =>
    rw [List.reverse_cons, volume_append, ih, volume, volume, volume]
    ring

theorem volume_pos {ds : List Int} (h : ∀ d ∈ ds, 0 < d) : 0 < volume ds := by
  induction ds with
  | nil => decide
  | cons d ds ih =>
    exact Int.mul_pos (h d (List.mem_cons_self ..)) (ih fun x hx => h x (List.mem_cons_of_mem _ hx))

/-- A stride is the volume of what comes after. -/
theorem getElem?_rowMajor (ds : List Int) {j : Nat} (hj : j < ds.length) :
    (rowMajor ds)[j]? = some (volume (ds.drop (j + 1))) := by
  induction ds generalizing j with
  | nil => cases hj
  | cons d ds ih =>
    cases j with
    | zero => rfl
    | succ j => exact ih (Nat.lt_of_succ_lt_succ hj)

/-! ## Broadcasting -/

/-- The extent of the `i`-th dimension from the right. -/
def fromRight (ds : List Int) (i : Nat) : Int := ds.reverse.getD i 1

/-- Aligned at the right, extents are equal or one of them is 1. -/
def Compatible (xs ys : List Int) : Prop :=
  ∀ i < min xs.length ys.length,
    fromRight xs i = fromRight ys i ∨ fromRight xs i = 1 ∨ fromRight ys i = 1

/-- The other extent where one is 1. -/
def stretch (a b : Int) : Int := if a = 1 then b else a

/-- The common shape. -/
def broadcast (xs ys : List Int) : List Int :=
  ((List.range (max xs.length ys.length)).map
    fun i => stretch (fromRight xs i) (fromRight ys i)).reverse

theorem fromRight_of_ge {ds : List Int} {i : Nat} (h : ds.length ≤ i) : fromRight ds i = 1 := by
  rw [fromRight, List.getD_eq_getElem?_getD, List.getElem?_eq_none (by simpa using h),
    Option.getD_none]

theorem Compatible.extents {xs ys : List Int} (h : Compatible xs ys) (i : Nat) :
    fromRight xs i = fromRight ys i ∨ fromRight xs i = 1 ∨ fromRight ys i = 1 := by
  by_cases hi : i < min xs.length ys.length
  · exact h i hi
  · rcases Nat.lt_or_ge i xs.length with hx | hx
    · exact .inr (.inr (fromRight_of_ge (by omega)))
    · exact .inr (.inl (fromRight_of_ge hx))

theorem Compatible.symm {xs ys : List Int} (h : Compatible xs ys) : Compatible ys xs := by
  intro i hi
  rcases h i (by omega) with heq | hx | hy
  · exact .inl heq.symm
  · exact .inr (.inr hx)
  · exact .inr (.inl hy)

/-- The larger extent is the common one, unless a 1 meets a 0. -/
theorem max_eq_stretch_iff {a b : Int} (ha : 0 ≤ a) (hb : 0 ≤ b) (h : a = b ∨ a = 1 ∨ b = 1) :
    max a b = stretch a b ↔ ¬ (a = 0 ∧ b = 1) ∧ ¬ (a = 1 ∧ b = 0) := by
  unfold stretch
  split <;> omega

end Peps.Lib.Shape
