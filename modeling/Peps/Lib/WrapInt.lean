import Mathlib.Data.Int.Basic
import Mathlib.Algebra.Order.Ring.Int
import Mathlib.Tactic.Ring
import Mathlib.Tactic.Linarith

/-!
# 32-bit arithmetic that wraps

`i32 x` is the signed 32-bit number congruent to `x`. A chain of wrapping sums and products is
the wrap of the exact one (`i32_add_i32`, `i32_mul_i32`, …), so only its result has to fit.

A loop `for (x = start; x < bound; x += step)` over a wrapping variable need not end where the
exact one does; `Rounds` says after how many rounds it ends, if it does.
-/

namespace Peps.Lib

/-- The values of a signed 32-bit integer. -/
def IsInt32 (x : Int) : Prop := -2 ^ 31 ≤ x ∧ x < 2 ^ 31

instance : DecidablePred IsInt32 := fun _ => inferInstanceAs (Decidable (_ ∧ _))

/-- The 32-bit integer a computed value is stored as. -/
def i32 (x : Int) : Int := x.bmod (2 ^ 32)

theorem i32_eq_self {x : Int} (h : IsInt32 x) : i32 x = x :=
  Int.bmod_eq_of_le (by have := h.1; norm_num; omega) (by have := h.2; norm_num; omega)

theorem isInt32_i32 (x : Int) : IsInt32 (i32 x) := by
  have hlo : -(((2 ^ 32 : Nat) : Int) / 2) ≤ i32 x := Int.le_bmod (by norm_num)
  have hhi : i32 x < (((2 ^ 32 : Nat) : Int) + 1) / 2 := Int.bmod_lt (by norm_num)
  norm_num at hlo hhi
  exact ⟨by omega, by omega⟩

theorem i32_le {x : Int} (h : 0 ≤ x) : i32 x ≤ x := by
  simp only [i32, Int.bmod]
  split <;> omega

theorem i32_eq_iff {x : Int} : i32 x = x ↔ IsInt32 x :=
  ⟨fun h => h ▸ isInt32_i32 x, i32_eq_self⟩

@[simp] theorem i32_i32 (x : Int) : i32 (i32 x) = i32 x := i32_eq_self (isInt32_i32 x)
@[simp] theorem i32_i32_add (x y : Int) : i32 (i32 x + y) = i32 (x + y) := Int.bmod_add_bmod
@[simp] theorem i32_add_i32 (x y : Int) : i32 (x + i32 y) = i32 (x + y) := Int.add_bmod_bmod
@[simp] theorem i32_i32_sub (x y : Int) : i32 (i32 x - y) = i32 (x - y) := Int.bmod_sub_bmod
@[simp] theorem i32_sub_i32 (x y : Int) : i32 (x - i32 y) = i32 (x - y) := Int.sub_bmod_bmod
@[simp] theorem i32_i32_mul (x y : Int) : i32 (i32 x * y) = i32 (x * y) := Int.bmod_mul_bmod
@[simp] theorem i32_mul_i32 (x y : Int) : i32 (x * i32 y) = i32 (x * y) := Int.mul_bmod_bmod

/-- A value that has left the range above comes back from below. -/
theorem i32_eq_sub {x : Int} (h : IsInt32 (x - 2 ^ 32)) : i32 x = x - 2 ^ 32 := by
  have hwhole : i32 (2 ^ 32) = i32 0 := by decide
  have hback : i32 (x - 2 ^ 32) = i32 x := by
    rw [← i32_sub_i32, hwhole, i32_sub_i32, Int.sub_zero]
  rw [← hback, i32_eq_self h]

/-- A running sum is the wrap of the exact one. -/
theorem foldl_i32_add {α : Type} (f : α → Int) (xs : List α) {t : Int} (ht : IsInt32 t) :
    xs.foldl (fun t x => i32 (t + f x)) t = i32 (t + (xs.map f).sum) := by
  induction xs generalizing t with
  | nil => rw [List.foldl_nil, List.map_nil, List.sum_nil, Int.add_zero, i32_eq_self ht]
  | cons x xs ih =>
    rw [List.foldl_cons, ih (isInt32_i32 _), i32_i32_add, List.map_cons, List.sum_cons, Int.add_assoc]

/-- Terms of a sum may be wrapped before they are added. -/
theorem i32_sum_congr {α : Type} {f g : α → Int} {xs : List α} (h : ∀ x ∈ xs, i32 (f x) = i32 (g x)) :
    i32 (xs.map f).sum = i32 (xs.map g).sum := by
  induction xs with
  | nil => rfl
  | cons x xs ih =>
    have hx := h x List.mem_cons_self
    have hxs := ih fun y hy => h y (List.mem_cons_of_mem x hy)
    rw [List.map_cons, List.map_cons, List.sum_cons, List.sum_cons, ← i32_i32_add, ← i32_add_i32, hx, hxs,
      i32_i32_add, i32_add_i32]

/-! ## Loops over a wrapping variable -/

/-- The loop variable at the start of round `i`. -/
def loopVar (start step : Int) : Nat → Int
  | 0 => start
  | i + 1 => i32 (loopVar start step i + step)

/-- The loop ends after `n` rounds. -/
def Rounds (start bound step : Int) (n : Nat) : Prop :=
  (∀ i < n, loopVar start step i < bound) ∧ ¬ loopVar start step n < bound

theorem Rounds.unique {start bound step : Int} {n m : Nat} (hn : Rounds start bound step n)
    (hm : Rounds start bound step m) : n = m := by
  rcases Nat.lt_trichotomy n m with h | h | h
  · exact absurd (hm.1 n h) hn.2
  · exact h
  · exact absurd (hn.1 m h) hm.2

/-- As long as the exact values fit, the variable takes them. -/
theorem loopVar_eq {start step : Int} {i : Nat} (hfits : ∀ j ≤ i, IsInt32 (start + j * step)) :
    loopVar start step i = start + i * step := by
  induction i with
  | zero => simp [loopVar]
  | succ i ih =>
    have hnext : start + i * step + step = start + ((i + 1 : Nat) : Int) * step := by
      push_cast
      ring
    rw [loopVar, ih fun j hj => hfits j (by omega), hnext]
    exact i32_eq_self (hfits (i + 1) le_rfl)

theorem rounds_zero {start bound step : Int} (h : bound ≤ start) : Rounds start bound step 0 :=
  ⟨fun _ hi => absurd hi (Nat.not_lt_zero _), not_lt.mpr h⟩

/-- With a positive step the values lie between the first and the one that ends the loop, so
only those two have to fit. -/
theorem loopVar_eq_of_ends {start step : Int} {n i : Nat} (hstep : 0 ≤ step)
    (hfirst : IsInt32 start) (hend : IsInt32 (start + n * step)) (hi : i ≤ n) :
    loopVar start step i = start + i * step := by
  refine loopVar_eq fun j hj => ⟨?_, ?_⟩
  · have : 0 ≤ (j : Int) * step := Int.mul_nonneg (by omega) hstep
    linarith [hfirst.1]
  · have : (j : Int) * step ≤ n * step :=
      Int.mul_le_mul_of_nonneg_right (by omega) hstep
    linarith [hend.2]

/-- **A loop whose exact values fit** ends where the exact one does. -/
theorem rounds_of_ends {start bound step : Int} {n : Nat} (hstep : 0 ≤ step)
    (hfirst : IsInt32 start) (hend : IsInt32 (start + n * step))
    (hlast : ∀ i < n, start + i * step < bound) (hstop : bound ≤ start + n * step) :
    Rounds start bound step n := by
  refine ⟨fun i hi => ?_, ?_⟩
  · rw [loopVar_eq_of_ends hstep hfirst hend hi.le]
    exact hlast i hi
  · rw [loopVar_eq_of_ends hstep hfirst hend le_rfl]
    exact not_lt.mpr hstop

end Peps.Lib
