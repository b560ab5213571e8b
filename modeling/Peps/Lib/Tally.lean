import Mathlib.Algebra.BigOperators.Group.Finset.Basic
import Mathlib.Algebra.Order.BigOperators.Group.Finset
import Mathlib.Logic.Function.Basic

/-!
# Finite tables and what their entries weigh

A table is a partial map. `Tally w table total` says that it has finitely many entries and that their
weights add up to `total`; storing an entry takes off the weight of the one it replaces
(`Tally.update`).
-/

namespace Peps.Lib

variable {K V : Type*} {w : V → Nat} {table table' : K → Option V} {total : Nat}

def Tally (w : V → Nat) (table : K → Option V) (total : Nat) : Prop :=
  ∃ keys : Finset K, (∀ k, k ∈ keys ↔ table k ≠ none) ∧ ∑ k ∈ keys, (table k).elim 0 w = total

theorem tally_empty : Tally w (fun _ : K => none) 0 :=
  ⟨∅, fun k => by simp, rfl⟩

/-- No entry weighs more than all. -/
theorem Tally.le (h : Tally w table total) (k : K) : (table k).elim 0 w ≤ total := by
  obtain ⟨keys, hkeys, rfl⟩ := h
  by_cases hk : k ∈ keys
  · exact Finset.single_le_sum (f := fun k => (table k).elim 0 w) (fun _ _ => Nat.zero_le _) hk
  · rw [not_not.mp fun hne => hk ((hkeys k).mpr hne)]
    exact Nat.zero_le _

/-- Only the weights count. -/
theorem Tally.congr (h : Tally w table total) (hw : ∀ k, (table' k).map w = (table k).map w) :
    Tally w table' total := by
  have helim : ∀ o : Option V, o.elim 0 w = (o.map w).getD 0 := fun o => by cases o <;> rfl
  obtain ⟨keys, hkeys, rfl⟩ := h
  refine ⟨keys, fun k => ?_, Finset.sum_congr rfl fun k _ => ?_⟩
  · rw [hkeys, ne_eq, ne_eq, ← Option.map_eq_none_iff (f := w), ← hw, Option.map_eq_none_iff]
  · rw [helim, helim, hw]

/-- **Storing an entry.** -/
theorem Tally.update [DecidableEq K] (h : Tally w table total) (k : K) (v : V) :
    Tally w (Function.update table k (some v)) (total - (table k).elim 0 w + w v) := by
  obtain ⟨keys, hkeys, rfl⟩ := h
  refine ⟨insert k (keys.erase k), fun k' => ?_, ?_⟩
  · by_cases hk : k' = k
    · subst hk
      simp
    · simp [hk, hkeys]
  · rw [Finset.sum_insert (Finset.notMem_erase k keys), Function.update_self, Nat.add_comm]
    -- the other entries are the old ones
    have hrest : ∑ x ∈ keys.erase k, (Function.update table k (some v) x).elim 0 w =
        ∑ x ∈ keys.erase k, (table x).elim 0 w :=
      Finset.sum_congr rfl fun x hx => by
        rw [Function.update_of_ne (Finset.ne_of_mem_erase hx)]
    rw [hrest]
    refine congrArg (· + w v) ?_
    by_cases hk : k ∈ keys
    · rw [← Finset.add_sum_erase keys (fun x => (table x).elim 0 w) hk, Nat.add_sub_cancel_left]
    · rw [Finset.erase_eq_of_notMem hk, not_not.mp fun hne => hk ((hkeys k).mpr hne)]
      rfl

end Peps.Lib
