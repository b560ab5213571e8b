import Mathlib.Logic.Function.DependsOn

/-!
# Equations along a well-founded relation

A system gives each unknown an equation, `v k = F v k`. If the equation of an unknown only reads
unknowns below it, the system has exactly one solution (`existsUnique_solves`).
-/

namespace Peps.Lib

variable {K V : Type}

def Solves (F : (K → V) → K → V) (v : K → V) : Prop := ∀ k, v k = F v k

variable {R : K → K → Prop} {F : (K → V) → K → V}

theorem Solves.unique (hR : WellFounded R) (hF : ∀ k, DependsOn (F · k) {j | R j k}) {v w : K → V}
    (hv : Solves F v) (hw : Solves F w) : v = w := by
  funext k
  induction k using hR.induction with
  | h k ih =>
    rw [hv k, hw k]
    exact hF k fun j hj => ih j hj

theorem exists_solves [Inhabited V] (hR : WellFounded R)
    (hF : ∀ k, DependsOn (F · k) {j | R j k}) : ∃ v, Solves F v := by
  classical
  -- below `k` the values that have been found, elsewhere anything
  let step : ∀ k, (∀ j, R j k → V) → V := fun k found =>
    F (fun j => if h : R j k then found j h else default) k
  refine ⟨hR.fix step, fun k => ?_⟩
  rw [hR.fix_eq step k]
  exact hF k fun j hj => dif_pos hj

theorem existsUnique_solves [Inhabited V] (hR : WellFounded R)
    (hF : ∀ k, DependsOn (F · k) {j | R j k}) : ∃! v, Solves F v := by
  obtain ⟨v, hv⟩ := exists_solves hR hF
  exact ⟨v, hv, fun w hw => hw.unique hR hF hv⟩

end Peps.Lib
