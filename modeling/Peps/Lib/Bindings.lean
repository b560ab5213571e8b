import Mathlib.Data.List.Induction
import Mathlib.Logic.Function.Basic

/-!
# Sequences of bindings

A binding gives a name to what a definition makes of other names. In a sequence that is scoped,
each definition reads names from outside and names of earlier bindings only. Evaluating a sequence
gives each name in turn what its definition makes of the names so far (`evaluate`).
-/

namespace Peps.Lib

variable {α β : Type} (name : β → α) (reads : β → List α)

/-- Every binding reads names of the scope, which it then extends. -/
def Scoped (scope : α → Prop) : List β → Prop
  | [] => True
  | b :: bs => (∀ r ∈ reads b, scope r) ∧ Scoped (fun r => scope r ∨ r = name b) bs

variable {name reads}

theorem scoped_congr {scope scope' : α → Prop} (h : ∀ r, scope r ↔ scope' r) (bs : List β) :
    Scoped name reads scope bs ↔ Scoped name reads scope' bs := by
  rw [show scope = scope' from funext fun r => propext (h r)]

theorem scoped_append {scope : α → Prop} (bs cs : List β) :
    Scoped name reads scope (bs ++ cs) ↔
      Scoped name reads scope bs ∧ Scoped name reads (fun r => scope r ∨ r ∈ bs.map name) cs := by
  induction bs generalizing scope with
  | nil =>
    have hscope : ∀ r, scope r ↔ scope r ∨ r ∈ ([] : List β).map name := fun r => by simp
    rw [List.nil_append, scoped_congr hscope cs]
    exact (iff_of_eq (true_and _)).symm
  | cons b bs ih =>
    have hscope : ∀ r, ((scope r ∨ r = name b) ∨ r ∈ bs.map name) ↔
        scope r ∨ r ∈ (b :: bs).map name := by
      intro r
      rw [List.map_cons, List.mem_cons, or_assoc]
    show (_ ∧ Scoped name reads _ (bs ++ cs)) ↔ (_ ∧ _) ∧ _
    rw [ih, scoped_congr hscope cs, and_assoc]

/-- One more binding at the end. -/
theorem scoped_concat {scope : α → Prop} (bs : List β) (b : β) :
    Scoped name reads scope (bs ++ [b]) ↔
      Scoped name reads scope bs ∧ ∀ r ∈ reads b, scope r ∨ r ∈ bs.map name := by
  rw [scoped_append]
  exact and_congr_right fun _ => iff_of_eq (and_true _)

/-! ## Evaluation -/

section Evaluation

variable {V : Type} [DecidableEq α]

def evaluate (name : β → α) (value : β → (α → V) → V) (env : α → V) (bs : List β) : α → V :=
  bs.foldl (fun env b => Function.update env (name b) (value b env)) env

theorem evaluate_concat (value : β → (α → V) → V) (env : α → V) (bs : List β) (b : β) :
    evaluate name value env (bs ++ [b]) =
      Function.update (evaluate name value env bs) (name b)
        (value b (evaluate name value env bs)) := by
  rw [evaluate, List.foldl_append]
  rfl

variable (name) in
/-- Definitions that read nothing, where those of one name agree. -/
theorem evaluate_of_mem {value : β → V} {bs : List β} {b : β} (hb : b ∈ bs)
    (hsame : ∀ c ∈ bs, name c = name b → value c = value b) (env : α → V) :
    evaluate name (fun c _ => value c) env bs (name b) = value b := by
  induction bs using List.reverseRecOn with
  | nil => cases hb
  | append_singleton bs c ih =>
    rw [evaluate_concat]
    by_cases hname : name b = name c
    · rw [hname, Function.update_self]
      exact hsame c (by simp) hname.symm
    · rw [Function.update_of_ne hname]
      -- `b` is not the last one
      have hmem : b ∈ bs := by
        rcases List.mem_append.mp hb with h | h
        · exact h
        · exact absurd (congrArg name (List.mem_singleton.mp h)) hname
      exact ih hmem fun d hd => hsame d (List.mem_append_left _ hd)

end Evaluation

end Peps.Lib
