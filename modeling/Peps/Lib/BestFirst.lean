import Mathlib.Data.List.Basic
import Mathlib.Logic.Relation
import Mathlib.Order.Lattice
import Peps.Lib.SortedMap

/-!
# Searches with a queue and a best entry

A search takes entries out of a queue, one at a time, and keeps the cheapest it has seen. The entry
taken out last may be expanded: other entries are put into the queue, each of which may depend on
the best entry known at that time (`Expands source best entry`). A history of what was taken out and
put in is kept.

In which order the queue gives its entries out does not matter for what is proved here: the best
entry costs no more than any that was taken out, and every entry comes from the first one by
expansions (`Inv`, which `Step` keeps).
-/

namespace Peps.Lib.BestFirst

/-- A queue on lists, as far as which entries it holds goes. -/
structure Queue (ε : Type) where
  push : ε → List ε → List ε
  pop : List ε → Option (ε × List ε)
  push_perm : ∀ e l, (push e l).Perm (e :: l)
  pop_perm : ∀ {l e rest}, pop l = some (e, rest) → l.Perm (e :: rest)
  pop_none : ∀ {l}, pop l = none → l = []

/-- The first entry of a sorted list. -/
def takeFirst {ε : Type} : List ε → Option (ε × List ε)
  | [] => none
  | e :: rest => some (e, rest)

/-- A list kept in order is a queue. -/
def Queue.sorted {ε : Type} (before : ε → ε → Bool) : Queue ε where
  push := insertBy before
  pop := takeFirst
  push_perm := insertBy_perm before
  pop_perm := fun {l e rest} h => by
    cases l with
    | nil => cases h
    | cons e' l =>
      cases h
      exact List.Perm.refl _
  pop_none := fun {l} h => by
    cases l with
    | nil => rfl
    | cons e l => cases h

/-- An entry that was put into the queue, the one it was made from, and the best one then. -/
structure Pushed (ε : Type) where
  source : ε
  best : ε
  entry : ε

structure State (ε : Type) where
  queue : List ε
  best : ε
  popped : List ε
  pushed : List (Pushed ε)

variable {ε K : Type} [LinearOrder K]

inductive Step (cost : ε → K) (Expands : ε → ε → ε → Prop) : State ε → State ε → Prop where
  | pop {s : State ε} {e : ε} {rest : List ε} (h : s.queue.Perm (e :: rest)) :
      Step cost Expands s
        ⟨rest, if cost e < cost s.best then e else s.best, e :: s.popped, s.pushed⟩
  | push {s : State ε} {e entry : ε} {queue : List ε} (hlast : s.popped.head? = some e)
      (hexpands : Expands e s.best entry) (h : queue.Perm (entry :: s.queue)) :
      Step cost Expands s ⟨queue, s.best, s.popped, ⟨e, s.best, entry⟩ :: s.pushed⟩

/-- The queue holds the first entry, which is the best one so far. -/
def initial (e : ε) : State ε := ⟨[e], e, [], []⟩

/-- One expansion, whatever the best entry was. -/
def Leads (Expands : ε → ε → ε → Prop) (a b : ε) : Prop := ∃ best, Expands a best b

structure Inv (cost : ε → K) (Expands : ε → ε → ε → Prop) (first : ε) (s : State ε) : Prop where
  least : ∀ e ∈ s.popped, cost s.best ≤ cost e
  seen : s.best = first ∨ s.best ∈ s.popped
  opened : s.popped = [] ∧ s.queue.Perm [first] ∨ first ∈ s.popped
  queue : ∀ e ∈ s.queue, Relation.ReflTransGen (Leads Expands) first e
  popped : ∀ e ∈ s.popped, Relation.ReflTransGen (Leads Expands) first e
  pushed : ∀ p ∈ s.pushed, Expands p.source p.best p.entry ∧
    Relation.ReflTransGen (Leads Expands) first p.source ∧ (p.best = first ∨ p.best ∈ s.popped)

section Runs

variable {cost : ε → K} {Expands : ε → ε → ε → Prop} {first : ε} {s s' : State ε}

theorem inv_initial : Inv cost Expands first (initial first) where
  least := fun e he => (by cases he)
  seen := .inl rfl
  opened := .inl ⟨rfl, List.Perm.refl _⟩
  queue := fun e he => by
    rw [List.mem_singleton.mp he]
  popped := fun e he => (by cases he)
  pushed := fun p hp => (by cases hp)

/-- The cheaper one of the old best entry and the one taken out. -/
theorem cost_selected (cost : ε → K) (e best : ε) :
    cost (if cost e < cost best then e else best) ≤ cost e ∧
      cost (if cost e < cost best then e else best) ≤ cost best := by
  split
  · next h => exact ⟨le_refl _, le_of_lt h⟩
  · next h => exact ⟨le_of_not_gt h, le_refl _⟩

theorem Inv.step (h : Inv cost Expands first s) (hstep : Step cost Expands s s') :
    Inv cost Expands first s' := by
  cases hstep with
  | @pop e rest hperm =>
    obtain ⟨hnew, hold⟩ := cost_selected cost e s.best
    have hmem : e ∈ s.queue := hperm.mem_iff.mpr (List.mem_cons_self ..)
    refine ⟨fun e' he' => ?_, ?_, .inr ?_, fun e' he' => ?_, fun e' he' => ?_, fun p hp => ?_⟩
    · rcases List.mem_cons.mp he' with rfl | he'
      · exact hnew
      · exact le_trans hold (h.least e' he')
    · show (if cost e < cost s.best then e else s.best) = first ∨
        (if cost e < cost s.best then e else s.best) ∈ e :: s.popped
      split
      · exact .inr (List.mem_cons_self ..)
      · exact h.seen.imp_right (List.mem_cons_of_mem _)
    · -- the first entry taken out is the one the queue started with
      rcases h.opened with ⟨-, hfirst⟩ | hfirst
      · rw [← List.mem_singleton.mp (hfirst.mem_iff.mp hmem)]
        exact List.mem_cons_self ..
      · exact List.mem_cons_of_mem _ hfirst
    · exact h.queue e' (hperm.mem_iff.mpr (List.mem_cons_of_mem _ he'))
    · rcases List.mem_cons.mp he' with rfl | he'
      · exact h.queue e' hmem
      · exact h.popped e' he'
    · obtain ⟨hexp, hfrom, hbest⟩ := h.pushed p hp
      exact ⟨hexp, hfrom, hbest.imp_right (List.mem_cons_of_mem _)⟩
  | @push e entry queue hlast hexpands hperm =>
    have hpopped : e ∈ s.popped := List.mem_of_mem_head? hlast
    have hopened : first ∈ s.popped := by
      rcases h.opened with ⟨hnone, -⟩ | hfirst
      · rw [hnone] at hpopped
        cases hpopped
      · exact hfirst
    refine ⟨h.least, h.seen, .inr hopened, fun e' he' => ?_, h.popped, fun p hp => ?_⟩
    · rcases List.mem_cons.mp (hperm.mem_iff.mp he') with rfl | he'
      · exact (h.popped e hpopped).tail ⟨s.best, hexpands⟩
      · exact h.queue e' he'
    · rcases List.mem_cons.mp hp with rfl | hp
      · exact ⟨hexpands, h.popped e hpopped, h.seen⟩
      · exact h.pushed p hp

/-- **A run keeps the invariant.** -/
theorem Inv.run (h : Inv cost Expands first s)
    (hrun : Relation.ReflTransGen (Step cost Expands) s s') : Inv cost Expands first s' := by
  induction hrun with
  | refl => exact h
  | tail _ hstep ih => exact ih.step hstep

/-- Once an entry was taken out, the first one was, and the best one is among them. -/
theorem Inv.taken (h : Inv cost Expands first s) (hne : s.popped ≠ []) :
    first ∈ s.popped ∧ s.best ∈ s.popped := by
  have hfirst : first ∈ s.popped := h.opened.resolve_left fun hnone => hne hnone.1
  refine ⟨hfirst, ?_⟩
  rcases h.seen with heq | hmem
  · rw [heq]
    exact hfirst
  · exact hmem

/-- An entry other than the first one was made by an expansion. -/
theorem first_or_expanded {e : ε} (h : Relation.ReflTransGen (Leads Expands) first e) :
    e = first ∨ ∃ source best, Expands source best e := by
  rcases Relation.ReflTransGen.cases_tail h with rfl | ⟨source, -, best, hexp⟩
  · exact .inl rfl
  · exact .inr ⟨source, best, hexp⟩

end Runs

end Peps.Lib.BestFirst
