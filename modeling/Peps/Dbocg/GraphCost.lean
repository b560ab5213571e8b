import Mathlib.Algebra.Order.BigOperators.Group.List
import Mathlib.Algebra.Order.Field.Basic
import Peps.Dbocg.GraphOrder
import Peps.Dbocg.Substitution

/-!
# `total_cost`

A graph costs the sum of its operators' costs (`Graph.sumCost`). `total_cost` computes it once and
keeps it in `totalCost`; `add_edge` does not reset it. The costs are exact numbers here: `opCost`
gives each operator's.

`preprocess_weights` only takes operators out, so with costs that are not negative its graph costs
no more than the one it is given (`preprocessWeights_sumCost`).
-/

namespace Peps

open Lib

variable {K : Type} [Field K]

namespace Graph

/-- The loop of `total_cost`. -/
def sumCost (opCost : OpBase → K) (g : Graph) : Except PyError K :=
  g.inEdges.keys.foldlM (fun total op => do
    let p ← op.body
    return total + opCost p) 0

end Graph

/-- A `Graph` object with what its `totalCost` holds. -/
structure Costed (K : Type) where
  graph : Graph
  cached : K
deriving DecidableEq

namespace Costed

variable [LinearOrder K]

/-- `total_cost`; the number it returns is the `cached` one afterwards. -/
def totalCost (opCost : OpBase → K) (c : Costed K) : Except PyError (Costed K) :=
  if 0 < c.cached then .ok c
  else do
    let total ← c.graph.sumCost opCost
    return ⟨c.graph, total⟩

/-- A positive `totalCost` is the cost of the graph as it is now. -/
def Fresh (opCost : OpBase → K) (c : Costed K) : Prop :=
  0 < c.cached → c.graph.sumCost opCost = .ok c.cached

theorem totalCost_cases {opCost : OpBase → K} {c c' : Costed K} (h : c.totalCost opCost = .ok c') :
    (0 < c.cached ∧ c' = c) ∨
      c'.graph = c.graph ∧ c.graph.sumCost opCost = .ok c'.cached := by
  unfold totalCost at h
  split at h
  · next hpos =>
    cases h
    exact .inl ⟨hpos, rfl⟩
  · obtain ⟨total, htotal, h⟩ := bind_ok_iff.mp h
    cases h
    exact .inr ⟨rfl, htotal⟩

theorem totalCost_fresh {opCost : OpBase → K} {c c' : Costed K} (h : c.totalCost opCost = .ok c')
    (hfresh : c.Fresh opCost) : c'.graph = c.graph ∧ c.graph.sumCost opCost = .ok c'.cached := by
  rcases totalCost_cases h with ⟨hpos, rfl⟩ | hcomputed
  · exact ⟨rfl, hfresh hpos⟩
  · exact hcomputed

/-- Asked again, a graph whose cost is known gives it. -/
theorem totalCost_known {opCost : OpBase → K} {c : Costed K}
    (h : 0 < c.cached ∨ c.graph.sumCost opCost = .ok c.cached) : c.totalCost opCost = .ok c := by
  unfold totalCost
  split
  · rfl
  · next hpos =>
    rw [h.resolve_left hpos]
    rfl

theorem known_totalCost {opCost : OpBase → K} {c c' : Costed K} (h : c.totalCost opCost = .ok c') :
    0 < c'.cached ∨ c'.graph.sumCost opCost = .ok c'.cached := by
  rcases totalCost_cases h with ⟨hpos, rfl⟩ | ⟨hgraph, hsum⟩
  · exact .inl hpos
  · rw [hgraph]
    exact .inr hsum

end Costed

namespace Graph

/-! ## Sums over the operators -/

section Sums

variable (opCost : OpBase → K)

/-- What an operator adds to the cost. -/
def costOf (op : Op) : K := op.ptr.elim 0 opCost

theorem addCosts_ok_iff (ops : List Op) (start t : K) :
    (ops.foldlM (fun total op => do
      let p ← op.body
      return total + opCost p) start : Except PyError K) = .ok t ↔
      (∀ op ∈ ops, op.ptr ≠ none) ∧ t = start + (ops.map (costOf opCost)).sum := by
  induction ops generalizing start with
  | nil =>
    simp only [List.foldlM_nil, List.not_mem_nil, false_imp_iff, implies_true, true_and,
      List.map_nil, List.sum_nil, add_zero]
    exact ⟨fun h => (Except.ok.inj h).symm, fun h => congrArg Except.ok h.symm⟩
  | cons op ops ih =>
    rw [List.foldlM_cons, bind_ok_iff, List.forall_mem_cons, List.map_cons, List.sum_cons,
      ← add_assoc]
    cases hptr : op.ptr with
    | none => simp [Op.body, hptr]
    | some p =>
      have hbody : op.body = .ok p := by rw [Op.body, hptr]
      have hcost : costOf opCost op = opCost p := by rw [costOf, hptr]; rfl
      rw [hbody, hcost]
      constructor
      · rintro ⟨mid, hmid, hrest⟩
        cases hmid
        obtain ⟨hall, ht⟩ := (ih _).mp hrest
        exact ⟨⟨Option.some_ne_none p, hall⟩, ht⟩
      · rintro ⟨⟨-, hall⟩, ht⟩
        exact ⟨start + opCost p, rfl, (ih _).mpr ⟨hall, ht⟩⟩

theorem sumCost_ok_iff {g : Graph} {t : K} : g.sumCost opCost = .ok t ↔
    (∀ op ∈ g.inEdges.keys, op.ptr ≠ none) ∧ t = (g.inEdges.keys.map (costOf opCost)).sum := by
  rw [sumCost, addCosts_ok_iff, zero_add]

variable [LinearOrder K] [IsStrictOrderedRing K]

/-- **Fewer operators cost no more.** -/
theorem sumCost_le {g g' : Graph} (hcost : ∀ p, 0 ≤ opCost p)
    (hkeys : ∀ k ∈ g'.inEdges.keys, k ∈ g.inEdges.keys) {t : K} (h : g.sumCost opCost = .ok t) :
    ∃ t', g'.sumCost opCost = .ok t' ∧ t' ≤ t := by
  obtain ⟨hall, rfl⟩ := (sumCost_ok_iff opCost).mp h
  refine ⟨_, (sumCost_ok_iff opCost).mpr ⟨fun op hop => hall op (hkeys op hop), rfl⟩, ?_⟩
  obtain ⟨l, hperm, hsub⟩ := List.subperm_of_subset (SortedMap.nodup_keys g'.inEdges) hkeys
  rw [← (hperm.map (costOf opCost)).sum_eq]
  refine (hsub.map (costOf opCost)).sum_le_sum fun c hc => ?_
  obtain ⟨op, -, rfl⟩ := List.mem_map.mp hc
  cases hptr : op.ptr with
  | none => rw [costOf, hptr]; exact le_refl 0
  | some p => rw [costOf, hptr]; exact hcost p

end Sums

/-! ## The operators `preprocess_weights` leaves -/

section Keys

variable {g g' : Graph}

theorem outEdgesOf_inEdges {op : Op} {outList : List Edge}
    (h : g.outEdgesOf op = .ok (outList, g')) : g'.inEdges = g.inEdges := by
  obtain ⟨outEdges, -, h⟩ := bind_ok_iff.mp h
  cases h
  rfl

theorem schedule_inEdges {counted : Op → Bool} {order : List Op}
    (h : g.schedule counted = .ok (order, g')) : g'.inEdges = g.inEdges := by
  refine Kahn.kahn_keeps (I := fun s => s.inEdges = g.inEdges) (fun s v vs s' hs hlook => ?_)
    _ rfl h
  obtain ⟨⟨outList, s1⟩, hread, hlook⟩ := bind_ok_iff.mp hlook
  cases hlook
  rw [outEdgesOf_inEdges hread, hs]

theorem hasLoop_inEdges {loop : Bool} (h : g.hasLoop = .ok (loop, g')) :
    g'.inEdges = g.inEdges := by
  obtain ⟨⟨order, g1⟩, hschedule, h⟩ := bind_ok_iff.mp h
  cases h
  exact schedule_inEdges hschedule

theorem removeEdge_keys {e : Edge} (h : g.removeEdge e = .ok g') :
    g'.inEdges.keys = g.inEdges.keys := by
  simp only [removeEdge, OpMap.removeFrom, bind_ok_iff, pyAssert_eq_ok] at h
  obtain ⟨-, -, -, hdst, outEdges, -, inEdges, ⟨touched, htouch, set, -, hset⟩, h⟩ := h
  cases h
  cases hset
  have hsame : OpMap.touch g.inEdges e.dstOp = .ok g.inEdges := if_pos hdst
  rw [hsame] at htouch
  cases htouch
  exact SortedMap.keys_set ..

theorem inEdgesOf_keys {op : Op} {inList : List Edge} (h : g.inEdgesOf op = .ok (inList, g')) :
    ∀ k ∈ g'.inEdges.keys, k = op ∨ k ∈ g.inEdges.keys := by
  obtain ⟨inEdges, htouch, h⟩ := bind_ok_iff.mp h
  cases h
  exact fun k => ((OpMap.touch_ok htouch).2 k).mp

/-- Reading the edges of the operator may enter it, but it goes in the end. -/
theorem removeNode_keys {op : Op} (h : g.removeNode op = .ok g') :
    ∀ k ∈ g'.inEdges.keys, k ∈ g.inEdges.keys := by
  simp only [removeNode, bind_ok_iff] at h
  obtain ⟨-, -, ⟨outList, g1⟩, hout, -, -, ⟨inList, g2⟩, hin, g3, hedges, ⟨rest, g4⟩, hin', -, -,
    h⟩ := h
  cases h
  have hsame : g3.inEdges.keys = g2.inEdges.keys :=
    foldlM_keeps (P := fun s => s.inEdges.keys = g2.inEdges.keys)
      (fun e _ s s' hs hstep => (removeEdge_keys hstep).trans hs) rfl hedges
  intro k hk
  obtain ⟨hne, hk⟩ := SortedMap.mem_keys_erase.mp hk
  have hk3 := (inEdgesOf_keys hin' k hk).resolve_left hne
  rw [hsame] at hk3
  have hk1 := (inEdgesOf_keys hin k hk3).resolve_left hne
  rwa [outEdgesOf_inEdges hout] at hk1

theorem findIsolated_inEdges {weightOps ops : List Op} {found : Option Op}
    (h : findIsolated weightOps ops g = .ok (found, g')) : g'.inEdges = g.inEdges := by
  induction ops generalizing g with
  | nil =>
    cases h
    rfl
  | cons op ops ih =>
    unfold findIsolated at h
    split at h
    · obtain ⟨⟨outList, g1⟩, hread, h⟩ := bind_ok_iff.mp h
      rw [← outEdgesOf_inEdges hread]
      dsimp only at h
      split at h
      · cases h
        rfl
      · exact ih h
    · exact ih h

theorem removeIsolated_keys {weightOps : List Op} (fuel : Nat)
    (h : removeIsolated weightOps fuel g = .ok g') : ∀ k ∈ g'.inEdges.keys, k ∈ g.inEdges.keys := by
  induction fuel generalizing g with
  | zero => cases h
  | succ fuel ih =>
    unfold removeIsolated at h
    obtain ⟨⟨found, g1⟩, hfind, h⟩ := bind_ok_iff.mp h
    have hsame := findIsolated_inEdges hfind
    cases found with
    | none =>
      cases h
      exact fun k hk => hsame ▸ hk
    | some op =>
      obtain ⟨g2, hremove, h⟩ := bind_ok_iff.mp h
      exact fun k hk => hsame ▸ removeNode_keys hremove k (ih h k hk)

theorem preprocessWeights_keys (hown : ∀ op, ∀ e ∈ g.ins op, e.dstOp = op)
    (h : g.preprocessWeights = .ok g') : ∀ k ∈ g'.inEdges.keys, k ∈ g.inEdges.keys := by
  simp only [preprocessWeights, bind_ok_iff] at h
  obtain ⟨g1, hclone, -, -, ⟨weightOps, g2⟩, hschedule, hremove⟩ := h
  intro k hk
  have hk1 := removeIsolated_keys _ hremove k hk
  rw [schedule_inEdges hschedule] at hk1
  -- the clone has the targets of the edges
  rcases ((addEdges_added hclone).inKeys k).mp hk1 with hnew | ⟨e, he, rfl⟩
  · cases hnew
  · obtain ⟨op, he⟩ := mem_allEdges.mp he
    rw [hown op e he]
    exact OpMap.mem_keys_of_mem_edges he

/-- **`preprocess_weights` does not make a graph dearer.** -/
theorem preprocessWeights_sumCost [LinearOrder K] [IsStrictOrderedRing K] {opCost : OpBase → K}
    (hcost : ∀ p, 0 ≤ opCost p) (hown : ∀ op, ∀ e ∈ g.ins op, e.dstOp = op)
    (h : g.preprocessWeights = .ok g') {t : K} (ht : g.sumCost opCost = .ok t) :
    ∃ t', g'.sumCost opCost = .ok t' ∧ t' ≤ t :=
  sumCost_le opCost hcost (preprocessWeights_keys hown h) ht

end Keys

end Graph

end Peps
