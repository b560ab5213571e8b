import Peps.Dbocg.Graph

/-!
# What adding and removing edges does to a graph

The two maps of a graph are described by their keys and by the edges under each key. Adding
edges puts each one under its two ends and nothing else anywhere (`EdgesAdded`), removing one
takes it away from both. Every invariant of the graph operations is derived from these
descriptions.

A graph is `Consistent` if its two maps hold the same edges, each under its own ends. As long as
the operators in sight have different guids, `add_edge` does not fail (`addEdges_ok`).
-/

namespace Peps

open Lib

/-- Operators in `S` with equal guid are the same operator. -/
def UniqueGuids (S : Op → Prop) : Prop := ∀ a b, S a → S b → a.guid = b.guid → a = b

/-! ## One map -/

namespace OpMap

variable {m m' : OpMap} {op k : Op} {e f : Edge}

theorem edges_of_not_mem (h : k ∉ m.keys) : m.edges k = [] := by
  rw [edges, SortedMap.get?_eq_none_iff.mpr h]
  rfl

theorem mem_keys_of_mem_edges (h : f ∈ m.edges k) : k ∈ m.keys := by
  by_contra hk
  rw [edges_of_not_mem hk] at h
  cases h

theorem nodup_edges (m : OpMap) (k : Op) : (m.edges k).Nodup := by
  unfold edges
  cases m.get? k with
  | none => exact List.nodup_nil
  | some s => exact s.hnodup

theorem edges_eq_of_mem {s : EdgeSet} (h : (k, s) ∈ m.entries) : m.edges k = s.edges := by
  rw [edges, SortedMap.mem_entries_iff.mp h]
  rfl

theorem touch_ok (h : m.touch op = .ok m') :
    (∀ k, m'.edges k = m.edges k) ∧ ∀ k, k ∈ m'.keys ↔ k = op ∨ k ∈ m.keys := by
  unfold touch at h
  split at h
  · next hmem =>
    cases h
    exact ⟨fun _ => rfl, fun k => ⟨Or.inr, fun hk => hk.elim (fun heq => heq ▸ hmem) id⟩⟩
  · next hmem =>
    split at h
    · next hnew =>
      cases h
      refine ⟨fun k => ?_, SortedMap.keys_insertNew hnew⟩
      rw [edges, SortedMap.get?_insertNew hnew]
      split
      · next hk =>
        subst hk
        rw [edges_of_not_mem hmem]
        rfl
      · rfl
    · cases h

/-- A missing operator can be entered when no other one has its guid. -/
theorem touch_succeeds (h : ∀ k ∈ m.keys, k.guid = op.guid → k = op) :
    ∃ m', m.touch op = .ok m' := by
  unfold touch
  split
  · exact ⟨m, rfl⟩
  · next hmem =>
    rw [dif_pos fun k hk heq => hmem (h k hk heq ▸ hk)]
    exact ⟨_, rfl⟩

theorem edges_set (s : EdgeSet) (hop : op ∈ m.keys) (k : Op) :
    OpMap.edges (m.set op s) k = if k = op then s.edges else m.edges k := by
  obtain ⟨old, hold⟩ := SortedMap.mem_keys_iff.mp hop
  rw [edges, SortedMap.get?_set, hold]
  split
  · rfl
  · rfl

theorem getD_edges (m : OpMap) (op : Op) :
    ((m.get? op).getD EdgeSet.empty).edges = m.edges op := by
  unfold edges
  cases m.get? op with
  | none => rfl
  | some s => rfl

theorem addTo_ok (h : m.addTo op e = .ok m') :
    (∀ k f, f ∈ m'.edges k ↔ f ∈ m.edges k ∨ k = op ∧ f = e) ∧
      ∀ k, k ∈ m'.keys ↔ k = op ∨ k ∈ m.keys := by
  unfold addTo at h
  simp only [bind_ok_iff] at h
  obtain ⟨m1, htouch, s, hadd, hset⟩ := h
  cases hset
  obtain ⟨hedges, hkeys⟩ := touch_ok htouch
  have hop : op ∈ m1.keys := (hkeys op).mpr (Or.inl rfl)
  -- the new set has the old edges and `e`
  have hs : ∀ f, f ∈ s.edges ↔ f ∈ m.edges op ∨ f = e := by
    intro f
    have hold := getD_edges m1 op
    rw [hedges op] at hold
    unfold EdgeSet.add at hadd
    split at hadd
    · next hmem =>
      cases hadd
      rw [hold] at hmem ⊢
      exact ⟨Or.inl, fun hf => hf.elim id fun heq => heq ▸ hmem⟩
    · split at hadd
      · cases hadd
      · cases hadd
        rw [mem_insertBy, hold]
        exact Or.comm
  refine ⟨fun k f => ?_, fun k => ?_⟩
  · rw [edges_set s hop]
    split
    · next hk =>
      subst hk
      rw [hs]
      simp
    · next hk =>
      rw [hedges]
      simp [hk]
  · rw [SortedMap.keys_set, hkeys]

theorem add_succeeds {s : EdgeSet} (h : ∀ f ∈ s.edges, e.clashes f = false) :
    ∃ s', s.add e = .ok s' := by
  unfold EdgeSet.add
  split
  · exact ⟨_, rfl⟩
  · rw [if_neg]
    · exact ⟨_, rfl⟩
    · rw [List.any_eq_true]
      rintro ⟨f, hf, hclash⟩
      rw [h f hf] at hclash
      cases hclash

theorem addTo_succeeds (hkey : ∀ k ∈ m.keys, k.guid = op.guid → k = op)
    (hset : ∀ f ∈ m.edges op, e.clashes f = false) : ∃ m', m.addTo op e = .ok m' := by
  obtain ⟨m1, htouch⟩ := touch_succeeds hkey
  obtain ⟨hedges, -⟩ := touch_ok htouch
  obtain ⟨s, hs⟩ : ∃ s, ((m1.get? op).getD EdgeSet.empty).add e = .ok s := by
    refine add_succeeds fun f hf => hset f ?_
    rwa [getD_edges, hedges] at hf
  refine ⟨m1.set op s, ?_⟩
  rw [addTo, htouch]
  show (((m1.get? op).getD EdgeSet.empty).add e >>= fun s => _) = _
  rw [hs]
  rfl

theorem removeFrom_ok (hop : op ∈ m.keys) (he : e ∈ m.edges op) :
    ∃ m', m.removeFrom op e = .ok m' ∧
      (∀ k f, f ∈ m'.edges k ↔ f ∈ m.edges k ∧ ¬ (k = op ∧ f = e)) ∧ m'.keys = m.keys := by
  have htouch : m.touch op = .ok m := if_pos hop
  have hold := getD_edges m op
  have hremove : ((m.get? op).getD EdgeSet.empty).remove e =
      .ok ⟨((m.get? op).getD EdgeSet.empty).edges.erase e,
        ((m.get? op).getD EdgeSet.empty).hnodup.erase e⟩ := by
    unfold EdgeSet.remove
    rw [if_pos (by rwa [hold])]
  refine ⟨m.set op ⟨((m.get? op).getD EdgeSet.empty).edges.erase e,
      ((m.get? op).getD EdgeSet.empty).hnodup.erase e⟩, ?_, fun k f => ?_, SortedMap.keys_set ..⟩
  · rw [removeFrom, htouch]
    show (((m.get? op).getD EdgeSet.empty).remove e >>= fun s => _) = _
    rw [hremove]
    rfl
  · rw [edges_set _ hop]
    split
    · next hk =>
      subst hk
      rw [(EdgeSet.hnodup _).mem_erase_iff, hold]
      simp [and_comm]
    · next hk => simp [hk]

end OpMap

/-! ## Adding edges to a graph -/

namespace Graph

/-- `op` has an entry in one of the maps. -/
def Mentions (g : Graph) (op : Op) : Prop := op ∈ g.inEdges.keys ∨ op ∈ g.outEdges.keys

theorem nodup_ins (g : Graph) (op : Op) : (g.ins op).Nodup := OpMap.nodup_edges _ _

theorem nodup_outs (g : Graph) (op : Op) : (g.outs op).Nodup := OpMap.nodup_edges _ _

structure EdgesAdded (g : Graph) (es : List Edge) (g' : Graph) : Prop where
  ins : ∀ k f, f ∈ g'.ins k ↔ f ∈ g.ins k ∨ f ∈ es ∧ f.dstOp = k
  outs : ∀ k f, f ∈ g'.outs k ↔ f ∈ g.outs k ∨ f ∈ es ∧ f.srcOp = k
  inKeys : ∀ k, k ∈ g'.inEdges.keys ↔ k ∈ g.inEdges.keys ∨ ∃ e ∈ es, e.dstOp = k
  outKeys : ∀ k, k ∈ g'.outEdges.keys ↔ k ∈ g.outEdges.keys ∨ ∃ e ∈ es, e.srcOp = k

theorem EdgesAdded.refl (g : Graph) : EdgesAdded g [] g := by
  constructor <;> simp

theorem EdgesAdded.trans {g g1 g2 : Graph} {es fs : List Edge} (h1 : EdgesAdded g es g1)
    (h2 : EdgesAdded g1 fs g2) : EdgesAdded g (es ++ fs) g2 where
  ins := fun k f => by rw [h2.ins, h1.ins, List.mem_append]; tauto
  outs := fun k f => by rw [h2.outs, h1.outs, List.mem_append]; tauto
  inKeys := fun k => by
    rw [h2.inKeys, h1.inKeys]
    simp only [List.mem_append, or_and_right, exists_or, or_assoc]
  outKeys := fun k => by
    rw [h2.outKeys, h1.outKeys]
    simp only [List.mem_append, or_and_right, exists_or, or_assoc]

theorem addEdge_ok {g g' : Graph} {e : Edge}
    (h : g.addEdge e.srcOp e.dstOp e.srcIdx e.dstIdx = .ok g') : EdgesAdded g [e] g' := by
  unfold addEdge at h
  simp only [bind_ok_iff] at h
  obtain ⟨in1, hin1, out1, hout1, in2, hin2, out2, hout2, hg⟩ := h
  cases hg
  obtain ⟨hi1, hik1⟩ := OpMap.touch_ok hin1
  obtain ⟨ho1, hok1⟩ := OpMap.touch_ok hout1
  obtain ⟨hi2, hik2⟩ := OpMap.addTo_ok hin2
  obtain ⟨ho2, hok2⟩ := OpMap.addTo_ok hout2
  refine ⟨fun k f => ?_, fun k f => ?_, fun k => ?_, fun k => ?_⟩
  · show f ∈ OpMap.edges in2 k ↔ f ∈ OpMap.edges g.inEdges k ∨ _
    rw [hi2, hi1, List.mem_singleton]
    constructor
    · rintro (hf | ⟨rfl, rfl⟩)
      · exact Or.inl hf
      · exact Or.inr ⟨rfl, rfl⟩
    · rintro (hf | ⟨rfl, rfl⟩)
      · exact Or.inl hf
      · exact Or.inr ⟨rfl, rfl⟩
  · show f ∈ OpMap.edges out2 k ↔ f ∈ OpMap.edges g.outEdges k ∨ _
    rw [ho2, ho1, List.mem_singleton]
    constructor
    · rintro (hf | ⟨rfl, rfl⟩)
      · exact Or.inl hf
      · exact Or.inr ⟨rfl, rfl⟩
    · rintro (hf | ⟨rfl, rfl⟩)
      · exact Or.inl hf
      · exact Or.inr ⟨rfl, rfl⟩
  · rw [hik2, hik1]
    simp only [List.mem_singleton, exists_eq_left]
    tauto
  · rw [hok2, hok1]
    simp only [List.mem_singleton, exists_eq_left]
    tauto

theorem addEdges_added {g g' : Graph} {es : List Edge} (h : g.addEdges es = .ok g') :
    EdgesAdded g es g' := by
  unfold addEdges at h
  induction es generalizing g with
  | nil =>
    cases h
    exact EdgesAdded.refl _
  | cons e es ih =>
    rw [List.foldlM_cons, bind_ok_iff] at h
    obtain ⟨g1, hg1, hrest⟩ := h
    exact (addEdge_ok hg1).trans (ih hrest)

/-! ## Consistent graphs -/

structure Consistent (g : Graph) : Prop where
  inOwn : ∀ op, ∀ e ∈ g.ins op, e.dstOp = op
  outOwn : ∀ op, ∀ e ∈ g.outs op, e.srcOp = op
  dual : ∀ e, e ∈ g.ins e.dstOp ↔ e ∈ g.outs e.srcOp

theorem consistent_new : Consistent Graph.new := by
  have hin : ∀ op, Graph.new.ins op = [] := fun _ => rfl
  have hout : ∀ op, Graph.new.outs op = [] := fun _ => rfl
  refine ⟨fun op e he => ?_, fun op e he => ?_, fun e => by rw [hin, hout]⟩
  · rw [hin] at he
    cases he
  · rw [hout] at he
    cases he

namespace Consistent

variable {g g' : Graph} {es : List Edge}

theorem added (h : Consistent g) (hadd : EdgesAdded g es g') : Consistent g' where
  inOwn := fun op e he => by
    rcases (hadd.ins op e).mp he with he | ⟨-, heq⟩
    · exact h.inOwn op e he
    · exact heq
  outOwn := fun op e he => by
    rcases (hadd.outs op e).mp he with he | ⟨-, heq⟩
    · exact h.outOwn op e he
    · exact heq
  dual := fun e => by
    rw [hadd.ins, hadd.outs, h.dual]
    simp

theorem src_mem (h : Consistent g) {op : Op} {e : Edge} (he : e ∈ g.ins op) :
    e.srcOp ∈ g.outEdges.keys := by
  have hown := h.inOwn op e he
  subst hown
  exact OpMap.mem_keys_of_mem_edges ((h.dual e).mp he)

theorem dst_mem (h : Consistent g) {op : Op} {e : Edge} (he : e ∈ g.outs op) :
    e.dstOp ∈ g.inEdges.keys := by
  have hown := h.outOwn op e he
  subst hown
  exact OpMap.mem_keys_of_mem_edges ((h.dual e).mpr he)

end Consistent

theorem clashes_eq_false {S : Op → Prop} (hS : UniqueGuids S) {e f : Edge} (hes : S e.srcOp)
    (hed : S e.dstOp) (hfs : S f.srcOp) (hfd : S f.dstOp) : e.clashes f = false := by
  unfold Edge.clashes Op.clashes
  simp only [Bool.or_eq_false_iff, Bool.and_eq_false_iff, decide_eq_false_iff_not, not_and, not_not]
  exact ⟨hS _ _ hes hfs, Or.inr (hS _ _ hed hfd)⟩

/-- **Edges between operators of different guids can be added.** -/
theorem addEdges_ok {S : Op → Prop} (hS : UniqueGuids S) {g : Graph} {es : List Edge}
    (h : Consistent g) (hg : ∀ op, g.Mentions op → S op)
    (hes : ∀ e ∈ es, S e.srcOp ∧ S e.dstOp) : ∃ g', g.addEdges es = .ok g' := by
  induction es generalizing g with
  | nil => exact ⟨g, rfl⟩
  | cons e es ih =>
    obtain ⟨hsrc, hdst⟩ := hes e (List.mem_cons_self ..)
    have hinKey : ∀ k ∈ g.inEdges.keys, k.guid = e.dstOp.guid → k = e.dstOp :=
      fun k hk heq => hS _ _ (hg k (Or.inl hk)) hdst heq
    have houtKey : ∀ k ∈ g.outEdges.keys, k.guid = e.srcOp.guid → k = e.srcOp :=
      fun k hk heq => hS _ _ (hg k (Or.inr hk)) hsrc heq
    obtain ⟨in1, hin1⟩ := OpMap.touch_succeeds hinKey
    obtain ⟨out1, hout1⟩ := OpMap.touch_succeeds houtKey
    obtain ⟨hi1, hik1⟩ := OpMap.touch_ok hin1
    obtain ⟨ho1, hok1⟩ := OpMap.touch_ok hout1
    obtain ⟨in2, hin2⟩ : ∃ in2, OpMap.addTo in1 e.dstOp e = .ok in2 := by
      refine OpMap.addTo_succeeds (fun k hk heq => ?_) fun f hf => ?_
      · rcases (hik1 k).mp hk with rfl | hk
        · rfl
        · exact hinKey k hk heq
      · rw [hi1] at hf
        refine clashes_eq_false hS hsrc hdst (hg _ (Or.inr (h.src_mem hf))) ?_
        rw [h.inOwn _ f hf]
        exact hdst
    obtain ⟨out2, hout2⟩ : ∃ out2, OpMap.addTo out1 e.srcOp e = .ok out2 := by
      refine OpMap.addTo_succeeds (fun k hk heq => ?_) fun f hf => ?_
      · rcases (hok1 k).mp hk with rfl | hk
        · rfl
        · exact houtKey k hk heq
      · rw [ho1] at hf
        refine clashes_eq_false hS hsrc hdst ?_ (hg _ (Or.inl (h.dst_mem hf)))
        rw [h.outOwn _ f hf]
        exact hsrc
    have hstep : g.addEdge e.srcOp e.dstOp e.srcIdx e.dstIdx = .ok ⟨in2, out2⟩ := by
      simp only [addEdge, hin1, hout1, hin2, hout2, bind, Except.bind]
    have hadd := addEdge_ok hstep
    have hg' : ∀ op, Mentions ⟨in2, out2⟩ op → S op := by
      intro op hop
      rcases hop with hop | hop
      · rcases (hadd.inKeys op).mp hop with hop | ⟨f, hf, rfl⟩
        · exact hg op (Or.inl hop)
        · rwa [List.mem_singleton.mp hf]
      · rcases (hadd.outKeys op).mp hop with hop | ⟨f, hf, rfl⟩
        · exact hg op (Or.inr hop)
        · rwa [List.mem_singleton.mp hf]
    obtain ⟨g', hrest⟩ := ih (h.added hadd) hg' fun f hf => hes f (List.mem_cons_of_mem _ hf)
    refine ⟨g', ?_⟩
    unfold addEdges at hrest ⊢
    rw [List.foldlM_cons, hstep]
    exact hrest

theorem mem_allEdges {g : Graph} {e : Edge} :
    e ∈ g.allEdges ↔ ∃ op, e ∈ g.ins op := by
  unfold allEdges
  rw [List.mem_flatMap]
  constructor
  · rintro ⟨entry, hmem, he⟩
    refine ⟨entry.1, ?_⟩
    show e ∈ OpMap.edges g.inEdges entry.1
    rwa [OpMap.edges_eq_of_mem hmem]
  · rintro ⟨op, he⟩
    obtain ⟨s, hs⟩ := SortedMap.mem_keys_iff.mp (OpMap.mem_keys_of_mem_edges he)
    refine ⟨(op, s), SortedMap.mem_entries_iff.mpr hs, ?_⟩
    rwa [← OpMap.edges_eq_of_mem (SortedMap.mem_entries_iff.mpr hs)]

end Graph

end Peps
