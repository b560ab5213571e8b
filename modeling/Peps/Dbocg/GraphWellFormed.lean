import Peps.Dbocg.GraphOrder

/-!
# Well-formed graphs

The invariant the graph operations rely on: the two maps hold the same edges, every operator that
has in-edges has one for each of its inputs, and guids tell operators apart. Edges into new
operators keep it (`WellFormed.extend`); from it follows that `get_input_edges` fills every cell
and that `preprocess_weights`, which rebuilds the graph and then removes operators one by one,
never fails (`preprocessWeights_ok`).
-/

namespace Peps

open Lib

-- operators that read what other operators computed
def Op.computes (op : Op) : Prop := op.type ≠ some .OP_INPUT ∧ op.type ≠ some .OP_WEIGHT

namespace Graph

/-- Among the edges `es`, operator `op` has exactly one for each of its inputs. -/
structure SlotsFilled (es : Edge → Prop) (op : Op) : Prop where
  bound : ∀ e, es e → e.dstIdx < op.numInputs
  one : ∀ i < op.numInputs, ∃ e, es e ∧ e.dstIdx = i
  unique : ∀ e f, es e → es f → e.dstIdx = f.dstIdx → e = f

structure WellFormed (g : Graph) : Prop extends Consistent g where
  slots : ∀ op ∈ g.inEdges.keys, SlotsFilled (· ∈ g.ins op) op
  unique : UniqueGuids g.Mentions
  body : ∀ op ∈ g.inEdges.keys, op.ptr ≠ none
  arity : ∀ op ∈ g.inEdges.keys, op.numInputs = 1 ∨ op.numInputs = 2
  numbered : ∀ op ∈ g.inEdges.keys, GUID_PRESERVED < op.guid
  fed : ∀ op ∈ g.inEdges.keys, Op.computes op → ∀ e ∈ g.ins op, e.srcOp.ptr ≠ none

theorem wellFormed_new : WellFormed Graph.new where
  toConsistent := consistent_new
  slots := fun op hop => (by cases hop)
  unique := fun a b ha => (by rcases ha with ha | ha <;> cases ha)
  body := fun op hop => (by cases hop)
  arity := fun op hop => (by cases hop)
  numbered := fun op hop => (by cases hop)
  fed := fun op hop => (by cases hop)

namespace WellFormed

variable {g g' : Graph}

theorem reads (hg : WellFormed g) (h : Reads g g') : WellFormed g' where
  toConsistent := h.consistent hg.toConsistent
  slots := fun op hop => by
    rw [h.ins]
    exact hg.slots op (h.inEdges ▸ hop)
  unique := h.uniqueGuids hg.unique
  body := fun op hop => hg.body op (h.inEdges ▸ hop)
  arity := fun op hop => hg.arity op (h.inEdges ▸ hop)
  numbered := fun op hop => hg.numbered op (h.inEdges ▸ hop)
  fed := fun op hop hc => by
    rw [h.ins]
    exact hg.fed op (h.inEdges ▸ hop) hc

/-- **Edges into new operators**, which fill the inputs of each. -/
theorem extend (hg : WellFormed g) {es : List Edge} (hadd : EdgesAdded g es g')
    (hnew : ∀ e ∈ es, e.dstOp ∉ g.inEdges.keys)
    (hslots : ∀ e ∈ es, SlotsFilled (fun f => f ∈ es ∧ f.dstOp = e.dstOp) e.dstOp)
    (hbody : ∀ e ∈ es, e.dstOp.ptr ≠ none ∧ (e.dstOp.numInputs = 1 ∨ e.dstOp.numInputs = 2) ∧
      GUID_PRESERVED < e.dstOp.guid)
    (hfed : ∀ e ∈ es, Op.computes e.dstOp → e.srcOp.ptr ≠ none)
    (huniq : UniqueGuids g'.Mentions) : WellFormed g' := by
  -- an operator is old and has its old edges, or it is new and has edges of `es`
  have hold : ∀ op ∈ g.inEdges.keys, ∀ f, f ∈ g'.ins op ↔ f ∈ g.ins op := by
    intro op hop f
    rw [hadd.ins]
    refine ⟨fun h => h.elim id fun ⟨hf, heq⟩ => absurd (heq ▸ hop) (hnew f hf), Or.inl⟩
  have hfresh : ∀ e ∈ es, ∀ f, f ∈ g'.ins e.dstOp ↔ f ∈ es ∧ f.dstOp = e.dstOp := by
    intro e he f
    rw [hadd.ins]
    refine ⟨fun h => h.elim (fun hf => ?_) id, Or.inr⟩
    exact absurd (OpMap.mem_keys_of_mem_edges hf) (hnew e he)
  have hkey : ∀ op ∈ g'.inEdges.keys, op ∈ g.inEdges.keys ∨ ∃ e ∈ es, e.dstOp = op :=
    fun op hop => (hadd.inKeys op).mp hop
  refine ⟨hg.toConsistent.added hadd, fun op hop => ?_, huniq, fun op hop => ?_,
    fun op hop => ?_, fun op hop => ?_, fun op hop hc f hf => ?_⟩
  · rcases hkey op hop with hop | ⟨e, he, rfl⟩
    · have h := hg.slots op hop
      exact ⟨fun f hf => h.bound f ((hold op hop f).mp hf),
        fun i hi => (h.one i hi).imp fun f hf => ⟨(hold op hop f).mpr hf.1, hf.2⟩,
        fun a b ha hb => h.unique a b ((hold op hop a).mp ha) ((hold op hop b).mp hb)⟩
    · have h := hslots e he
      exact ⟨fun f hf => h.bound f ((hfresh e he f).mp hf),
        fun i hi => (h.one i hi).imp fun f hf => ⟨(hfresh e he f).mpr hf.1, hf.2⟩,
        fun a b ha hb => h.unique a b ((hfresh e he a).mp ha) ((hfresh e he b).mp hb)⟩
  · rcases hkey op hop with hop | ⟨e, he, rfl⟩
    · exact hg.body op hop
    · exact (hbody e he).1
  · rcases hkey op hop with hop | ⟨e, he, rfl⟩
    · exact hg.arity op hop
    · exact (hbody e he).2.1
  · rcases hkey op hop with hop | ⟨e, he, rfl⟩
    · exact hg.numbered op hop
    · exact (hbody e he).2.2
  · rcases hkey op hop with hop | ⟨e, he, rfl⟩
    · exact hg.fed op hop hc f ((hold op hop f).mp hf)
    · obtain ⟨hf, heq⟩ := (hfresh e he f).mp hf
      exact hfed f hf (heq ▸ hc)

/-! ## `get_input_edges` -/

theorem length_ins (hg : WellFormed g) {op : Op} (hop : op ∈ g.inEdges.keys) :
    (g.ins op).length = op.numInputs := by
  have h := hg.slots op hop
  -- the slots of the in-edges are `0 … numInputs - 1`, each once
  have hperm : ((g.ins op).map Edge.dstIdx).Perm (List.range op.numInputs) := by
    rw [List.perm_ext_iff_of_nodup _ List.nodup_range]
    · intro i
      rw [List.mem_map, List.mem_range]
      exact ⟨fun ⟨e, he, heq⟩ => heq ▸ h.bound e he, h.one i⟩
    · exact (nodup_ins g op).map_on fun e he f hf => h.unique e f he hf
  have hlen := hperm.length_eq
  rwa [List.length_map, List.length_range] at hlen

/-- Filling the cells, one edge after the other; `done` are filled. -/
theorem fillCells_ok {op : Op} (h : SlotsFilled (· ∈ g.ins op) op) (es done : List Edge)
    (cells : List (Option Edge)) (heq : g.ins op = done ++ es)
    (hcells : cells.length = op.numInputs) (hdone : ∀ e ∈ done, cells[e.dstIdx]? = some (some e)) :
    ∃ cells', es.foldlM fillCell cells = .ok cells' ∧ cells'.length = op.numInputs ∧
      ∀ e ∈ g.ins op, cells'[e.dstIdx]? = some (some e) := by
  induction es generalizing done cells with
  | nil =>
    rw [List.append_nil] at heq
    exact ⟨cells, rfl, hcells, heq ▸ hdone⟩
  | cons e es ih =>
    have he : e ∈ g.ins op := by rw [heq]; simp
    have hlt : e.dstIdx < cells.length := by rw [hcells]; exact h.bound e he
    have hdone' : ∀ f ∈ done ++ [e], (cells.set e.dstIdx (some e))[f.dstIdx]? = some (some f) := by
      intro f hf
      rcases List.mem_append.mp hf with hf | hf
      · by_cases hslot : e.dstIdx = f.dstIdx
        · have hfin : f ∈ g.ins op := by rw [heq]; exact List.mem_append_left _ hf
          rw [h.unique f e hfin he hslot.symm, List.getElem?_set_self hlt]
        · rw [List.getElem?_set_ne hslot]
          exact hdone f hf
      · rw [List.mem_singleton.mp hf, List.getElem?_set_self hlt]
    obtain ⟨cells', hrun, hlen, hall⟩ :=
      ih (done ++ [e]) (cells.set e.dstIdx (some e)) (by rw [heq]; simp)
        (by rw [List.length_set, hcells]) hdone'
    refine ⟨cells', ?_, hlen, hall⟩
    rw [List.foldlM_cons, fillCell, if_pos hlt]
    exact hrun

/-- **`get_input_edges` leaves no hole**: cell `i` holds the in-edge of slot `i`. A pooling
operator gets its first cell only. -/
theorem getInputEdges_ok (hg : WellFormed g) {op : Op} (hop : op ∈ g.inEdges.keys) :
    ∃ cells, g.getInputEdges op = .ok cells ∧
      (∀ i < cells.length, ∃ e ∈ g.ins op, e.dstIdx = i ∧ cells[i]? = some (some e)) ∧
      cells.length = if op.type = some .OP_POOL2D_MAX ∨ op.type = some .OP_POOL2D_AVG then 1
        else op.numInputs := by
  have h := hg.slots op hop
  obtain ⟨cells, hrun, hcells, hall⟩ :=
    fillCells_ok h (g.ins op) [] (List.replicate (g.ins op).length none) rfl
      (by rw [List.length_replicate, hg.length_ins hop]) fun e he => (by cases he)
  have hcell : ∀ i < op.numInputs, ∃ e ∈ g.ins op, e.dstIdx = i ∧ cells[i]? = some (some e) := by
    intro i hi
    obtain ⟨e, he, rfl⟩ := h.one i hi
    exact ⟨e, he, rfl, hall e he⟩
  obtain ⟨p, hp⟩ := Option.ne_none_iff_exists'.mp (hg.body op hop)
  have htype : typeOf op = .ok p.type := by rw [typeOf, hp]
  have hkind : (op.type = some .OP_POOL2D_MAX ∨ op.type = some .OP_POOL2D_AVG) ↔
      (p.type = .OP_POOL2D_MAX ∨ p.type = .OP_POOL2D_AVG) := by
    rw [Op.type, hp]
    simp
  have harity := hg.arity op hop
  unfold getInputEdges
  rw [show pyAssert (op ∈ g.inEdges.keys) = .ok () from pyAssert_eq_ok.mpr hop]
  show ∃ out, (List.foldlM _ _ _ >>= fun cells => _) = Except.ok out ∧ _
  rw [hrun]
  show ∃ out, (typeOf op >>= fun type => _) = Except.ok out ∧ _
  rw [htype]
  show ∃ out, (if p.type = .OP_POOL2D_MAX ∨ p.type = .OP_POOL2D_AVG then _ else _) =
    Except.ok out ∧ _
  simp only [hkind]
  by_cases hpool : p.type = .OP_POOL2D_MAX ∨ p.type = .OP_POOL2D_AVG
  · rw [if_pos hpool, if_pos hpool, show pyAssert (cells.length = 1 ∨ cells.length = 2) = .ok () from
      pyAssert_eq_ok.mpr (by rwa [hcells])]
    refine ⟨if cells.length = 2 then cells.dropLast else cells, rfl, fun i hi => ?_, ?_⟩
    · split at hi
      · next htwo =>
        rw [List.length_dropLast] at hi
        obtain ⟨e, he, heq, hget⟩ := hcell i (by omega)
        refine ⟨e, he, heq, ?_⟩
        rw [if_pos htwo, List.getElem?_dropLast, if_pos hi]
        exact hget
      · next htwo =>
        rw [if_neg htwo]
        exact hcell i (by omega)
    · split
      · rw [List.length_dropLast]
        omega
      · omega
  · rw [if_neg hpool, if_neg hpool]
    exact ⟨cells, rfl, fun i hi => hcell i (by omega), hcells⟩

/-! ## Removing operators -/

structure EdgesRemoved (g : Graph) (es : List Edge) (g' : Graph) : Prop where
  ins : ∀ k f, f ∈ g'.ins k ↔ f ∈ g.ins k ∧ f ∉ es
  outs : ∀ k f, f ∈ g'.outs k ↔ f ∈ g.outs k ∧ f ∉ es
  inKeys : g'.inEdges.keys = g.inEdges.keys
  outKeys : g'.outEdges.keys = g.outEdges.keys

theorem EdgesRemoved.consistent {es : List Edge} (h : EdgesRemoved g es g') (hg : Consistent g) :
    Consistent g' where
  inOwn := fun op e he => hg.inOwn op e ((h.ins op e).mp he).1
  outOwn := fun op e he => hg.outOwn op e ((h.outs op e).mp he).1
  dual := fun e => by rw [h.ins, h.outs, hg.dual]

/-- `remove_edge` on an edge of the graph passes its assertions. -/
theorem removeEdge_ok (hg : Consistent g) {e : Edge} (he : e ∈ g.ins e.dstOp) :
    ∃ g', g.removeEdge e = .ok g' ∧ EdgesRemoved g [e] g' := by
  have hin : e.dstOp ∈ g.inEdges.keys := OpMap.mem_keys_of_mem_edges he
  have hout : e.srcOp ∈ g.outEdges.keys := hg.src_mem he
  obtain ⟨outEdges, hrout, houts, hoKeys⟩ := OpMap.removeFrom_ok hout ((hg.dual e).mp he)
  obtain ⟨inEdges, hrin, hins, hiKeys⟩ := OpMap.removeFrom_ok hin he
  refine ⟨⟨inEdges, outEdges⟩, ?_, ⟨fun k f => ?_, fun k f => ?_, hiKeys, hoKeys⟩⟩
  · rw [removeEdge, show pyAssert (e.srcOp ∈ g.outEdges.keys) = .ok () from pyAssert_eq_ok.mpr hout,
      show pyAssert (e.dstOp ∈ g.inEdges.keys) = .ok () from pyAssert_eq_ok.mpr hin]
    show (OpMap.removeFrom g.outEdges e.srcOp e >>= fun _ => _) = _
    rw [hrout]
    show (OpMap.removeFrom g.inEdges e.dstOp e >>= fun _ => _) = _
    rw [hrin]
    rfl
  · show f ∈ OpMap.edges inEdges k ↔ f ∈ OpMap.edges g.inEdges k ∧ f ∉ [e]
    rw [hins, List.mem_singleton]
    refine and_congr_right fun hf => not_congr ⟨And.right, fun heq => ⟨?_, heq⟩⟩
    rw [← hg.inOwn k f hf, heq]
  · show f ∈ OpMap.edges outEdges k ↔ f ∈ OpMap.edges g.outEdges k ∧ f ∉ [e]
    rw [houts, List.mem_singleton]
    refine and_congr_right fun hf => not_congr ⟨And.right, fun heq => ⟨?_, heq⟩⟩
    rw [← hg.outOwn k f hf, heq]

theorem removeEdges_ok (es : List Edge) (hg : Consistent g) (hnodup : es.Nodup)
    (hes : ∀ e ∈ es, e ∈ g.ins e.dstOp) :
    ∃ g', es.foldlM removeEdge g = .ok g' ∧ EdgesRemoved g es g' := by
  induction es generalizing g with
  | nil => exact ⟨g, rfl, by simp, by simp, rfl, rfl⟩
  | cons e es ih =>
    obtain ⟨hnot, hnodup⟩ := List.nodup_cons.mp hnodup
    obtain ⟨g1, hstep, h1⟩ := removeEdge_ok hg (hes e (List.mem_cons_self ..))
    have hes1 : ∀ f ∈ es, f ∈ g1.ins f.dstOp := by
      intro f hf
      rw [h1.ins, List.mem_singleton]
      exact ⟨hes f (List.mem_cons_of_mem _ hf), fun heq => hnot (heq ▸ hf)⟩
    obtain ⟨g2, hrest, h2⟩ := ih (h1.consistent hg) hnodup hes1
    refine ⟨g2, ?_, fun k f => ?_, fun k f => ?_, h2.inKeys.trans h1.inKeys,
      h2.outKeys.trans h1.outKeys⟩
    · rw [List.foldlM_cons, hstep]
      exact hrest
    · rw [h2.ins, h1.ins, List.mem_singleton, List.mem_cons, not_or, and_assoc]
    · rw [h2.outs, h1.outs, List.mem_singleton, List.mem_cons, not_or, and_assoc]

/-- `op` and the edges that lead to it are gone. -/
structure NodeRemoved (g : Graph) (op : Op) (g' : Graph) : Prop where
  ins : ∀ k f, f ∈ g'.ins k ↔ f ∈ g.ins k ∧ k ≠ op
  keys : ∀ k, k ∈ g'.inEdges.keys ↔ k ≠ op ∧ k ∈ g.inEdges.keys
  fewer : g'.inEdges.keys.length < g.inEdges.keys.length
  mentions : ∀ k, g'.Mentions k → g.Mentions k

/-- **`remove_node`** on an operator that nothing reads. -/
theorem removeNode_ok (hg : WellFormed g) {op : Op} (hin : op ∈ g.inEdges.keys)
    (hout : op ∈ g.outEdges.keys) (hunread : g.outs op = []) :
    ∃ g', g.removeNode op = .ok g' ∧ WellFormed g' ∧ NodeRemoved g op g' := by
  obtain ⟨g1, hremove, h1⟩ := removeEdges_ok (g.ins op) hg.toConsistent (nodup_ins g op)
    fun e he => (by rw [hg.inOwn op e he]; exact he)
  have hempty : g1.ins op = [] := by
    rw [List.eq_nil_iff_forall_not_mem]
    intro f hf
    exact ((h1.ins op f).mp hf).2 ((h1.ins op f).mp hf).1
  let g' : Graph := ⟨g1.inEdges.erase op, g1.outEdges.erase op⟩
  have hrun : g.removeNode op = .ok g' := by
    rw [removeNode, show pyAssert (op ∈ g.outEdges.keys) = .ok () from pyAssert_eq_ok.mpr hout]
    show (g.outEdgesOf op >>= fun _ => _) = _
    rw [outEdgesOf_of_mem hout, hunread]
    show (g.inEdgesOf op >>= fun _ => _) = _
    rw [inEdgesOf_ok hin]
    show (List.foldlM removeEdge g (g.ins op) >>= fun _ => _) = _
    rw [hremove]
    show (g1.inEdgesOf op >>= fun _ => _) = _
    rw [inEdgesOf_ok (by rw [h1.inKeys]; exact hin), hempty]
    rfl
  -- the edges that are left: those that do not lead to `op`
  have hins : ∀ k f, f ∈ g'.ins k ↔ f ∈ g.ins k ∧ k ≠ op := by
    intro k f
    show f ∈ OpMap.edges (g1.inEdges.erase op) k ↔ _
    rw [OpMap.edges, SortedMap.get?_erase]
    split
    · next hk => simp [hk]
    · next hk =>
      show f ∈ g1.ins k ↔ _
      rw [h1.ins]
      refine and_congr_right fun hf => ⟨fun _ => hk, fun _ hop => hk ?_⟩
      rw [← hg.inOwn k f hf, hg.inOwn op f hop]
  have houts : ∀ k f, f ∈ g'.outs k ↔ f ∈ g.outs k ∧ f.dstOp ≠ op := by
    intro k f
    show f ∈ OpMap.edges (g1.outEdges.erase op) k ↔ _
    rw [OpMap.edges, SortedMap.get?_erase]
    split
    · next hk => simp [hk, hunread]
    · show f ∈ g1.outs k ↔ _
      rw [h1.outs]
      refine and_congr_right fun hf => not_congr ⟨fun hop => hg.inOwn op f hop, fun heq => ?_⟩
      have hown := hg.outOwn k f hf
      subst hown
      rw [← heq]
      exact (hg.dual f).mpr hf
  have hkeys : ∀ k, k ∈ g'.inEdges.keys ↔ k ≠ op ∧ k ∈ g.inEdges.keys := by
    intro k
    rw [← h1.inKeys]
    exact SortedMap.mem_keys_erase
  have hmention : ∀ k, g'.Mentions k → g.Mentions k := by
    rintro k (hk | hk)
    · exact Or.inl ((hkeys k).mp hk).2
    · have hk1 := (SortedMap.mem_keys_erase.mp hk).2
      rw [h1.outKeys] at hk1
      exact Or.inr hk1
  have hlen : g'.inEdges.keys.length < g.inEdges.keys.length := by
    rw [← h1.inKeys]
    exact SortedMap.length_keys_erase (by rw [h1.inKeys]; exact hin)
  refine ⟨g', hrun, ⟨⟨fun k f hf => ?_, fun k f hf => ?_, fun f => ?_⟩, fun k hk => ?_,
    fun a b ha hb => hg.unique a b (hmention a ha) (hmention b hb), fun k hk => ?_, fun k hk => ?_,
    fun k hk => ?_, fun k hk hc f hf => ?_⟩, hins, hkeys, hlen, hmention⟩
  · exact hg.inOwn k f ((hins k f).mp hf).1
  · exact hg.outOwn k f ((houts k f).mp hf).1
  · rw [hins, houts, hg.dual]
  · obtain ⟨hne, hk⟩ := (hkeys k).mp hk
    have h := hg.slots k hk
    exact ⟨fun f hf => h.bound f ((hins k f).mp hf).1,
      fun i hi => (h.one i hi).imp fun f hf => ⟨(hins k f).mpr ⟨hf.1, hne⟩, hf.2⟩,
      fun a b ha hb => h.unique a b ((hins k a).mp ha).1 ((hins k b).mp hb).1⟩
  · exact hg.body k ((hkeys k).mp hk).2
  · exact hg.arity k ((hkeys k).mp hk).2
  · exact hg.numbered k ((hkeys k).mp hk).2
  · exact hg.fed k ((hkeys k).mp hk).2 hc f ((hins k f).mp hf).1

/-! ## `preprocess_weights` -/

theorem findIsolated_ok (weightOps ops : List Op) (hg : WellFormed g)
    (hops : ∀ op ∈ ops, op ∈ g.inEdges.keys) :
    ∃ found g', findIsolated weightOps ops g = .ok (found, g') ∧ Reads g g' ∧
      (found = none → ∀ op ∈ ops, op ∈ weightOps → g.outs op ≠ []) ∧
      ∀ op, found = some op → op ∈ weightOps ∧
        op ∈ g'.inEdges.keys ∧ op ∈ g'.outEdges.keys ∧ g'.outs op = [] := by
  induction ops generalizing g with
  | nil =>
    exact ⟨none, g, rfl, Reads.refl g, fun _ op hop => (by cases hop), fun op hop => (by cases hop)⟩
  | cons op ops ih =>
    have hop := hops op (List.mem_cons_self ..)
    have hops' : ∀ k ∈ ops, k ∈ g.inEdges.keys := fun k hk => hops k (List.mem_cons_of_mem _ hk)
    unfold findIsolated
    by_cases hweight : op ∈ weightOps
    · obtain ⟨g1, hread, hreads, hkey⟩ := outEdgesOf_ok hg.unique (Or.inl hop)
      rw [if_pos hweight, hread]
      show ∃ found g', (if (g.outs op).length = 0 then _ else _) = _ ∧ _
      by_cases hzero : (g.outs op).length = 0
      · rw [if_pos hzero]
        refine ⟨some op, g1, rfl, hreads, fun h => (by cases h), fun k hk => ?_⟩
        cases hk
        exact ⟨hweight, hreads.inEdges ▸ hop, hkey, by
          rw [hreads.outs]
          exact List.eq_nil_of_length_eq_zero hzero⟩
      · rw [if_neg hzero]
        obtain ⟨found, g2, hrun, hreads2, hnone, hfound⟩ := ih (hg.reads hreads) fun k hk =>
          hreads.inEdges ▸ hops' k hk
        refine ⟨found, g2, hrun, hreads.trans hreads2, fun h k hk hkweight => ?_, hfound⟩
        rcases List.mem_cons.mp hk with rfl | hk
        · exact fun hnil => hzero (by rw [hnil]; rfl)
        · rw [← hreads.outs]
          exact hnone h k hk hkweight
    · rw [if_neg hweight]
      obtain ⟨found, g2, hrun, hreads2, hnone, hfound⟩ := ih hg hops'
      refine ⟨found, g2, hrun, hreads2, fun h k hk hkweight => ?_, hfound⟩
      rcases List.mem_cons.mp hk with rfl | hk
      · exact absurd hkweight hweight
      · exact hnone h k hk hkweight

/-- Operators of `weightOps` that feed nothing in `g'` were taken out of `g`. -/
structure Pruned (weightOps : List Op) (g g' : Graph) : Prop where
  keys : ∀ k ∈ g'.inEdges.keys, k ∈ g.inEdges.keys
  ins : ∀ k ∈ g'.inEdges.keys, ∀ f, f ∈ g'.ins k ↔ f ∈ g.ins k
  removed : ∀ k ∈ g.inEdges.keys, k ∉ g'.inEdges.keys →
    k ∈ weightOps ∧ ∀ v ∈ g'.inEdges.keys, ¬ g.Feeds k v

theorem Pruned.refl {weightOps : List Op} (h : g'.inEdges = g.inEdges) : Pruned weightOps g g' where
  keys := fun k hk => h ▸ hk
  ins := fun k _ f => (by unfold Graph.ins; rw [h])
  removed := fun k hk hnot => absurd (h ▸ hk) hnot

/-- Only the operators and their in-edges matter. -/
theorem Pruned.congr {weightOps : List Op} {g1 : Graph} (h : Pruned weightOps g1 g')
    (hkeys : ∀ k, k ∈ g1.inEdges.keys ↔ k ∈ g.inEdges.keys)
    (hins : ∀ k f, f ∈ g1.ins k ↔ f ∈ g.ins k) : Pruned weightOps g g' where
  keys := fun k hk => (hkeys k).mp (h.keys k hk)
  ins := fun k hk f => (h.ins k hk f).trans (hins k f)
  removed := fun k hk hnot => by
    obtain ⟨hweight, hfeeds⟩ := h.removed k ((hkeys k).mpr hk) hnot
    refine ⟨hweight, fun v hv hfeed => hfeeds v hv ?_⟩
    obtain ⟨e, he, hsrc⟩ := hfeed
    exact ⟨e, (hins v e).mpr he, hsrc⟩

/-- One more operator is taken out. -/
theorem Pruned.cons {weightOps : List Op} {op : Op} {g1 g2 : Graph} (hg : Consistent g)
    (hop : op ∈ weightOps) (hunread : g.outs op = []) (h1 : NodeRemoved g op g1)
    (h2 : Pruned weightOps g1 g2) : Pruned weightOps g g2 where
  keys := fun k hk => ((h1.keys k).mp (h2.keys k hk)).2
  ins := fun k hk f => by
    rw [h2.ins k hk f, h1.ins k f]
    exact and_iff_left ((h1.keys k).mp (h2.keys k hk)).1
  removed := fun k hk hnot => by
    by_cases hkop : k = op
    · subst hkop
      refine ⟨hop, fun v _ hfeeds => ?_⟩
      obtain ⟨e, he, rfl⟩ := hfeeds
      have hown := hg.inOwn v e he
      subst hown
      have hout := (hg.dual e).mp he
      rw [hunread] at hout
      cases hout
    · obtain ⟨hweight, hfeeds⟩ := h2.removed k ((h1.keys k).mpr ⟨hkop, hk⟩) hnot
      refine ⟨hweight, fun v hv hfeed => hfeeds v hv ?_⟩
      obtain ⟨e, he, hsrc⟩ := hfeed
      exact ⟨e, (h1.ins v e).mpr ⟨he, ((h1.keys v).mp (h2.keys v hv)).1⟩, hsrc⟩

theorem removeIsolated_ok (weightOps : List Op) (fuel : Nat) (hg : WellFormed g)
    (hfuel : g.inEdges.keys.length < fuel) :
    ∃ g', removeIsolated weightOps fuel g = .ok g' ∧ WellFormed g' ∧
      (∀ k, g'.Mentions k → g.Mentions k) ∧ Pruned weightOps g g' ∧
      ∀ k ∈ g'.inEdges.keys, k ∈ weightOps → g'.outs k ≠ [] := by
  induction fuel generalizing g with
  | zero => omega
  | succ fuel ih =>
    obtain ⟨found, g1, hfind, hreads, hnone, hfound⟩ :=
      findIsolated_ok weightOps g.inEdges.keys hg fun _ => id
    have hg1 := hg.reads hreads
    unfold removeIsolated
    rw [hfind]
    cases found with
    | none =>
      refine ⟨g1, rfl, hg1, fun k hk => hreads.mentions hk, Pruned.refl hreads.inEdges,
        fun k hk hweight => ?_⟩
      rw [hreads.outs]
      exact hnone rfl k (hreads.inEdges ▸ hk) hweight
    | some op =>
      obtain ⟨hweight, hin, hout, hunread⟩ := hfound op rfl
      obtain ⟨g2, hremove, hg2, hremoved⟩ := removeNode_ok hg1 hin hout hunread
      have hless := hremoved.fewer
      rw [hreads.inEdges] at hless
      obtain ⟨g3, hrest, hg3, hmention3, hpruned, htight⟩ := ih hg2 (by omega)
      have hpruned1 := hpruned.cons hg1.toConsistent hweight hunread hremoved
      refine ⟨g3, ?_, hg3, fun k hk => hreads.mentions (hremoved.mentions k (hmention3 k hk)), ?_,
        htight⟩
      · show (g1.removeNode op >>= fun g => removeIsolated weightOps fuel g) = _
        rw [hremove]
        exact hrest
      · exact hpruned1.congr (fun k => by rw [hreads.inEdges]) fun k f => by rw [hreads.ins]

theorem scanInputs_ok (es : List Edge) (h : ∀ e ∈ es, e.srcOp.ptr ≠ none) :
    scanInputs es = .ok () := by
  induction es with
  | nil => rfl
  | cons e es ih =>
    obtain ⟨p, hp⟩ := Option.ne_none_iff_exists'.mp (h e (List.mem_cons_self ..))
    have hrest := ih fun f hf => h f (List.mem_cons_of_mem _ hf)
    unfold scanInputs
    rw [show typeOf e.srcOp = .ok p.type by rw [typeOf, hp]]
    show (if p.type = .OP_WEIGHT then scanInputs es else .ok ()) = _
    rw [hrest]
    split <;> rfl

theorem scanWeights_ok (hg : WellFormed g) : g.scanWeights = .ok () := by
  refine forM_ok fun entry hentry => ?_
  have hkey : entry.1 ∈ g.inEdges.keys := List.mem_map_of_mem hentry
  have hedges : g.ins entry.1 = entry.2.edges := OpMap.edges_eq_of_mem hentry
  obtain ⟨p, hp⟩ := Option.ne_none_iff_exists'.mp (hg.body _ hkey)
  rw [scanEntry, show typeOf entry.1 = .ok p.type by rw [typeOf, hp]]
  show (if p.type = .OP_INPUT ∨ p.type = .OP_WEIGHT ∨ p.type = .OP_TRANSPOSE then Except.ok ()
    else scanInputs entry.2.edges) = _
  split
  · rfl
  · next hkind =>
    simp only [not_or] at hkind
    have hc : Op.computes entry.1 := by
      unfold Op.computes Op.type
      rw [hp]
      simpa using ⟨hkind.1, hkind.2.1⟩
    rw [← hedges]
    exact scanInputs_ok _ (hg.fed _ hkey hc)

/-- The copy of step 1 has the same edges. -/
theorem clone_ok (hg : WellFormed g) :
    ∃ g', Graph.new.addEdges g.allEdges = .ok g' ∧ WellFormed g' ∧
      (∀ k, g'.Mentions k → g.Mentions k) ∧
      (∀ k, k ∈ g'.inEdges.keys ↔ k ∈ g.inEdges.keys) ∧ ∀ k f, f ∈ g'.ins k ↔ f ∈ g.ins k := by
  have hown : ∀ e ∈ g.allEdges, e ∈ g.ins e.dstOp := by
    intro e he
    obtain ⟨op, hop⟩ := mem_allEdges.mp he
    rwa [hg.inOwn op e hop]
  have hends : ∀ e ∈ g.allEdges, g.Mentions e.srcOp ∧ g.Mentions e.dstOp := fun e he =>
    ⟨Or.inr (hg.src_mem (hown e he)), Or.inl (OpMap.mem_keys_of_mem_edges (hown e he))⟩
  obtain ⟨g', hrun⟩ := addEdges_ok hg.unique consistent_new
    (fun op hop => (by rcases hop with hop | hop <;> cases hop)) hends
  have hadd := addEdges_added hrun
  have hmention : ∀ k, g'.Mentions k → g.Mentions k := by
    rintro k (hk | hk)
    · rcases (hadd.inKeys k).mp hk with hk | ⟨e, he, rfl⟩
      · cases hk
      · exact (hends e he).2
    · rcases (hadd.outKeys k).mp hk with hk | ⟨e, he, rfl⟩
      · cases hk
      · exact (hends e he).1
  have hsame : ∀ e ∈ g.allEdges, ∀ f, (f ∈ g.allEdges ∧ f.dstOp = e.dstOp) ↔ f ∈ g.ins e.dstOp := by
    intro e _ f
    refine ⟨fun ⟨hf, heq⟩ => heq ▸ hown f hf, fun hf => ⟨?_, hg.inOwn _ f hf⟩⟩
    exact mem_allEdges.mpr ⟨_, hf⟩
  have hkey : ∀ e ∈ g.allEdges, e.dstOp ∈ g.inEdges.keys := fun e he =>
    OpMap.mem_keys_of_mem_edges (hown e he)
  refine ⟨g', hrun, wellFormed_new.extend hadd (fun e _ h => (by cases h)) (fun e he => ?_)
    (fun e he => ⟨hg.body _ (hkey e he), hg.arity _ (hkey e he), hg.numbered _ (hkey e he)⟩)
    (fun e he hc => hg.fed _ (hkey e he) hc e (hown e he))
    fun a b ha hb => hg.unique a b (hmention a ha) (hmention b hb), hmention, fun k => ?_,
    fun k f => ?_⟩
  rotate_left
  · rw [hadd.inKeys]
    refine ⟨fun h => ?_, fun hk => ?_⟩
    · rcases h with h | ⟨e, he, rfl⟩
      · cases h
      · exact hkey e he
    · -- an operator has at least one input
      obtain ⟨e, he, -⟩ := (hg.slots k hk).one 0 (by
        have := hg.arity k hk
        omega)
      exact Or.inr ⟨e, mem_allEdges.mpr ⟨k, he⟩, hg.inOwn k e he⟩
  · rw [hadd.ins]
    refine ⟨fun h => ?_, fun hf => Or.inr ⟨mem_allEdges.mpr ⟨k, hf⟩, hg.inOwn k f hf⟩⟩
    rcases h with h | ⟨hf, rfl⟩
    · cases h
    · exact hown f hf
  have h := hg.slots _ (hkey e he)
  exact ⟨fun f hf => h.bound f ((hsame e he f).mp hf),
    fun i hi => (h.one i hi).imp fun f hf => ⟨(hsame e he f).mpr hf.1, hf.2⟩,
    fun a b ha hb => h.unique a b ((hsame e he a).mp ha) ((hsame e he b).mp hb)⟩

/-- **What `preprocess_weights` does**: `weightOps` are the operators with nothing but weights and
operators of `weightOps` as sources; those that feed nothing that is left are taken out. -/
theorem preprocessWeights_spec (hg : WellFormed g) :
    ∃ weightOps g', g.preprocessWeights = .ok g' ∧ WellFormed g' ∧
      (∀ k, g'.Mentions k → g.Mentions k) ∧ (∀ k ∈ weightOps, k ∈ g.inEdges.keys) ∧
      (∀ v ∈ g.inEdges.keys, v ∈ weightOps ↔
        ∀ e ∈ g.ins v, e.srcOp.guid ≠ GUID_WEIGHT → e.srcOp ∈ weightOps) ∧
      Pruned weightOps g g' ∧ ∀ k ∈ g'.inEdges.keys, k ∈ weightOps → g'.outs k ≠ [] := by
  obtain ⟨g1, hclone, hg1, hmention1, hkeys1, hins1⟩ := clone_ok hg
  obtain ⟨weightOps, g2, hschedule, hreads, hlist⟩ := schedule_ok hg1.toConsistent hg1.unique
    fun op => decide (op.guid ≠ GUID_WEIGHT)
  have hg2 := hg1.reads hreads
  obtain ⟨g3, hremove, hg3, hmention3, hpruned, htight⟩ :=
    removeIsolated_ok weightOps _ hg2 (Nat.lt_succ_self _)
  have hcounted : ∀ op ∈ g1.inEdges.keys, decide (op.guid ≠ GUID_WEIGHT) = true := by
    intro op hop
    have hguid := hg1.numbered op hop
    refine decide_eq_true fun heq => ?_
    rw [heq] at hguid
    exact absurd hguid (by decide)
  refine ⟨weightOps, g3, ?_, hg3, fun k hk => hmention1 k (hreads.mentions (hmention3 k hk)),
    fun k hk => (hkeys1 k).mp (hlist.subset k hk), fun v hv => ?_,
    hpruned.congr (fun k => by rw [hreads.inEdges, hkeys1]) (fun k f => by rw [hreads.ins, hins1]),
    htight⟩
  · rw [preprocessWeights, hclone]
    show (g1.scanWeights >>= fun _ => _) = _
    rw [scanWeights_ok hg1]
    show (g1.schedule _ >>= fun p => _) = _
    rw [hschedule]
    exact hremove
  · rw [hlist.mem_iff hg1.toConsistent hcounted ((hkeys1 v).mpr hv)]
    simp only [hins1, decide_eq_true_eq]

/-- **`preprocess_weights` does not fail**, and gives a well-formed graph over the operators of
the old one. -/
theorem preprocessWeights_ok (hg : WellFormed g) :
    ∃ g', g.preprocessWeights = .ok g' ∧ WellFormed g' ∧ ∀ k, g'.Mentions k → g.Mentions k := by
  obtain ⟨-, g', hrun, hg', hmention, -⟩ := preprocessWeights_spec hg
  exact ⟨g', hrun, hg', hmention⟩

end WellFormed

end Graph

end Peps
