import Peps.Dbocg.GraphEdges

/-!
# Orders of a graph

`has_loop`, `get_operator_list` and `preprocess_weights` run one loop over the operators. On a
consistent graph with unique guids it does not fail (`schedule_ok`), reads of missing entries
aside it leaves the graph as it is (`Reads`), and an operator is listed after the sources of the
in-edges it waits for (`Listing.sources`). If no edge that is waited for goes against a rank, all operators are
listed (`Listing.complete`).
-/

namespace Peps

open Lib

namespace Graph

variable {g g' : Graph}

/-! ## Reading -/

/-- `g'` is `g` after reads, which enter operators without edges into `outEdges`. -/
structure Reads (g g' : Graph) : Prop where
  inEdges : g'.inEdges = g.inEdges
  outs : ∀ op, g'.outs op = g.outs op
  outKeys : ∀ op ∈ g'.outEdges.keys, g.Mentions op
  kept : ∀ op ∈ g.outEdges.keys, op ∈ g'.outEdges.keys

namespace Reads

theorem refl (g : Graph) : Reads g g := ⟨rfl, fun _ => rfl, fun _ => Or.inr, fun _ => id⟩

theorem ins (h : Reads g g') (op : Op) : g'.ins op = g.ins op := by
  unfold Graph.ins
  rw [h.inEdges]

theorem mentions (h : Reads g g') {op : Op} (hop : g'.Mentions op) : g.Mentions op := by
  rcases hop with hop | hop
  · rw [h.inEdges] at hop
    exact Or.inl hop
  · exact h.outKeys op hop

theorem trans {g'' : Graph} (h : Reads g g') (h' : Reads g' g'') : Reads g g'' where
  inEdges := h'.inEdges.trans h.inEdges
  outs := fun op => (h'.outs op).trans (h.outs op)
  outKeys := fun op hop => h.mentions (h'.outKeys op hop)
  kept := fun op hop => h'.kept op (h.kept op hop)

theorem consistent (h : Reads g g') (hg : Consistent g) : Consistent g' where
  inOwn := fun op e he => hg.inOwn op e (h.ins op ▸ he)
  outOwn := fun op e he => hg.outOwn op e (h.outs op ▸ he)
  dual := fun e => by rw [h.ins, h.outs, hg.dual]

theorem uniqueGuids (h : Reads g g') (hg : UniqueGuids g.Mentions) : UniqueGuids g'.Mentions :=
  fun a b ha hb => hg a b (h.mentions ha) (h.mentions hb)

end Reads

theorem outEdgesOf_ok (hg : UniqueGuids g.Mentions) {op : Op} (hop : g.Mentions op) :
    ∃ g', g.outEdgesOf op = .ok (g.outs op, g') ∧ Reads g g' ∧ op ∈ g'.outEdges.keys := by
  obtain ⟨outEdges, htouch⟩ : ∃ m', OpMap.touch g.outEdges op = .ok m' :=
    OpMap.touch_succeeds fun k hk heq => hg k op (Or.inr hk) hop heq
  obtain ⟨hedges, hkeys⟩ := OpMap.touch_ok htouch
  refine ⟨{ g with outEdges := outEdges }, ?_, ⟨rfl, hedges, fun k hk => ?_, fun k hk => ?_⟩, ?_⟩
  · rw [outEdgesOf, htouch]
    show Except.ok (OpMap.edges outEdges op, _) = _
    rw [hedges]
    rfl
  · rcases (hkeys k).mp hk with rfl | hk
    · exact hop
    · exact Or.inr hk
  · exact (hkeys k).mpr (Or.inr hk)
  · exact (hkeys op).mpr (Or.inl rfl)

theorem outEdgesOf_of_mem {op : Op} (hop : op ∈ g.outEdges.keys) :
    g.outEdgesOf op = .ok (g.outs op, g) := by
  unfold outEdgesOf OpMap.touch
  rw [if_pos hop]
  rfl

theorem inEdgesOf_ok {op : Op} (hop : op ∈ g.inEdges.keys) : g.inEdgesOf op = .ok (g.ins op, g) := by
  unfold inEdgesOf OpMap.touch
  rw [if_pos hop]
  rfl

/-! ## Arrivals are edges -/

theorem count_dsts (hg : Consistent g) (u v : Op) :
    ((g.outs u).map Edge.dstOp).count v = (g.ins v).countP fun e => e.srcOp = u := by
  -- both count the edges from `u` to `v`
  have hperm : ((g.outs u).filter fun e => e.dstOp = v).Perm
      ((g.ins v).filter fun e => e.srcOp = u) := by
    rw [List.perm_ext_iff_of_nodup ((nodup_outs g u).filter _) ((nodup_ins g v).filter _)]
    intro e
    simp only [List.mem_filter, decide_eq_true_eq]
    constructor
    · rintro ⟨hout, rfl⟩
      have hown := hg.outOwn u e hout
      subst hown
      exact ⟨(hg.dual e).mpr hout, rfl⟩
    · rintro ⟨hin, rfl⟩
      have hown := hg.inOwn v e hin
      subst hown
      exact ⟨(hg.dual e).mp hin, rfl⟩
  rw [List.count, List.countP_map, List.countP_eq_length_filter, List.countP_eq_length_filter,
    ← hperm.length_eq]
  rfl

theorem incoming (hg : Consistent g) :
    Kahn.Incoming (fun op => (g.outs op).map Edge.dstOp) g.ins fun e => some e.srcOp := by
  intro u v
  simp only [Option.some.injEq]
  exact count_dsts hg u v

/-! ## The loop -/

abbrev Listing (g : Graph) (counted : Op → Bool) (order : List Op) : Prop :=
  Kahn.Schedule (fun op => (g.outs op).map Edge.dstOp) g.inEdges.keys (g.openEdges counted) order

theorem schedule_ok (hg : Consistent g) (huniq : UniqueGuids g.Mentions) (counted : Op → Bool) :
    ∃ order g', g.schedule counted = .ok (order, g') ∧ Reads g g' ∧ Listing g counted order := by
  have hsucc : ∀ (s : Graph) (v : Op), Reads g s → v ∈ g.inEdges.keys →
      ∃ s', s.succs v = .ok ((g.outs v).map Edge.dstOp, s') ∧ Reads g s' := by
    intro s v hs hv
    have hmention : s.Mentions v := Or.inl (by rwa [hs.inEdges])
    obtain ⟨s', hread, hreads, -⟩ := outEdgesOf_ok (hs.uniqueGuids huniq) hmention
    refine ⟨s', ?_, hs.trans hreads⟩
    rw [succs, hread]
    show Except.ok ((s.outs v).map Edge.dstOp, s') = _
    rw [hs.outs]
  have houts : ∀ v ∈ g.inEdges.keys, ∀ w ∈ (g.outs v).map Edge.dstOp, w ∈ g.inEdges.keys := by
    intro v _ w hw
    obtain ⟨e, he, rfl⟩ := List.mem_map.mp hw
    exact hg.dst_mem he
  have hstart : Kahn.Counted g.inEdges.keys (g.openEdges counted)
      ([] ++ g.inEdges.keys.filter fun op => g.openEdges counted op = 0)
      (Kahn.arrivals (fun op => (g.outs op).map Edge.dstOp) []) _ :=
    Kahn.counted_start (SortedMap.nodup_keys _)
  exact Kahn.kahn_ok .keyError .endless hsucc houts g.inEdges.keys.length (Reads.refl g) hstart
    Kahn.ordered_start (Nat.le_add_right _ _)

namespace Listing

variable {counted : Op → Bool} {order : List Op}

/-- An operator comes after the sources of the edges it waits for. -/
theorem sources (hg : Consistent g) (hkeys : ∀ op ∈ g.inEdges.keys, counted op = true)
    (h : Listing g counted order) {before after : List Op} {v : Op}
    (heq : order = before ++ v :: after) :
    ∀ e ∈ g.ins v, counted e.srcOp = true → e.srcOp ∈ before := by
  intro e he hcounted
  obtain ⟨u, hu, hsrc⟩ := Kahn.Schedule.sources h (incoming hg) (fun _ => rfl)
    (fun _ f _ u hu hf => Option.some.inj hf ▸ hkeys u hu) heq e he hcounted
  exact Option.some.inj hsrc ▸ hu

/-- Nothing is missing when the edges that are waited for respect a rank. -/
theorem complete (hg : Consistent g) (h : Listing g counted order) (rank : Op → Nat)
    (hrank : ∀ v ∈ g.inEdges.keys, ∀ e ∈ g.ins v, counted e.srcOp = true →
      e.srcOp ∈ g.inEdges.keys ∧ rank e.srcOp < rank v) :
    ∀ v ∈ g.inEdges.keys, v ∈ order :=
  Kahn.Schedule.mem_of_wellFounded h (incoming hg) (fun _ => rfl) (measure rank).wf
    fun v hv e he hcounted =>
      ⟨e.srcOp, (hrank v hv e he hcounted).1, rfl, (hrank v hv e he hcounted).2⟩

/-- What is listed is what only waits for listed operators. -/
theorem mem_iff (hg : Consistent g) (hkeys : ∀ op ∈ g.inEdges.keys, counted op = true)
    (h : Listing g counted order) {v : Op} (hv : v ∈ g.inEdges.keys) :
    v ∈ order ↔ ∀ e ∈ g.ins v, counted e.srcOp = true → e.srcOp ∈ order := by
  constructor
  · intro hmem e he hcounted
    obtain ⟨before, after, heq⟩ := List.append_of_mem hmem
    have hsrc := h.sources hg hkeys heq e he hcounted
    rw [heq]
    exact List.mem_append_left _ hsrc
  · intro hsrc
    exact Kahn.Schedule.mem_of_sources h (incoming hg) (fun _ => rfl) hv fun e he hcounted =>
      ⟨e.srcOp, hsrc e he hcounted, rfl⟩

theorem perm_keys (h : Listing g counted order) (hlen : ¬ order.length < g.inEdges.keys.length) :
    order.Perm g.inEdges.keys :=
  (h.nodup.subperm fun op hop => h.subset op hop).perm_of_length_le (Nat.le_of_not_lt hlen)

end Listing

/-! ## `has_loop` -/

/-- An edge leads from `u` to `v`. -/
def Feeds (g : Graph) (u v : Op) : Prop := ∃ e ∈ g.ins v, e.srcOp = u

def Acyclic (g : Graph) : Prop := WellFounded g.Feeds

/-- The place of an operator in a list, 0 for one that is missing. -/
def rankIn (order : List Op) (op : Op) : Nat := if op ∈ order then order.idxOf op + 1 else 0

theorem rankIn_lt {order before after : List Op} {u v : Op} (hnodup : order.Nodup)
    (heq : order = before ++ v :: after) (hu : u ∈ before ∨ u ∉ order) :
    rankIn order u < rankIn order v := by
  have hv : v ∉ before := by
    rw [heq] at hnodup
    exact fun hmem => (List.nodup_append.mp hnodup).2.2 v hmem v (List.mem_cons_self ..) rfl
  have hpos : order.idxOf v = before.length := by
    rw [heq, List.idxOf_append_of_notMem hv, List.idxOf_cons_self, Nat.add_zero]
  have hmem : v ∈ order := by
    rw [heq]
    simp
  unfold rankIn
  rw [if_pos hmem, hpos]
  rcases hu with hu | hu
  · have hlt : order.idxOf u < before.length := by
      rw [heq, List.idxOf_append_of_mem hu]
      exact List.idxOf_lt_length_of_mem hu
    rw [if_pos (by rw [heq]; exact List.mem_append_left _ hu)]
    omega
  · rw [if_neg hu]
    omega

/-- When all operators are listed, the graph is acyclic, and it has an entry for every source that
is not one of the preserved guids: an operator would have waited for a missing one. -/
theorem Listing.acyclic {order : List Op} (hg : Consistent g)
    (hkeys : ∀ op ∈ g.inEdges.keys, GUID_PRESERVED < op.guid)
    (hlist : Listing g beyondPreserved order) (hperm : order.Perm g.inEdges.keys) :
    g.Acyclic ∧ ∀ v, ∀ e ∈ g.ins v, GUID_PRESERVED < e.srcOp.guid → e.srcOp ∈ g.inEdges.keys := by
  have hbefore : ∀ v, ∀ e ∈ g.ins v, ∃ before after, order = before ++ v :: after ∧
      (GUID_PRESERVED < e.srcOp.guid → e.srcOp ∈ before) := by
    intro v e he
    obtain ⟨before, after, heq⟩ :=
      List.append_of_mem (hperm.mem_iff.mpr (OpMap.mem_keys_of_mem_edges he))
    refine ⟨before, after, heq, fun hguid => ?_⟩
    exact hlist.sources hg (fun op hop => decide_eq_true (hkeys op hop)) heq e he
      (decide_eq_true hguid)
  constructor
  · refine Subrelation.wf (fun {u v} hfeeds => ?_) (measure (rankIn order)).wf
    obtain ⟨e, he, rfl⟩ := hfeeds
    obtain ⟨before, after, heq, hsrc⟩ := hbefore v e he
    refine rankIn_lt hlist.nodup heq ?_
    by_cases hguid : GUID_PRESERVED < e.srcOp.guid
    · exact Or.inl (hsrc hguid)
    · exact Or.inr fun hmem => hguid (hkeys _ (hperm.mem_iff.mp hmem))
  · intro v e he hguid
    obtain ⟨before, after, heq, hsrc⟩ := hbefore v e he
    refine hperm.mem_iff.mp ?_
    rw [heq]
    exact List.mem_append_left _ (hsrc hguid)

/-- What `has_loop` returns. -/
theorem hasLoop_eq {order : List Op} {g1 : Graph}
    (h : g.schedule beyondPreserved = .ok (order, g1)) (hreads : Reads g g1) :
    g.hasLoop = .ok (decide (order.length < g.inEdges.keys.length), g1) := by
  rw [hasLoop, h]
  show Except.ok (decide (order.length < g1.inEdges.keys.length), g1) = _
  rw [hreads.inEdges]

/-- **A graph that passes `has_loop`** is acyclic, with all its sources. -/
theorem of_hasLoop_false (hg : Consistent g) (huniq : UniqueGuids g.Mentions)
    (hkeys : ∀ op ∈ g.inEdges.keys, GUID_PRESERVED < op.guid)
    (h : g.hasLoop = .ok (false, g')) :
    g.Acyclic ∧ ∀ v, ∀ e ∈ g.ins v, GUID_PRESERVED < e.srcOp.guid → e.srcOp ∈ g.inEdges.keys := by
  obtain ⟨order, g1, hschedule, hreads, hlist⟩ := schedule_ok hg huniq beyondPreserved
  rw [hasLoop_eq hschedule hreads] at h
  have hfalse : decide (order.length < g.inEdges.keys.length) = false :=
    congrArg Prod.fst (Except.ok.inj h)
  exact hlist.acyclic hg hkeys (hlist.perm_keys (of_decide_eq_false hfalse))

end Graph

end Peps
