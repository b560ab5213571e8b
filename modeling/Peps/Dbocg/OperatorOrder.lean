import Mathlib.Order.WellFoundedSet
import Peps.Dbocg.Session

/-!
# `has_loop` and `get_operator_list`

Both run the loop of `schedule` and look at how many operators it listed. All are listed exactly
when no operator is fed by itself and every source beyond the preserved guids is in the graph
(`Listing.perm_iff`): an operator on a cycle, or with a source that is missing, waits for ever.

The counters know operators by guid, so this is for graphs whose operators are numbered beyond the
preserved guids and told apart by their numbers. With an operator of a preserved guid among the
keys the loop counts an arrival it did not wait for, and lets a cycle pass.
-/

namespace Peps

open Lib

instance : DecidablePred Op.computes := fun op =>
  inferInstanceAs (Decidable (op.type ≠ some .OP_INPUT ∧ op.type ≠ some .OP_WEIGHT))

namespace Graph

variable {g : Graph} {order : List Op}

/-- Edge maps that are dual, and operators that guids beyond the preserved ones tell apart. -/
structure Numbered (g : Graph) : Prop extends Consistent g where
  unique : UniqueGuids g.Mentions
  body : ∀ op ∈ g.inEdges.keys, op.ptr ≠ none
  numbered : ∀ op ∈ g.inEdges.keys, GUID_PRESERVED < op.guid

theorem WellFormed.toNumbered (hg : g.WellFormed) : g.Numbered :=
  ⟨hg.toConsistent, hg.unique, hg.body, hg.numbered⟩

/-- No operator feeds itself, and the sources beyond the preserved guids are in the graph. -/
structure Orderable (g : Graph) : Prop where
  loopless : ∀ op, ¬ Relation.TransGen g.Feeds op op
  sources : ∀ v, ∀ e ∈ g.ins v, GUID_PRESERVED < e.srcOp.guid → e.srcOp ∈ g.inEdges.keys

/-! ## Acyclic graphs -/

theorem Acyclic.loopless (h : g.Acyclic) (op : Op) : ¬ Relation.TransGen g.Feeds op op :=
  fun hloop => (WellFounded.transGen h).irrefl.irrefl op hloop

/-- Graphs are finite, so without a cycle there is no endless way back. -/
theorem acyclic_of_loopless (h : ∀ op, ¬ Relation.TransGen g.Feeds op op) : g.Acyclic := by
  have hleaf : ∀ v, v ∉ g.inEdges.keys → Acc g.Feeds v := by
    intro v hv
    refine ⟨v, fun u hfeeds => ?_⟩
    obtain ⟨e, he, -⟩ := hfeeds
    exact absurd (OpMap.mem_keys_of_mem_edges he) hv
  have : IsStrictOrder Op (Relation.TransGen g.Feeds) :=
    { irrefl := h, trans := fun _ _ _ => Relation.TransGen.trans }
  have hfinite : ({op | op ∈ g.inEdges.keys} : Set Op).WellFoundedOn (Relation.TransGen g.Feeds) :=
    (List.finite_toSet g.inEdges.keys).wellFoundedOn
  refine ⟨fun v => ?_⟩
  by_cases hv : v ∈ g.inEdges.keys
  · refine hfinite.induction (P := fun v => Acc g.Feeds v) hv fun v _ ih => ?_
    refine ⟨v, fun u hfeeds => ?_⟩
    by_cases hu : u ∈ g.inEdges.keys
    · exact ih u hu (Relation.TransGen.single hfeeds)
    · exact hleaf u hu
  · exact hleaf v hv

/-- **The loop lists every operator** of the orderable graphs, and of no others. -/
theorem Listing.perm_iff (hg : g.Numbered) (hlist : Listing g beyondPreserved order) :
    ¬ order.length < g.inEdges.keys.length ↔ g.Orderable := by
  constructor
  · intro hlen
    obtain ⟨hacyclic, hsources⟩ :=
      hlist.acyclic hg.toConsistent hg.numbered (hlist.perm_keys hlen)
    exact ⟨hacyclic.loopless, hsources⟩
  · intro h
    have hall : ∀ v ∈ g.inEdges.keys, v ∈ order :=
      Kahn.Schedule.mem_of_wellFounded hlist (incoming hg.toConsistent) (fun _ => rfl)
        (acyclic_of_loopless h.loopless) fun v _ e he hcounted =>
          ⟨e.srcOp, h.sources v e he (of_decide_eq_true hcounted), rfl, e, he, rfl⟩
    exact Nat.not_lt.mpr ((SortedMap.nodup_keys _).subperm hall).length_le

/-! ## `get_operator_list` -/

theorem computing_eq_filter (ops : List Op) (hbody : ∀ op ∈ ops, op.ptr ≠ none) :
    computing ops = .ok (ops.filter fun op => op.computes) := by
  induction ops with
  | nil => rfl
  | cons op ops ih =>
    obtain ⟨p, hp⟩ := Option.ne_none_iff_exists'.mp (hbody op (List.mem_cons_self ..))
    have htype : typeOf op = .ok p.type := by rw [typeOf, hp]
    have hcomputes : op.computes ↔ ¬ (p.type = .OP_INPUT ∨ p.type = .OP_WEIGHT) := by
      rw [Op.computes, Op.type, hp]
      simp
    unfold computing
    rw [htype, ih fun k hk => hbody k (List.mem_cons_of_mem _ hk)]
    show Except.ok (if _ then _ else _) = _
    by_cases hsource : p.type = .OP_INPUT ∨ p.type = .OP_WEIGHT
    · rw [if_pos hsource, List.filter_cons_of_neg (by simp [hcomputes, hsource])]
    · rw [if_neg hsource, List.filter_cons_of_pos (by simp [hcomputes, hsource])]

/-- Operators of the graph that compute something, each after those that feed it. -/
structure OpOrder (g : Graph) (ops : List Op) : Prop where
  nodup : ops.Nodup
  mem : ∀ op, op ∈ ops ↔ op ∈ g.inEdges.keys ∧ op.computes
  after : ∀ before op rest, ops = before ++ op :: rest →
    ∀ e ∈ g.ins op, e.srcOp ∈ ops → e.srcOp ∈ before

theorem Listing.opOrder (hg : g.Numbered) (hlist : Listing g beyondPreserved order)
    (hperm : order.Perm g.inEdges.keys) : g.OpOrder (order.filter fun op => op.computes) := by
  refine ⟨hlist.nodup.filter _, fun op => ?_, fun before op rest heq e he hsrc => ?_⟩
  · rw [List.mem_filter, hperm.mem_iff, decide_eq_true_eq]
  · obtain ⟨front, back, rfl, hfront, hback⟩ := List.filter_eq_append_iff.mp heq
    obtain ⟨mid, tail, rfl, hmid, -, -⟩ := List.filter_eq_cons_iff.mp hback
    obtain ⟨hmem, hc⟩ := List.mem_filter.mp hsrc
    have hkeys : ∀ op ∈ g.inEdges.keys, beyondPreserved op = true := fun op hop =>
      decide_eq_true (hg.numbered op hop)
    have hsrc := hlist.sources hg.toConsistent hkeys
      (List.append_assoc front mid (op :: tail)).symm e he (hkeys _ (hperm.mem_iff.mp hmem))
    rcases List.mem_append.mp hsrc with hsrc | hsrc
    · rw [← hfront]
      exact List.mem_filter.mpr ⟨hsrc, hc⟩
    · exact absurd hc (hmid _ hsrc)

/-- What `get_operator_list` returns: the operators of the loop that compute something, if it
listed all. -/
theorem getOperatorList_eq (hg : g.Numbered) :
    ∃ ops g', Reads g g' ∧
      (g.Orderable → g.getOperatorList = .ok (ops, g') ∧ g.OpOrder ops) ∧
      (¬ g.Orderable → g.getOperatorList = .error .assertionError) := by
  obtain ⟨order, g', hschedule, hreads, hlist⟩ :=
    schedule_ok hg.toConsistent hg.unique beyondPreserved
  have hperm := hlist.perm_iff hg
  have hlen : order.length = g'.inEdges.keys.length ↔ g.Orderable := by
    rw [hreads.inEdges, ← hperm]
    have hle := (hlist.nodup.subperm fun op hop => hlist.subset op hop).length_le
    omega
  have hrun : g.getOperatorList = (pyAssert (order.length = g'.inEdges.keys.length)).bind
      fun _ => .ok (order.filter fun op => op.computes, g') := by
    unfold getOperatorList
    rw [hschedule]
    show (computing order >>= fun _ => _) = _
    rw [computing_eq_filter order fun op hop => hg.body op (hlist.subset op hop)]
    rfl
  refine ⟨order.filter fun op => op.computes, g', hreads, fun h => ⟨?_, ?_⟩, fun h => ?_⟩
  · rw [hrun, pyAssert_of (hlen.mpr h)]
    rfl
  · exact hlist.opOrder hg (hlist.perm_keys (hperm.mpr h))
  · rw [hrun, pyAssert, if_neg fun heq => h (hlen.mp heq)]
    rfl

/-- **`has_loop` and `get_operator_list`** on a numbered graph: the one returns `False`, and the
other a list, exactly when the graph is orderable; otherwise they return `True` and fail their
assertion. The list is an order of the operators that compute something. -/
theorem hasLoop_getOperatorList (g : Graph) (hg : g.Numbered) :
    ((∃ g', g.hasLoop = .ok (false, g')) ↔ g.Orderable) ∧
      (¬ g.Orderable → ∃ g', g.hasLoop = .ok (true, g')) ∧
      ((∃ ops g', g.getOperatorList = .ok (ops, g')) ↔ g.Orderable) ∧
      (¬ g.Orderable → g.getOperatorList = .error .assertionError) ∧
      ∀ ops g', g.getOperatorList = .ok (ops, g') → g.OpOrder ops := by
  obtain ⟨order, g1, hschedule, hreads, hlist⟩ :=
    schedule_ok hg.toConsistent hg.unique beyondPreserved
  have hloop := hasLoop_eq hschedule hreads
  have hperm := hlist.perm_iff hg
  obtain ⟨ops, g2, -, hok, hfail⟩ := getOperatorList_eq hg
  have hlisted : ∀ ops' g', g.getOperatorList = .ok (ops', g') → g.Orderable := by
    intro ops' g' h
    by_contra hnot
    rw [hfail hnot] at h
    cases h
  refine ⟨⟨fun ⟨g', h⟩ => ?_, fun h => ⟨g1, ?_⟩⟩, fun h => ⟨g1, ?_⟩,
    ⟨fun ⟨ops', g', h⟩ => hlisted ops' g' h, fun h => ⟨ops, g2, (hok h).1⟩⟩, hfail,
    fun ops' g' h => ?_⟩
  · rw [hloop] at h
    exact hperm.mp (of_decide_eq_false (congrArg Prod.fst (Except.ok.inj h)))
  · rw [hloop, decide_eq_false (hperm.mpr h)]
  · rw [hloop, decide_eq_true (not_not.mp fun hlen => h (hperm.mp hlen))]
  · obtain ⟨hrun, horder⟩ := hok (hlisted ops' g' h)
    rw [hrun] at h
    cases h
    exact horder

/-- A convolution with its activation. -/
theorem hasLoop_conv_relu :
    ∃ g : Graph, g.inEdges.keys.length = 4 ∧ (∃ g', g.hasLoop = .ok (false, g')) ∧ g.Orderable := by
  have hrun : ((([.newInput [1, 1, 4, 4], .newWeight [2, 1, 3, 3] (some 0),
      .conv2d 0 1 1 1 .PD_MODE_SAME .AC_MODE_NONE, .relu 2 false] : List Call).map
        Step.build).foldlM Session.step Session.start).toOption.any (fun s =>
        decide (s.graph.inEdges.keys.length = 4) &&
          s.graph.hasLoop.toOption.any fun r => r.1 = false) = true := by
    decide +kernel
  obtain ⟨s, hs, hcheck⟩ := (Option.any_eq_true _ _).mp hrun
  obtain ⟨hlen, hfalse⟩ := Bool.and_eq_true_iff.mp hcheck
  obtain ⟨⟨b, g'⟩, hloop, hb⟩ := (Option.any_eq_true _ _).mp hfalse
  obtain rfl : b = false := of_decide_eq_true hb
  have hloop' := toOption_eq_some.mp hloop
  have hreach := Session.reachable_of_builds _ (toOption_eq_some.mp hs)
  have hg := (Session.sound_of_reachable hreach).inv.graph
  exact ⟨s.graph, of_decide_eq_true hlen, ⟨g', hloop'⟩,
    (hasLoop_getOperatorList s.graph hg.toNumbered).1.mp ⟨g', hloop'⟩⟩

/-- An operator with a preserved guid that leads into a cycle. -/
def cycleEdges : List Edge :=
  [⟨⟨0, none⟩, ⟨5, none⟩, 0, 0⟩, ⟨⟨5, none⟩, ⟨100, none⟩, 0, 0⟩, ⟨⟨101, none⟩, ⟨100, none⟩, 0, 1⟩,
    ⟨⟨100, none⟩, ⟨101, none⟩, 0, 0⟩]

/-- The arrival from operator 5 is not waited for, and lets operator 100 go before operator 101 that
it reads from. -/
theorem hasLoop_cycle :
    ∃ g g' : Graph, g.Consistent ∧ g.hasLoop = .ok (false, g') ∧
      Relation.TransGen g.Feeds ⟨100, none⟩ ⟨100, none⟩ := by
  have hrun : (Graph.new.addEdges cycleEdges).toOption.any (fun g =>
      (g.hasLoop.toOption.any fun r => r.1 = false) &&
        decide (⟨⟨101, none⟩, ⟨100, none⟩, 0, 1⟩ ∈ g.ins ⟨100, none⟩ ∧
          ⟨⟨100, none⟩, ⟨101, none⟩, 0, 0⟩ ∈ g.ins ⟨101, none⟩)) = true := by
    decide +kernel
  obtain ⟨g, hg, hcheck⟩ := (Option.any_eq_true _ _).mp hrun
  obtain ⟨hfalse, hedges⟩ := Bool.and_eq_true_iff.mp hcheck
  obtain ⟨⟨b, g'⟩, hloop, hb⟩ := (Option.any_eq_true _ _).mp hfalse
  obtain rfl : b = false := of_decide_eq_true hb
  obtain ⟨hto, hback⟩ := of_decide_eq_true hedges
  refine ⟨g, g', consistent_new.added (addEdges_added (toOption_eq_some.mp hg)),
    toOption_eq_some.mp hloop, ?_⟩
  exact (Relation.TransGen.single ⟨_, hback, rfl⟩).tail ⟨_, hto, rfl⟩

end Graph

end Peps
