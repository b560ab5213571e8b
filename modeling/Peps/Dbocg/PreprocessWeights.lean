import Peps.Dbocg.OperatorOrder
import Peps.Dbocg.RewriteSound

/-!
# What `preprocess_weights` keeps

The loop over the weights collects the operators that only read weights (`weightOps`), and the loop
after it takes out those of them that nothing reads, one after the other. In an acyclic graph
`weightOps` are the operators that no input leads to (`mem_weightOps_iff`, `weightOnly_iff`). What
stays in the end are the others and what leads to one of them (`Pruned.mem_keys_iff`): from an
operator of `weightOps` that stays an edge goes on to another that stays, and that cannot go on for
ever.
-/

namespace Peps

open Lib

namespace Graph

variable {g g' : Graph} {weightOps : List Op}

/-- Inputs and weights hang on the two sources outside the graph, other operators on operators of
the graph. -/
structure Sourced (g : Graph) : Prop where
  input : ∀ op ∈ g.inEdges.keys, op.type = some .OP_INPUT →
    ∀ e ∈ g.ins op, e.srcOp.guid ≠ GUID_WEIGHT ∧ e.srcOp ∉ g.inEdges.keys
  weight : ∀ op ∈ g.inEdges.keys, op.type = some .OP_WEIGHT →
    ∀ e ∈ g.ins op, e.srcOp.guid = GUID_WEIGHT
  known : ∀ op ∈ g.inEdges.keys, op.computes → ∀ e ∈ g.ins op, e.srcOp ∈ g.inEdges.keys

instance (g : Graph) : Decidable g.Sourced :=
  decidable_of_iff (∀ op ∈ g.inEdges.keys, ∀ e ∈ g.ins op,
      (op.type = some .OP_INPUT → e.srcOp.guid ≠ GUID_WEIGHT ∧ e.srcOp ∉ g.inEdges.keys) ∧
      (op.type = some .OP_WEIGHT → e.srcOp.guid = GUID_WEIGHT) ∧
      (op.computes → e.srcOp ∈ g.inEdges.keys))
    ⟨fun h => ⟨fun op hop ht e he => (h op hop e he).1 ht, fun op hop ht e he =>
      (h op hop e he).2.1 ht, fun op hop hc e he => (h op hop e he).2.2 hc⟩,
    fun h op hop e he => ⟨fun ht => h.input op hop ht e he, fun ht => h.weight op hop ht e he,
      fun hc => h.known op hop hc e he⟩⟩

/-- An input leads to the operator. -/
def InputDependent (g : Graph) (v : Op) : Prop :=
  ∃ u ∈ g.inEdges.keys, u.type = some .OP_INPUT ∧ Relation.ReflTransGen g.Feeds u v

theorem mem_keys_of_feeds {u v : Op} (h : g.Feeds u v) : v ∈ g.inEdges.keys := by
  obtain ⟨e, he, -⟩ := h
  exact OpMap.mem_keys_of_mem_edges he

theorem InputDependent.mem_keys {v : Op} (h : g.InputDependent v) : v ∈ g.inEdges.keys := by
  obtain ⟨u, hu, -, hpath⟩ := h
  rcases Relation.ReflTransGen.cases_tail hpath with rfl | ⟨w, -, hfeeds⟩
  · exact hu
  · exact mem_keys_of_feeds hfeeds

/-- Whatever the operator reads, in the end it comes from weights. -/
inductive WeightOnly (g : Graph) : Op → Prop where
  | mk {v : Op} (hv : v ∈ g.inEdges.keys)
      (h : ∀ e ∈ g.ins v, e.srcOp.guid ≠ GUID_WEIGHT → WeightOnly g e.srcOp) : WeightOnly g v

/-- The list of the first loop is the list of these operators. -/
theorem mem_weightOps_iff (hacyclic : g.Acyclic) (hsub : ∀ k ∈ weightOps, k ∈ g.inEdges.keys)
    (hclosed : ∀ v ∈ g.inEdges.keys, v ∈ weightOps ↔
      ∀ e ∈ g.ins v, e.srcOp.guid ≠ GUID_WEIGHT → e.srcOp ∈ weightOps) {v : Op} :
    v ∈ weightOps ↔ g.WeightOnly v := by
  constructor
  · intro hv
    induction v using hacyclic.induction with
    | h v ih =>
      have hkey := hsub v hv
      exact .mk hkey fun e he hguid => ih e.srcOp ⟨e, he, rfl⟩ ((hclosed v hkey).mp hv e he hguid)
  · intro hv
    induction hv with
    | mk hv h ih => exact (hclosed _ hv).mpr ih

/-- Nothing behind an input only reads weights. -/
theorem InputDependent.not_weightOnly (hg : g.WellFormed) (hs : g.Sourced) {v : Op}
    (h : g.InputDependent v) : ¬ g.WeightOnly v := by
  obtain ⟨u, hu, hinput, hpath⟩ := h
  induction hpath with
  | refl =>
    rintro ⟨-, hreads⟩
    obtain ⟨e, he, -⟩ := (hg.slots u hu).one 0 (by
      have := hg.arity u hu
      omega)
    obtain ⟨hguid, hout⟩ := hs.input u hu hinput e he
    obtain ⟨hsrc, -⟩ := hreads e he hguid
    exact hout hsrc
  | @tail w x hpath hfeeds ih =>
    rintro ⟨-, hreads⟩
    obtain ⟨e, he, rfl⟩ := hfeeds
    refine ih (hreads e he fun heq => ?_)
    have hguid := hg.numbered _ (InputDependent.mem_keys ⟨u, hu, hinput, hpath⟩)
    rw [heq] at hguid
    exact absurd hguid (by decide)

theorem weightOnly_iff (hg : g.WellFormed) (hs : g.Sourced) (hacyclic : g.Acyclic) {v : Op}
    (hv : v ∈ g.inEdges.keys) : g.WeightOnly v ↔ ¬ g.InputDependent v := by
  refine ⟨fun hweight hdep => hdep.not_weightOnly hg hs hweight, fun hnot => ?_⟩
  induction v using hacyclic.induction with
  | h v ih =>
    refine .mk hv fun e he hguid => ?_
    -- `v` computes something: it is no input, and it reads more than a weight's source
    have hc : v.computes := by
      refine ⟨fun hinput => hnot ⟨v, hv, hinput, .refl⟩, fun hweight => ?_⟩
      exact hguid (hs.weight v hv hweight e he)
    refine ih e.srcOp ⟨e, he, rfl⟩ (hs.known v hv hc e he) fun hdep => hnot ?_
    obtain ⟨u, hu, hinput, hpath⟩ := hdep
    exact ⟨u, hu, hinput, hpath.tail ⟨e, he, rfl⟩⟩

/-- An induction from the operators nothing reads backwards. -/
theorem reverse_induction (hloop : ∀ op, ¬ Relation.TransGen g.Feeds op op) {P : Op → Prop}
    (hstep : ∀ u ∈ g.inEdges.keys, (∀ v, g.Feeds u v → P v) → P u) {u : Op}
    (hu : u ∈ g.inEdges.keys) : P u := by
  have : IsStrictOrder Op (Function.swap (Relation.TransGen g.Feeds)) :=
    { irrefl := hloop, trans := fun _ _ _ h1 h2 => h2.trans h1 }
  have hfinite : ({op | op ∈ g.inEdges.keys} : Set Op).WellFoundedOn
      (Function.swap (Relation.TransGen g.Feeds)) :=
    (List.finite_toSet g.inEdges.keys).wellFoundedOn
  refine hfinite.induction (P := P) hu fun u hu ih => hstep u hu fun v hfeeds => ?_
  exact ih v (mem_keys_of_feeds hfeeds) (Relation.TransGen.single hfeeds)

/-- **What stays** are the operators that do not only read weights, and what leads to one. -/
theorem WellFormed.Pruned.mem_keys_iff (hg' : g'.WellFormed)
    (hloop : ∀ op, ¬ Relation.TransGen g.Feeds op op) (h : WellFormed.Pruned weightOps g g')
    (htight : ∀ k ∈ g'.inEdges.keys, k ∈ weightOps → g'.outs k ≠ []) {u : Op}
    (hu : u ∈ g.inEdges.keys) :
    u ∈ g'.inEdges.keys ↔
      ∃ v ∈ g.inEdges.keys, v ∉ weightOps ∧ Relation.ReflTransGen g.Feeds u v := by
  constructor
  · refine reverse_induction hloop (P := fun u => u ∈ g'.inEdges.keys →
      ∃ v ∈ g.inEdges.keys, v ∉ weightOps ∧ Relation.ReflTransGen g.Feeds u v) ?_ hu
    intro u hu ih hmem
    by_cases hweight : u ∈ weightOps
    · obtain ⟨e, he⟩ := List.exists_mem_of_ne_nil _ (htight u hmem hweight)
      have hown := hg'.outOwn u e he
      subst hown
      have hin := (hg'.dual e).mpr he
      have hdst := OpMap.mem_keys_of_mem_edges hin
      have hfeeds : g.Feeds e.srcOp e.dstOp := ⟨e, (h.ins _ hdst e).mp hin, rfl⟩
      obtain ⟨v, hv, hnot, hpath⟩ := ih e.dstOp hfeeds hdst
      exact ⟨v, hv, hnot, hpath.head hfeeds⟩
    · exact ⟨u, hu, hweight, .refl⟩
  · rintro ⟨v, hv, hnot, hpath⟩
    have hkept : v ∈ g'.inEdges.keys := by
      by_contra hgone
      exact hnot (h.removed v hv hgone).1
    -- back along the path
    induction hpath using Relation.ReflTransGen.head_induction_on with
    | refl => exact hkept
    | @head u w hfeeds hpath ih =>
      by_contra hgone
      exact (h.removed u hu hgone).2 w (ih (mem_keys_of_feeds hfeeds)) hfeeds

/-! ## Values -/

variable {V : Type} [Inhabited V]

/-- In-edges that are the same bring the same. -/
theorem equation_congr (M : Meaning V) (hg : g.WellFormed) (hg' : g'.WellFormed) {op : Op}
    (hop : op ∈ g.inEdges.keys) (hop' : op ∈ g'.inEdges.keys)
    (hins : ∀ e, e ∈ g'.ins op ↔ e ∈ g.ins op) {val val' : Op → Nat → V}
    (hval : ∀ e ∈ g.ins op, val' e.srcOp = val e.srcOp) :
    M.equation g' val' op = M.equation g val op := by
  unfold Meaning.equation
  refine congrArg (M.value op) (List.map_congr_left fun i hi => ?_)
  obtain ⟨e, he, rfl⟩ := (hg.slots op hop).one i (List.mem_range.mp hi)
  rw [inputValue_of_mem val (hg.slots op hop).unique he,
    inputValue_of_mem val' (hg'.slots op hop').unique ((hins e).mpr he), hval e he]

/-- An operator outside both graphs has the same value. -/
theorem equation_outside (M : Meaning V) {op : Op} (hop : op ∉ g.inEdges.keys)
    (hop' : op ∉ g'.inEdges.keys) (val val' : Op → Nat → V) :
    M.equation g' val' op = M.equation g val op := by
  unfold Meaning.equation
  refine congrArg (M.value op) (List.map_congr_left fun i _ => ?_)
  unfold inputValue
  rw [show g.ins op = [] from OpMap.edges_of_not_mem hop,
    show g'.ins op = [] from OpMap.edges_of_not_mem hop']
  rfl

theorem WellFormed.Pruned.values (M : Meaning V) (hg : g.WellFormed) (hg' : g'.WellFormed)
    (hacyclic : g.Acyclic) (h : WellFormed.Pruned weightOps g g') {val val' : Op → Nat → V}
    (hval : M.Values g val) (hval' : M.Values g' val') {op : Op} (hop : op ∈ g'.inEdges.keys) :
    val' op = val op := by
  induction op using hacyclic.induction with
  | h op ih =>
    rw [hval op, hval' op]
    refine equation_congr M hg hg' (h.keys op hop) hop (h.ins op hop) fun e he => ?_
    by_cases hsrc : e.srcOp ∈ g'.inEdges.keys
    · exact ih e.srcOp ⟨e, he, rfl⟩ hsrc
    · have hout : e.srcOp ∉ g.inEdges.keys := fun hkey =>
        (h.removed e.srcOp hkey hsrc).2 op hop ⟨e, he, rfl⟩
      rw [hval e.srcOp, hval' e.srcOp]
      exact equation_outside M hout hsrc val val'

/-! ## The whole pass -/

/-- **`preprocess_weights`** returns, and what it returns has the operators that depend on an input
and those that lead to one, each with the in-edges it had. What it takes out only reads weights and
leads to no operator that depends on an input. Under every reading of the operators, those that stay
have the value they had. -/
theorem preprocessWeights_keeps (g : Graph) (hg : g.WellFormed) (hs : g.Sourced)
    (hloop : ∀ op, ¬ Relation.TransGen g.Feeds op op) :
    ∃ g', g.preprocessWeights = .ok g' ∧
      (∀ op, op ∈ g'.inEdges.keys ↔
        ∃ v, g.InputDependent v ∧ Relation.ReflTransGen g.Feeds op v ∧ op ∈ g.inEdges.keys) ∧
      (∀ op ∈ g'.inEdges.keys, ∀ e, e ∈ g'.ins op ↔ e ∈ g.ins op) ∧
      (∀ op ∈ g.inEdges.keys, op ∉ g'.inEdges.keys ↔
        g.WeightOnly op ∧ ∀ v, Relation.TransGen g.Feeds op v → ¬ g.InputDependent v) ∧
      ∀ (V : Type) [Inhabited V] (M : Meaning V) (val val' : Op → Nat → V),
        M.Values g val → M.Values g' val' → ∀ op ∈ g'.inEdges.keys, val' op = val op := by
  have hacyclic := acyclic_of_loopless hloop
  obtain ⟨weightOps, g', hrun, hg', -, hsub, hclosed, hpruned, htight⟩ :=
    WellFormed.preprocessWeights_spec hg
  have hweight : ∀ v ∈ g.inEdges.keys, v ∉ weightOps ↔ g.InputDependent v := fun v hv => by
    rw [mem_weightOps_iff hacyclic hsub hclosed, weightOnly_iff hg hs hacyclic hv, not_not]
  have hkept : ∀ op, op ∈ g'.inEdges.keys ↔
      ∃ v, g.InputDependent v ∧ Relation.ReflTransGen g.Feeds op v ∧ op ∈ g.inEdges.keys := by
    intro op
    constructor
    · intro hop
      have hkey := hpruned.keys op hop
      obtain ⟨v, hv, hnot, hpath⟩ := (hpruned.mem_keys_iff hg' hloop htight hkey).mp hop
      exact ⟨v, (hweight v hv).mp hnot, hpath, hkey⟩
    · rintro ⟨v, hdep, hpath, hkey⟩
      exact (hpruned.mem_keys_iff hg' hloop htight hkey).mpr
        ⟨v, hdep.mem_keys, (hweight v hdep.mem_keys).mpr hdep, hpath⟩
  refine ⟨g', hrun, hkept, hpruned.ins, fun op hop => ?_, fun V _ M val val' hval hval' op hop =>
    hpruned.values M hg hg' hacyclic hval hval' hop⟩
  rw [weightOnly_iff hg hs hacyclic hop, hkept]
  constructor
  · intro hnot
    exact ⟨fun hdep => hnot ⟨op, hdep, .refl, hop⟩,
      fun v hpath hdep => hnot ⟨v, hdep, hpath.to_reflTransGen, hop⟩⟩
  · rintro ⟨hself, hlater⟩ ⟨v, hdep, hpath, -⟩
    rcases Relation.reflTransGen_iff_eq_or_transGen.mp hpath with rfl | hpath
    · exact hself hdep
    · exact hlater v hpath hdep

/-- A convolution beside a transposed weight that nothing reads: the pass takes out the two. -/
theorem preprocessWeights_conv :
    ∃ g g' : Graph, g.inEdges.keys.length = 5 ∧ g'.inEdges.keys.length = 3 ∧
      g.preprocessWeights = .ok g' ∧
      ∀ op ∈ g.inEdges.keys, op ∉ g'.inEdges.keys ↔
        g.WeightOnly op ∧ ∀ v, Relation.TransGen g.Feeds op v → ¬ g.InputDependent v := by
  have hrun : ((([.newInput [1, 1, 4, 4], .newWeight [2, 1, 3, 3] (some 0),
      .conv2d 0 1 1 1 .PD_MODE_SAME .AC_MODE_NONE, .newWeight [2, 3] (some 1),
      .transpose 3 [1, 0] true] : List Call).map
        Step.build).foldlM Session.step Session.start).toOption.any (fun s =>
        decide (s.graph.inEdges.keys.length = 5) && decide s.graph.Sourced &&
        s.graph.hasLoop.toOption.any (fun r => r.1 = false) &&
        s.graph.preprocessWeights.toOption.any fun g => g.inEdges.keys.length = 3) = true := by
    decide +kernel
  obtain ⟨s, hs, hcheck⟩ := (Option.any_eq_true _ _).mp hrun
  obtain ⟨hcheck, hpass⟩ := Bool.and_eq_true_iff.mp hcheck
  obtain ⟨hcheck, hfalse⟩ := Bool.and_eq_true_iff.mp hcheck
  obtain ⟨hlen, hsourced⟩ := Bool.and_eq_true_iff.mp hcheck
  have hg := (Session.sound_of_reachable
    (Session.reachable_of_builds _ (toOption_eq_some.mp hs))).inv.graph
  obtain ⟨⟨b, g1⟩, hloop, hb⟩ := (Option.any_eq_true _ _).mp hfalse
  obtain rfl : b = false := of_decide_eq_true hb
  obtain ⟨hacyclic, -⟩ := of_hasLoop_false hg.toConsistent hg.unique hg.numbered
    (toOption_eq_some.mp hloop)
  obtain ⟨g', hg', hlen'⟩ := (Option.any_eq_true _ _).mp hpass
  obtain ⟨g2, hrun', -, -, hremoved, -⟩ :=
    preprocessWeights_keeps s.graph hg (of_decide_eq_true hsourced) hacyclic.loopless
  obtain rfl : g2 = g' := Except.ok.inj (hrun'.symm.trans (toOption_eq_some.mp hg'))
  exact ⟨s.graph, g2, of_decide_eq_true hlen, of_decide_eq_true hlen', hrun', hremoved⟩

end Graph

end Peps
