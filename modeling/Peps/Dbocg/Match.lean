import Peps.Dbocg.GraphWellFormed
import Peps.Dbocg.ModelIssue
import Peps.Dbocg.Substitution

/-!
# Consistent matches and the graph they lead to

`MatchOf srcOps g s` says that the state `s` of a search maps the source operators `srcOps`
consistently into the graph: different source operators to different operators of their type, each
input fed by the edge the pattern asks for, every occurrence of an external tensor by the one tensor
it is bound to.

A complete match creates the target operators (`createTargets_ok`) and builds a graph whose edges
are those into operators outside the match, rerouted, and those into the target operators
(`createNewGraph_edges`).
-/

namespace Peps

open Lib

/-! ## Consistent matches -/

/-- The graph tensor a pattern tensor stands for. -/
def Matching.sourceOf (s : Matching) : TensorX → Option (Op × Nat)
  | .ext idx => (s.mappedInputs idx).bind List.head?
  | .out k idx => some (s.mapOp k, idx)

structure MatchOf (srcOps : List OpX) (g : Graph) (s : Matching) : Prop where
  mapped : ∀ op k, s.mappedOps.get? op = some k ↔ k < srcOps.length ∧ s.mapOp k = op
  inGraph : ∀ k < srcOps.length, s.mapOp k ∈ g.inEdges.keys
  body : ∀ k opx, srcOps[k]? = some opx → ∃ p, (s.mapOp k).ptr = some p ∧ p.type = opx.type ∧
    p.numInputs = opx.inputs.length
  constraints : ∀ k opx, srcOps[k]? = some opx →
    ∀ pmc ∈ opx.pmConstraints, checkPmConstraint (s.mapOp k) pmc = .ok true
  fed : ∀ k opx, srcOps[k]? = some opx → ∀ i tx, opx.inputs[i]? = some tx →
    ∃ b, s.sourceOf tx = some b ∧ ⟨b.1, s.mapOp k, b.2, i⟩ ∈ g.ins (s.mapOp k)
  bound : ∀ idx b, s.sourceOf (.ext idx) = some b → ∃ opx ∈ srcOps, .ext idx ∈ opx.inputs

/-- What the constructors of rules guarantee: inputs name earlier operators of their side, the
outputs are mapped to target operators, and no source operator is an input or a weight. -/
structure Rule.WellFormed (x : Rule) : Prop where
  src : ∀ (k : Nat) opx, x.srcOps[k]? = some opx → ∀ j idx, TensorX.out j idx ∈ opx.inputs → j < k
  dst : ∀ (k : Nat) opx, x.dstOps[k]? = some opx → ∀ j idx, TensorX.out j idx ∈ opx.inputs → j < k
  outputs : ∀ k idx d, x.mappedOutput k idx = some d → d.1 < x.dstOps.length
  kinds : ∀ opx ∈ x.srcOps, opx.type ≠ .OP_INPUT ∧ opx.type ≠ .OP_WEIGHT

/-- An operator that is named stands before position `k`. -/
def TensorX.isBefore (k : Nat) : TensorX → Bool
  | .ext _ => true
  | .out j _ => decide (j < k)

theorem out_lt_of_isBefore {ops : List OpX}
    (h : ∀ entry ∈ ops.zipIdx, entry.1.inputs.all (TensorX.isBefore entry.2) = true) (k : Nat)
    (opx : OpX) (hk : ops[k]? = some opx) (j idx : Nat) (hmem : TensorX.out j idx ∈ opx.inputs) :
    j < k :=
  of_decide_eq_true (List.all_eq_true.mp (h (opx, k) (List.mem_zipIdx_iff_getElem?.mpr hk)) _ hmem)

/-- A given rule is checked entry by entry. -/
theorem Rule.wellFormed_of_entries {x : Rule}
    (hsrc : ∀ entry ∈ x.srcOps.zipIdx, entry.1.inputs.all (TensorX.isBefore entry.2) = true)
    (hdst : ∀ entry ∈ x.dstOps.zipIdx, entry.1.inputs.all (TensorX.isBefore entry.2) = true)
    (houtputs : ∀ entry ∈ x.mappedOutputs, entry.2.1 < x.dstOps.length)
    (hkinds : ∀ opx ∈ x.srcOps, opx.type ≠ .OP_INPUT ∧ opx.type ≠ .OP_WEIGHT) : x.WellFormed where
  src := out_lt_of_isBefore hsrc
  dst := out_lt_of_isBefore hdst
  outputs := fun k idx d h => by
    obtain ⟨entry, hentry, rfl⟩ := Option.map_eq_some_iff.mp h
    exact houtputs entry (List.mem_of_find?_eq_some hentry)
  kinds := hkinds

/-- The part of it that the target side alone has to satisfy. -/
structure Rule.Closed (x : Rule) : Prop where
  dst : ∀ (k : Nat) opx, x.dstOps[k]? = some opx → ∀ j idx, TensorX.out j idx ∈ opx.inputs → j < k
  outputs : ∀ k idx d, x.mappedOutput k idx = some d → d.1 < x.dstOps.length

theorem Rule.WellFormed.closed {x : Rule} (h : x.WellFormed) : x.Closed := ⟨h.dst, h.outputs⟩

namespace MatchOf

variable {srcOps : List OpX} {g : Graph} {s : Matching}

theorem mem_mappedOps (h : MatchOf srcOps g s) (op : Op) :
    op ∈ s.mappedOps.keys ↔ ∃ k < srcOps.length, s.mapOp k = op := by
  rw [SortedMap.mem_keys_iff]
  simp only [h.mapped]

/-- An external tensor is bound to the source of an in-edge of a matched operator. -/
theorem bound_edge (h : MatchOf srcOps g s) {idx : Nat} {b : Op × Nat}
    (hb : s.sourceOf (.ext idx) = some b) :
    ∃ k opx i, srcOps[k]? = some opx ∧ ⟨b.1, s.mapOp k, b.2, i⟩ ∈ g.ins (s.mapOp k) := by
  obtain ⟨opx, hopx, hin⟩ := h.bound idx b hb
  obtain ⟨k, hk⟩ := List.getElem?_of_mem hopx
  obtain ⟨i, hi⟩ := List.getElem?_of_mem hin
  obtain ⟨b', hb', he⟩ := h.fed k opx hk i _ hi
  rw [hb] at hb'
  cases hb'
  exact ⟨k, opx, i, hk, he⟩

end MatchOf

/-! ## The target operators -/

/-- The parameters the constraints of a target operator give it. -/
def OpX.targetParams (opx : OpX) : Option OpParams :=
  match opx.type with
  | .OP_CONV2D => do
      let strideH ← ((getPmConstraint opx .PM_STRIDE_H).bind asInt).toOption
      let strideW ← ((getPmConstraint opx .PM_STRIDE_W).bind asInt).toOption
      let padding ← ((getPmConstraint opx .PM_PAD).bind asPadding).toOption
      let activation ← ((getPmConstraint opx .PM_ACTI).bind asActi).toOption
      return .conv2d strideH strideW padding activation
  | .OP_EW_ADD | .OP_EW_MUL => some .none
  | _ => none

/-- A body for a target operator. -/
structure TargetBody (opx : OpX) (p : OpBase) : Prop where
  inputs : opx.inputs.length = 2
  numInputs : p.numInputs = opx.inputs.length
  type : p.type = opx.type
  params : opx.targetParams = some p.params

theorem operands_length {s : Matching} {dstMap : Nat → Op} {opx : OpX} {ts : Tensor × Tensor}
    (h : operands s dstMap opx = .ok ts) : opx.inputs.length = 2 := by
  unfold operands at h
  split at h
  · next x y hinputs => rw [hinputs]; rfl
  · cases h

theorem newOperator_issued {s : Matching} {dstMap : Nat → Op} {m m' : Model} {opx : OpX} {op : Op}
    (hm : m.Sound) (h : newOperator s dstMap m opx = .ok (op, m')) :
    (op = Op.invalid ∧ m' = m) ∨ m.Issued (TargetBody opx) op m' := by
  unfold newOperator at h
  split at h
  · next htype =>
    simp only [bind_ok_iff] at h
    obtain ⟨ts, hops, c1, h1, c2, h2, c3, h3, c4, h4, sh, hsh, sw, hsw, pd, hpd, ac, hac, h⟩ := h
    have hlen := operands_length hops
    refine (Model.conv2d_issued hm h).imp_right fun hissue => hissue.weaken ?_
    rintro p ⟨hnum, hkind, hparams⟩
    refine ⟨hlen, hnum.trans hlen.symm, hkind.trans htype.symm, ?_⟩
    unfold OpX.targetParams
    rw [htype]
    simp [h1, h2, h3, h4, hsh, hsw, hpd, hac, hparams, Except.bind, Except.toOption]
  · next htype =>
    simp only [bind_ok_iff] at h
    obtain ⟨ts, hops, h⟩ := h
    have hlen := operands_length hops
    refine (Model.element_issued hm h).imp_right fun hissue => hissue.weaken ?_
    rintro p ⟨hnum, hkind, hparams⟩
    refine ⟨hlen, hnum.trans hlen.symm, hkind.trans htype.symm, ?_⟩
    unfold OpX.targetParams
    rw [htype, hparams]
  · next htype =>
    simp only [bind_ok_iff] at h
    obtain ⟨ts, hops, h⟩ := h
    have hlen := operands_length hops
    refine (Model.element_issued hm h).imp_right fun hissue => hissue.weaken ?_
    rintro p ⟨hnum, hkind, hparams⟩
    refine ⟨hlen, hnum.trans hlen.symm, hkind.trans htype.symm, ?_⟩
    unfold OpX.targetParams
    rw [htype, hparams]
  · simp only [bind_ok_iff] at h
    obtain ⟨-, -, -, -, h⟩ := h
    cases h
    exact Or.inl ⟨rfl, rfl⟩
  · cases h

theorem createNewOperator_ok {s : Matching} {dstMap dstMap' : Nat → Op} {m m' : Model} {k : Nat}
    {opx : OpX} {created : Bool} (hm : m.Sound)
    (h : createNewOperator s dstMap m k opx = .ok (created, dstMap', m')) :
    m'.Sound ∧ m.global_unique_id ≤ m'.global_unique_id ∧ (created = true →
      m'.global_unique_id = m.global_unique_id + 1 ∧ ∃ p, TargetBody opx p ∧
        dstMap' = Function.update dstMap k ⟨m.global_unique_id, some p⟩) := by
  simp only [createNewOperator, bind_ok_iff] at h
  obtain ⟨⟨op, m1⟩, hnew, h⟩ := h
  rcases newOperator_issued hm hnew with ⟨rfl, rfl⟩ | hissue
  · rw [if_pos rfl] at h
    cases h
    exact ⟨hm, Nat.le_refl _, fun h => (by cases h)⟩
  · have hnext := hissue.next
    have hle : m.global_unique_id ≤ m1.global_unique_id := by omega
    obtain ⟨p, rfl, hp⟩ := hissue.op
    split at h
    · cases h
      exact ⟨hissue.sound, hle, fun h => (by cases h)⟩
    · simp only [bind_ok_iff] at h
      obtain ⟨ok, -, h⟩ := h
      split at h
      · cases h
        exact ⟨hissue.sound, hle, fun _ => ⟨hnext, p, hp, rfl⟩⟩
      · cases h
        exact ⟨hissue.sound, hle, fun h => (by cases h)⟩

/-- **The target operators**: numbered one after the other from the counter of the `Model` on. -/
theorem createTargets_ok {s : Matching} {opxs : List OpX} {n : Nat} {dstMap dstMap' : Nat → Op}
    {m m' : Model} {created : Bool} (hm : m.Sound)
    (h : createTargets s (opxs.zipIdx n) dstMap m = .ok (created, dstMap', m')) :
    m'.Sound ∧ m.global_unique_id ≤ m'.global_unique_id ∧ (created = true →
      m'.global_unique_id = m.global_unique_id + opxs.length ∧ (∀ j < n, dstMap' j = dstMap j) ∧
      ∀ i opx, opxs[i]? = some opx →
        ∃ p, TargetBody opx p ∧ dstMap' (n + i) = ⟨m.global_unique_id + i, some p⟩) := by
  induction opxs generalizing n dstMap m with
  | nil =>
    cases h
    exact ⟨hm, Nat.le_refl _, fun _ => ⟨rfl, fun _ _ => rfl, fun i opx hi => (by cases hi)⟩⟩
  | cons opx opxs ih =>
    rw [List.zipIdx_cons, createTargets] at h
    simp only [bind_ok_iff] at h
    obtain ⟨⟨ok, map1, m1⟩, hone, h⟩ := h
    obtain ⟨hm1, hle1, hnew⟩ := createNewOperator_ok hm hone
    cases ok with
    | false =>
      cases h
      exact ⟨hm1, hle1, fun h => (by cases h)⟩
    | true =>
      obtain ⟨hnext, p, hp, rfl⟩ := hnew rfl
      replace h : createTargets s (opxs.zipIdx (n + 1))
          (Function.update dstMap n ⟨m.global_unique_id, some p⟩) m1 = .ok (created, dstMap', m') := h
      obtain ⟨hm', hle', hrest⟩ := ih hm1 h
      refine ⟨hm', by omega, fun hcreated => ?_⟩
      obtain ⟨hcount, hkeep, hall⟩ := hrest hcreated
      refine ⟨by rw [hcount, hnext, List.length_cons]; omega, fun j hj => ?_, fun i opx' hi => ?_⟩
      · rw [hkeep j (by omega), Function.update_of_ne (by omega)]
      · cases i with
        | zero =>
          cases hi
          refine ⟨p, hp, ?_⟩
          rw [Nat.add_zero, hkeep n (Nat.lt_succ_self n), Function.update_self, Nat.add_zero]
        | succ i =>
          rw [List.getElem?_cons_succ] at hi
          obtain ⟨q, hq, heq⟩ := hall i opx' hi
          refine ⟨q, hq, ?_⟩
          rw [show n + (i + 1) = n + 1 + i by omega, heq, hnext]
          congr 1
          omega

/-! ## The new graph -/

theorem mem_outsideEdges {s : Matching} {g : Graph} {e : Edge} :
    e ∈ outsideEdges s g ↔ ∃ op, op ∉ s.mappedOps.keys ∧ e ∈ g.ins op := by
  unfold outsideEdges
  simp only [List.mem_flatMap, List.mem_filter, decide_eq_true_eq]
  constructor
  · rintro ⟨entry, ⟨hmem, hout⟩, he⟩
    refine ⟨entry.1, hout, ?_⟩
    rw [show g.ins entry.1 = entry.2.edges from OpMap.edges_eq_of_mem hmem]
    exact he
  · rintro ⟨op, hout, he⟩
    obtain ⟨set, hset⟩ := SortedMap.mem_keys_iff.mp (OpMap.mem_keys_of_mem_edges he)
    have hmem := SortedMap.mem_entries_iff.mpr hset
    refine ⟨(op, set), ⟨hmem, hout⟩, ?_⟩
    rwa [← OpMap.edges_eq_of_mem hmem]

theorem rewireEdge_ok {x : Rule} {s : Matching} {dstMap : Nat → Op} {e f : Edge}
    (h : rewireEdge x s dstMap e = .ok f) :
    (e.srcOp ∉ s.mappedOps.keys ∧ f = e) ∨
      ∃ k d, s.mappedOps.get? e.srcOp = some k ∧ x.mappedOutput k e.srcIdx = some d ∧
        f = ⟨dstMap d.1, e.dstOp, d.2, e.dstIdx⟩ := by
  unfold rewireEdge at h
  split at h
  · next hnone =>
    cases h
    exact Or.inl ⟨SortedMap.get?_eq_none_iff.mp hnone, rfl⟩
  · next k hk =>
    simp only [bind_ok_iff] at h
    obtain ⟨d, hd, h⟩ := h
    cases h
    unfold pyUnwrap at hd
    split at hd
    · cases hd
    · next hsome =>
      cases hd
      exact Or.inr ⟨k, d, hk, hsome, rfl⟩

/-- The graph tensor an input of a target operator stands for. -/
def Matching.targetSource (s : Matching) (dstMap : Nat → Op) : TensorX → Option (Op × Nat)
  | .ext idx => s.sourceOf (.ext idx)
  | .out j idx => some (dstMap j, idx)

theorem targetEdge_ok {s : Matching} {dstMap : Nat → Op} {k i : Nat} {tx : TensorX} {f : Edge}
    (h : targetEdge s dstMap k (tx, i) = .ok f) :
    ∃ b, s.targetSource dstMap tx = some b ∧ f = ⟨b.1, dstMap k, b.2, i⟩ := by
  cases tx with
  | ext idx =>
    simp only [targetEdge, bind_ok_iff] at h
    obtain ⟨bindings, hbindings, b, hb, h⟩ := h
    cases h
    refine ⟨b, ?_, rfl⟩
    show (s.mappedInputs idx).bind List.head? = some b
    cases hm : s.mappedInputs idx with
    | none =>
      rw [hm] at hbindings
      cases hbindings
    | some bs =>
      rw [hm] at hbindings
      cases hbindings
      cases bindings with
      | nil => cases hb
      | cons b' bs =>
        cases hb
        rfl
  | out j idx =>
    cases h
    exact ⟨(dstMap j, idx), rfl, rfl⟩

/-- The edges of the new graph. -/
structure NewEdges (x : Rule) (s : Matching) (dstMap : Nat → Op) (g : Graph) (es : List Edge) :
    Prop where
  mem : ∀ f, f ∈ es ↔ (∃ e ∈ outsideEdges s g, rewireEdge x s dstMap e = .ok f) ∨
    ∃ k opx i tx, x.dstOps[k]? = some opx ∧ opx.inputs[i]? = some tx ∧
      targetEdge s dstMap k (tx, i) = .ok f
  outside : ∀ e ∈ outsideEdges s g, ∃ f, rewireEdge x s dstMap e = .ok f
  target : ∀ k opx i tx, x.dstOps[k]? = some opx → opx.inputs[i]? = some tx →
    ∃ f, targetEdge s dstMap k (tx, i) = .ok f

theorem createNewGraph_edges {x : Rule} {s : Matching} {dstMap : Nat → Op} {g g' : Graph}
    (h : createNewGraph x s dstMap g = .ok g') :
    ∃ es, NewEdges x s dstMap g es ∧ Graph.EdgesAdded Graph.new es g' := by
  simp only [createNewGraph, bind_ok_iff] at h
  obtain ⟨kept, hkept, added, hadded, h⟩ := h
  obtain ⟨hkmem, hkall⟩ := mapM_ok hkept
  obtain ⟨hamem, haall⟩ := mapM_ok hadded
  -- the inputs of the target operators, as positions
  have hinput : ∀ k input, (k, input) ∈ (x.dstOps.zipIdx.flatMap fun entry =>
      entry.1.inputs.zipIdx.map fun input => (entry.2, input)) ↔
      ∃ opx, x.dstOps[k]? = some opx ∧ opx.inputs[input.2]? = some input.1 := by
    intro k input
    simp only [List.mem_flatMap, List.mem_map, Prod.mk.injEq, Prod.exists,
      List.mem_zipIdx_iff_getElem?]
    constructor
    · rintro ⟨opx, j, hj, tx, i, hi, rfl, rfl⟩
      exact ⟨opx, hj, hi⟩
    · rintro ⟨opx, hj, hi⟩
      exact ⟨opx, k, hj, input.1, input.2, hi, rfl, rfl⟩
  refine ⟨kept ++ added, ⟨fun f => ?_, hkall, fun k opx i tx hk hi => ?_⟩,
    Graph.addEdges_added h⟩
  · rw [List.mem_append, hkmem, hamem]
    refine or_congr_right ⟨?_, ?_⟩
    · rintro ⟨⟨k, input⟩, hmem, hf⟩
      obtain ⟨opx, hk, hi⟩ := (hinput k input).mp hmem
      exact ⟨k, opx, input.2, input.1, hk, hi, hf⟩
    · rintro ⟨k, opx, i, tx, hk, hi, hf⟩
      exact ⟨(k, (tx, i)), (hinput k (tx, i)).mpr ⟨opx, hk, hi⟩, hf⟩
  · exact haall (k, (tx, i)) ((hinput k (tx, i)).mpr ⟨opx, hk, hi⟩)

/-! ## The new graph is well-formed -/

/-- The target operators of a rule, numbered from `first` on. -/
def Rule.Targets (x : Rule) (dstMap : Nat → Op) (first : Nat) : Prop :=
  ∀ k opx, x.dstOps[k]? = some opx → ∃ p, TargetBody opx p ∧ dstMap k = ⟨first + k, some p⟩

section NewGraph

variable {x : Rule} {s : Matching} {dstMap : Nat → Op} {first : Nat} {g : Graph} {es : List Edge}

theorem Rule.Targets.guid (h : x.Targets dstMap first) {k : Nat} (hk : k < x.dstOps.length) :
    (dstMap k).guid = first + k ∧ (dstMap k).ptr ≠ none := by
  obtain ⟨p, -, heq⟩ := h k _ (List.getElem?_eq_getElem hk)
  rw [heq]
  exact ⟨rfl, fun h => (by cases h)⟩

theorem Rule.Targets.unique {known : Op → Prop} (h : x.Targets dstMap first)
    (hknown : UniqueGuids known) (hfresh : ∀ op, known op → op.guid < first) :
    UniqueGuids fun op => known op ∨ ∃ k < x.dstOps.length, op = dstMap k := by
  -- known operators are below `first`, target operators are numbered from it on
  rintro a b (ha | ⟨j, hj, rfl⟩) (hb | ⟨k, hk, rfl⟩) heq
  · exact hknown a b ha hb heq
  · have hlt := hfresh a ha
    rw [heq, (h.guid hk).1] at hlt
    omega
  · have hlt := hfresh b hb
    rw [← heq, (h.guid hj).1] at hlt
    omega
  · rw [(h.guid hj).1, (h.guid hk).1] at heq
    rw [Nat.add_left_cancel heq]

/-- An edge of the new graph leads into an operator outside the match, or into a target operator. -/
theorem NewEdges.cases (hes : NewEdges x s dstMap g es) (hg : g.Consistent) {f : Edge}
    (hf : f ∈ es) :
    (∃ e, e.dstOp ∉ s.mappedOps.keys ∧ e ∈ g.ins e.dstOp ∧ rewireEdge x s dstMap e = .ok f ∧
      f.dstOp = e.dstOp ∧ f.dstIdx = e.dstIdx) ∨
    ∃ k opx i tx b, x.dstOps[k]? = some opx ∧ opx.inputs[i]? = some tx ∧
      s.targetSource dstMap tx = some b ∧ f = ⟨b.1, dstMap k, b.2, i⟩ := by
  rcases (hes.mem f).mp hf with ⟨e, he, hrewire⟩ | ⟨k, opx, i, tx, hk, hi, hf⟩
  · obtain ⟨op, hout, he⟩ := mem_outsideEdges.mp he
    have hown := hg.inOwn op e he
    subst hown
    refine Or.inl ⟨e, hout, he, hrewire, ?_⟩
    rcases rewireEdge_ok hrewire with ⟨-, rfl⟩ | ⟨j, d, -, -, rfl⟩
    · exact ⟨rfl, rfl⟩
    · exact ⟨rfl, rfl⟩
  · obtain ⟨b, hb, rfl⟩ := targetEdge_ok hf
    exact Or.inr ⟨k, opx, i, tx, b, hk, hi, hb, rfl⟩

section Edges

variable (hg : g.Consistent) (hes : NewEdges x s dstMap g es) (htargets : x.Targets dstMap first)
  (hfresh : ∀ op, g.Mentions op → op.guid < first)

include hes hg htargets hfresh in
/-- The edges into an operator of the old graph are its old ones, rerouted. -/
theorem NewEdges.outside_edge {op : Op} (hop : g.Mentions op) {f : Edge} (hf : f ∈ es)
    (hdst : f.dstOp = op) :
    op ∉ s.mappedOps.keys ∧
      ∃ e ∈ g.ins op, rewireEdge x s dstMap e = .ok f ∧ f.dstIdx = e.dstIdx := by
  rcases hes.cases hg hf with ⟨e, hout, he, hrewire, hd, hi⟩ | ⟨k, opx, i, tx, b, hk, -, -, rfl⟩
  · rw [hdst] at hd
    subst hd
    exact ⟨hout, e, he, hrewire, hi⟩
  · -- the guid of a target operator is new
    have hlt := hfresh _ hop
    have hguid := (htargets.guid (List.getElem?_eq_some_iff.mp hk).1).1
    rw [← show dstMap k = op from hdst] at hlt
    omega

include hes hg htargets hfresh in
/-- The edges into a target operator are those of its inputs. -/
theorem NewEdges.target_edge {k : Nat} {opx : OpX} (hk : x.dstOps[k]? = some opx) {f : Edge}
    (hf : f ∈ es) (hdst : f.dstOp = dstMap k) :
    ∃ i tx b, opx.inputs[i]? = some tx ∧ s.targetSource dstMap tx = some b ∧
      f = ⟨b.1, dstMap k, b.2, i⟩ := by
  have hguid := (htargets.guid (List.getElem?_eq_some_iff.mp hk).1).1
  rcases hes.cases hg hf with ⟨e, -, he, -, hd, -⟩ | ⟨k', opx', i, tx, b, hk', hi, hb, rfl⟩
  · have hlt := hfresh e.dstOp (Or.inl (OpMap.mem_keys_of_mem_edges he))
    rw [← hd, hdst] at hlt
    omega
  · have hguid' := (htargets.guid (List.getElem?_eq_some_iff.mp hk').1).1
    have hkk : k' = k := by
      rw [show dstMap k' = dstMap k from hdst] at hguid'
      omega
    subst hkk
    rw [hk] at hk'
    cases hk'
    exact ⟨i, tx, b, hi, hb, rfl⟩

variable (hx : x.Closed) (hs : MatchOf x.srcOps g s)

include hes hg hx hs in
/-- The source of an edge of the new graph is a source of the old one or a target operator. -/
theorem NewEdges.source_known {f : Edge} (hf : f ∈ es) :
    g.Mentions f.srcOp ∨ ∃ k < x.dstOps.length, f.srcOp = dstMap k := by
  rcases hes.cases hg hf with ⟨e, -, he, hrewire, -, -⟩ | ⟨k, opx, i, tx, b, hk, hi, hb, rfl⟩
  · rcases rewireEdge_ok hrewire with ⟨-, rfl⟩ | ⟨j, d, -, hout, rfl⟩
    · exact Or.inl (Or.inr (hg.src_mem he))
    · exact Or.inr ⟨d.1, hx.outputs j _ d hout, rfl⟩
  · cases tx with
    | ext idx =>
      obtain ⟨j, _, _, -, he⟩ := hs.bound_edge hb
      have hsrc : b.1 ∈ g.outEdges.keys := hg.src_mem he
      exact Or.inl (Or.inr hsrc)
    | out j idx =>
      cases hb
      have hjk := hx.dst k opx hk j idx (List.mem_of_getElem? hi)
      have hklt := (List.getElem?_eq_some_iff.mp hk).1
      exact Or.inr ⟨j, by omega, rfl⟩

include hes hg in
theorem NewEdges.dst_known {f : Edge} (hf : f ∈ es) :
    (f.dstOp ∈ g.inEdges.keys ∧ f.dstOp ∉ s.mappedOps.keys) ∨
      ∃ k opx, x.dstOps[k]? = some opx ∧ f.dstOp = dstMap k := by
  rcases hes.cases hg hf with ⟨e, hout, he, -, hd, -⟩ | ⟨k, opx, i, tx, b, hk, -, -, rfl⟩
  · rw [hd]
    exact Or.inl ⟨OpMap.mem_keys_of_mem_edges he, hout⟩
  · exact Or.inr ⟨k, opx, hk, rfl⟩

include hes hg hx hs in
theorem NewEdges.mentions {g' : Graph} (hadd : Graph.EdgesAdded Graph.new es g') {op : Op}
    (hop : g'.Mentions op) : g.Mentions op ∨ ∃ k < x.dstOps.length, op = dstMap k := by
  rcases hop with hop | hop
  · rcases (hadd.inKeys op).mp hop with hop | ⟨f, hf, rfl⟩
    · cases hop
    · exact (hes.dst_known hg hf).imp (fun h => Or.inl h.1) fun ⟨k, opx, hk, heq⟩ =>
        ⟨k, (List.getElem?_eq_some_iff.mp hk).1, heq⟩
  · rcases (hadd.outKeys op).mp hop with hop | ⟨f, hf, rfl⟩
    · cases hop
    · exact hes.source_known hg hx hs hf

variable (hslots : ∀ op ∈ g.inEdges.keys, Graph.SlotsFilled (· ∈ g.ins op) op)

include hes hg hslots htargets hfresh in
/-- The edges into an operator outside the match fill its slots as those of the old graph do. -/
theorem NewEdges.slots_outside {op : Op} (hkey : op ∈ g.inEdges.keys)
    (hout : op ∉ s.mappedOps.keys) :
    Graph.SlotsFilled (fun f => f ∈ es ∧ f.dstOp = op) op := by
  have hold := hslots op hkey
  have hback : ∀ f, f ∈ es ∧ f.dstOp = op →
      ∃ e ∈ g.ins op, rewireEdge x s dstMap e = .ok f ∧ f.dstIdx = e.dstIdx := fun f hf =>
    (hes.outside_edge hg htargets hfresh (Or.inl hkey) hf.1 hf.2).2
  refine ⟨fun f hf => ?_, fun i hi => ?_, fun a b ha hb heq => ?_⟩
  · obtain ⟨e, he, -, hidx⟩ := hback f hf
    rw [hidx]
    exact hold.bound e he
  · obtain ⟨e, he, rfl⟩ := hold.one i hi
    have hmem : e ∈ outsideEdges s g := mem_outsideEdges.mpr ⟨op, hout, he⟩
    obtain ⟨f, hf⟩ := hes.outside e hmem
    have hown := hg.inOwn op e he
    refine ⟨f, ⟨(hes.mem f).mpr (Or.inl ⟨e, hmem, hf⟩), ?_⟩, ?_⟩ <;>
      rcases rewireEdge_ok hf with ⟨-, rfl⟩ | ⟨j, d, -, -, rfl⟩
    · exact hown
    · exact hown
    · rfl
    · rfl
  · obtain ⟨a', ha', hra, hia⟩ := hback a ha
    obtain ⟨b', hb', hrb, hib⟩ := hback b hb
    have hsame := hold.unique a' b' ha' hb' (by rw [← hia, ← hib, heq])
    rw [hsame, hrb] at hra
    exact (Except.ok.inj hra).symm

include hes hg htargets hfresh in
theorem NewEdges.slots_target {k : Nat} {opx : OpX} (hk : x.dstOps[k]? = some opx) :
    Graph.SlotsFilled (fun f => f ∈ es ∧ f.dstOp = dstMap k) (dstMap k) := by
  obtain ⟨p, hp, hbody⟩ := htargets k opx hk
  have hnum : (dstMap k).numInputs = opx.inputs.length := by
    rw [hbody]
    exact hp.numInputs
  refine ⟨fun f hf => ?_, fun i hi => ?_, fun a b ha hb heq => ?_⟩
  · obtain ⟨i, tx, b, hi, -, rfl⟩ := hes.target_edge hg htargets hfresh hk hf.1 hf.2
    rw [hnum]
    exact (List.getElem?_eq_some_iff.mp hi).1
  · rw [hnum] at hi
    have hi' := List.getElem?_eq_getElem hi
    obtain ⟨f, hf⟩ := hes.target k opx i _ hk hi'
    refine ⟨f, ⟨(hes.mem f).mpr (Or.inr ⟨k, opx, i, _, hk, hi', hf⟩), ?_⟩, ?_⟩ <;>
      obtain ⟨b, -, rfl⟩ := targetEdge_ok hf <;> rfl
  · obtain ⟨i, tx, c, hi, hc, rfl⟩ := hes.target_edge hg htargets hfresh hk ha.1 ha.2
    obtain ⟨j, ty, d, hj, hd, rfl⟩ := hes.target_edge hg htargets hfresh hk hb.1 hb.2
    have hij : i = j := heq
    subst hij
    rw [hi] at hj
    cases hj
    rw [hc] at hd
    cases hd
    rfl

include hes hg hslots htargets hfresh in
theorem NewEdges.slots {f : Edge} (hf : f ∈ es) :
    Graph.SlotsFilled (fun f' => f' ∈ es ∧ f'.dstOp = f.dstOp) f.dstOp := by
  rcases hes.dst_known hg hf with ⟨hkey, hout⟩ | ⟨k, opx, hk, heq⟩
  · exact hes.slots_outside hg htargets hfresh hslots hkey hout
  · rw [heq]
    exact hes.slots_target hg htargets hfresh hk

end Edges

variable (hg : g.WellFormed) (hes : NewEdges x s dstMap g es) (htargets : x.Targets dstMap first)
  (hfresh : ∀ op, g.Mentions op → op.guid < first)
  (hx : x.WellFormed) (hs : MatchOf x.srcOps g s)

include hg hx hs in
/-- What a matched operator reads has a body, since none is an input or a weight. -/
theorem bound_body {idx : Nat} {b : Op × Nat} (hb : s.sourceOf (.ext idx) = some b) :
    g.Mentions b.1 ∧ b.1.ptr ≠ none := by
  obtain ⟨k, opx, i, hk, he⟩ := hs.bound_edge hb
  obtain ⟨p, hp, htype, -⟩ := hs.body k opx hk
  have hkind := hx.kinds opx (List.mem_of_getElem? hk)
  have hcomputes : Op.computes (s.mapOp k) := by
    simp only [Op.computes, Op.type, hp, Option.map_some, htype, ne_eq, Option.some.injEq]
    exact hkind
  exact ⟨Or.inr (hg.src_mem he),
    hg.fed _ (hs.inGraph k (List.getElem?_eq_some_iff.mp hk).1) hcomputes _ he⟩

include hes hg htargets hx hs in
/-- What an operator of the new graph reads has a body, as in the old one. -/
theorem NewEdges.source_body {f : Edge} (hf : f ∈ es) (hc : Op.computes f.dstOp) :
    f.srcOp.ptr ≠ none := by
  rcases hes.cases hg.toConsistent hf with ⟨e, -, he, hrewire, -, -⟩ | ⟨k, opx, i, tx, b, hk, hi, hb, rfl⟩
  · rcases rewireEdge_ok hrewire with ⟨-, rfl⟩ | ⟨j, d, -, hout, rfl⟩
    · exact hg.fed _ (OpMap.mem_keys_of_mem_edges he) hc _ he
    · exact (htargets.guid (hx.outputs j _ d hout)).2
  · cases tx with
    | ext idx => exact (bound_body hg hx hs hb).2
    | out j idx =>
      cases hb
      have hjk := hx.dst k opx hk j idx (List.mem_of_getElem? hi)
      have hklt := (List.getElem?_eq_some_iff.mp hk).1
      exact (htargets.guid (by omega : j < x.dstOps.length)).2

include hg htargets hfresh hx hs in
/-- **`create_new_graph`** at a consistent match gives a well-formed graph, of old operators and
the target operators. -/
theorem createNewGraph_wellFormed {g' : Graph} (hfirst : GUID_PRESERVED < first)
    (hnew : createNewGraph x s dstMap g = .ok g') :
    g'.WellFormed ∧ ∀ op, g'.Mentions op →
      g.Mentions op ∨ ∃ k < x.dstOps.length, op = dstMap k := by
  obtain ⟨es, hes, hadd⟩ := createNewGraph_edges hnew
  have hmention : ∀ op, g'.Mentions op → g.Mentions op ∨ ∃ k < x.dstOps.length, op = dstMap k :=
    fun op hop => hes.mentions hg.toConsistent hx.closed hs hadd hop
  refine ⟨Graph.wellFormed_new.extend hadd (fun f _ hkey => by cases hkey)
    (fun f hf => hes.slots hg.toConsistent htargets hfresh hg.slots hf) (fun f hf => ?_)
    (fun f hf => hes.source_body hg htargets hx hs hf) fun a b ha hb heq => ?_, hmention⟩
  · rcases hes.dst_known hg.toConsistent hf with ⟨hkey, -⟩ | ⟨k, opx, hk, heq⟩
    · exact ⟨hg.body _ hkey, hg.arity _ hkey, hg.numbered _ hkey⟩
    · obtain ⟨p, hp, hbody⟩ := htargets k opx hk
      rw [heq, hbody]
      refine ⟨fun h => (by cases h), Or.inr (hp.numInputs.trans hp.inputs), ?_⟩
      show GUID_PRESERVED < first + k
      omega
  · exact htargets.unique hg.unique hfresh a b (hmention a ha) (hmention b hb) heq

end NewGraph

end Peps
