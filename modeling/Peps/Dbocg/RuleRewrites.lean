import Peps.Dbocg.Optimize
import Peps.Dbocg.RewriteSound
import Peps.Dbocg.RuleLoader

/-!
# Rewriting with the rules of the file

A rule that the loader accepts has what `create_new_graph` asserts: external tensors that the match
has bound, and mapped outputs (`createNewGraph_of_loaded`). Few of the operator types that the loader
knows take part in a rewrite that goes through (`rewrites_of_loaded`): for most no target operator is
created, and a concatenation has a constraint that can not be checked.
-/

namespace Peps

open Lib

namespace RuleLoader

/-! ## The new graph is built -/

section Rewriting

variable {r : Rule} {g : Graph} {s : Matching} {dstMap : Nat → Op}

/-- An external tensor of the target side was bound by the match. -/
theorem FromFile.bound (hr : FromFile r) (hs : MatchOf r.srcOps g s) {opx : OpX}
    (hopx : opx ∈ r.dstOps) {idx : Nat} (hmem : .ext idx ∈ opx.inputs) :
    ∃ b, s.sourceOf (.ext idx) = some b := by
  obtain ⟨opx', hopx', hmem'⟩ := hr.exts opx hopx idx hmem
  obtain ⟨k, hk⟩ := List.getElem?_of_mem hopx'
  obtain ⟨i, hi⟩ := List.getElem?_of_mem hmem'
  obtain ⟨b, hb, -⟩ := hs.fed k opx' hk i _ hi
  exact ⟨b, hb⟩

theorem targetEdge_of_bound {k i : Nat} {tx : TensorX}
    (h : ∀ idx, tx = .ext idx → ∃ b, s.sourceOf (.ext idx) = some b) :
    ∃ f, targetEdge s dstMap k (tx, i) = .ok f := by
  cases tx with
  | out j idx => exact ⟨_, rfl⟩
  | ext idx =>
    obtain ⟨b, hb⟩ := h idx rfl
    obtain ⟨bindings, hbindings, hhead⟩ := Option.bind_eq_some_iff.mp hb
    rw [targetEdge, hbindings]
    cases bindings with
    | nil => cases hhead
    | cons b' rest => exact ⟨_, rfl⟩

/-- An edge from the match to an operator outside can be rerouted once the outputs were tested. -/
theorem rewireEdge_of_outputsMapped (dstMap : Nat → Op) (hg : g.WellFormed)
    (houtputs : outputsMapped r s g = .ok true) {e : Edge} (he : e ∈ outsideEdges s g) :
    ∃ f, rewireEdge r s dstMap e = .ok f := by
  unfold rewireEdge
  cases hk : s.mappedOps.get? e.srcOp with
  | none => exact ⟨e, rfl⟩
  | some k =>
    obtain ⟨op, hout, hin⟩ := mem_outsideEdges.mp he
    have hown := hg.inOwn op e hin
    subst hown
    have hread : e ∈ g.outs e.srcOp := (hg.dual e).mp hin
    have htest := allM_eq_true.mp houtputs (e.srcOp, k) (SortedMap.mem_entries_iff.mpr hk)
    obtain ⟨g1, hedges, -⟩ := Graph.outEdgesOf_ok hg.unique (Or.inr (hg.src_mem hin))
    rw [show g.outEdgesOf (e.srcOp, k).1 = _ from hedges] at htest
    have hall := List.all_eq_true.mp (Except.ok.inj htest) e hread
    rw [decide_eq_false hout, Bool.false_or] at hall
    obtain ⟨d, hd⟩ := Option.isSome_iff_exists.mp hall
    show ∃ f, (pyUnwrap (r.mappedOutput k e.srcIdx) >>= fun dst => _) = .ok f
    rw [hd]
    exact ⟨_, rfl⟩

/-- Both ends of a rerouted edge are known. -/
theorem rewireEdge_ends (hr : r.WellFormed) (hg : g.WellFormed) {e f : Edge}
    (he : e ∈ outsideEdges s g) (hf : rewireEdge r s dstMap e = .ok f) :
    (g.Mentions f.srcOp ∨ ∃ k < r.dstOps.length, f.srcOp = dstMap k) ∧ g.Mentions f.dstOp := by
  obtain ⟨op, -, hin⟩ := mem_outsideEdges.mp he
  have hown := hg.inOwn op e hin
  subst hown
  have hdst : g.Mentions e.dstOp := Or.inl (OpMap.mem_keys_of_mem_edges hin)
  rcases rewireEdge_ok hf with ⟨-, rfl⟩ | ⟨k, d, -, hd, rfl⟩
  · exact ⟨Or.inl (Or.inr (hg.src_mem hin)), hdst⟩
  · exact ⟨Or.inr ⟨d.1, hr.outputs k _ d hd, rfl⟩, hdst⟩

/-- Both ends of an edge into a target operator are known. -/
theorem targetEdge_ends (hr : r.WellFormed) (hg : g.WellFormed) (hs : MatchOf r.srcOps g s)
    {k i : Nat} {opx : OpX} {tx : TensorX} {f : Edge} (hk : r.dstOps[k]? = some opx)
    (hi : opx.inputs[i]? = some tx) (hf : targetEdge s dstMap k (tx, i) = .ok f) :
    (g.Mentions f.srcOp ∨ ∃ j < r.dstOps.length, f.srcOp = dstMap j) ∧ f.dstOp = dstMap k := by
  obtain ⟨b, hb, rfl⟩ := targetEdge_ok hf
  refine ⟨?_, rfl⟩
  cases tx with
  | ext idx =>
    obtain ⟨_, _, _, -, he⟩ := hs.bound_edge hb
    have hsrc : b.1 ∈ g.outEdges.keys := hg.src_mem he
    exact Or.inl (Or.inr hsrc)
  | out j idx =>
    cases hb
    have hjk := hr.dst k opx hk j idx (List.mem_of_getElem? hi)
    have hklt := (List.getElem?_eq_some_iff.mp hk).1
    exact Or.inr ⟨j, by omega, rfl⟩

end Rewriting

/-- The target operators that were created, with their bodies and constraints. -/
theorem targets_of_createTargets {x : Rule} {s : Matching} {dstMap₀ dstMap : Nat → Op}
    {m m' : Model} (hm : m.Sound)
    (h : createTargets s x.dstOps.zipIdx dstMap₀ m = .ok (true, dstMap, m')) :
    x.Targets dstMap m.global_unique_id ∧
      m'.global_unique_id = m.global_unique_id + x.dstOps.length ∧
      ∀ (k : Nat) opx, x.dstOps[k]? = some opx → opx.Makes (dstMap k) := by
  obtain ⟨-, -, hall⟩ := createTargets_ok hm h
  obtain ⟨hnext, -, hbodies⟩ := hall rfl
  have htargets : x.Targets dstMap m.global_unique_id := by
    intro k opx hk
    obtain ⟨p, hp, heq⟩ := hbodies k opx hk
    exact ⟨p, hp, by rw [← heq, Nat.zero_add]⟩
  refine ⟨htargets, hnext, fun k opx hk => ?_⟩
  obtain ⟨p, hp, heq⟩ := htargets k opx hk
  have htn := (createTargets_tn h).2 k opx hk
  rw [Nat.zero_add] at htn
  exact ⟨⟨p, by rw [heq], hp⟩, htn⟩

theorem createNewGraph_succeeds {r : Rule} (hfile : FromFile r) {g : Graph} (hg : g.WellFormed)
    {first : Nat} (hissued : ∀ op, g.Mentions op → op.guid < first) {s : Matching}
    (hs : MatchOf r.srcOps g s) {dstMap : Nat → Op} (htargets : r.Targets dstMap first)
    (houtputs : outputsMapped r s g = .ok true) : ∃ g', createNewGraph r s dstMap g = .ok g' := by
  obtain ⟨kept, hkept⟩ := mapM_succeeds fun e he =>
    rewireEdge_of_outputsMapped dstMap hg houtputs he
  have hinput : ∀ input ∈ (r.dstOps.zipIdx.flatMap fun entry =>
      entry.1.inputs.zipIdx.map fun input => (entry.2, input)),
      ∃ opx, r.dstOps[input.1]? = some opx ∧ opx.inputs[input.2.2]? = some input.2.1 := by
    intro input hmem
    obtain ⟨entry, hentry, hmem⟩ := List.mem_flatMap.mp hmem
    obtain ⟨slot, hslot, rfl⟩ := List.mem_map.mp hmem
    exact ⟨entry.1, List.mem_zipIdx_iff_getElem?.mp hentry, List.mem_zipIdx_iff_getElem?.mp hslot⟩
  have htarget : ∀ input ∈ (r.dstOps.zipIdx.flatMap fun entry =>
      entry.1.inputs.zipIdx.map fun input => (entry.2, input)),
      ∃ f, targetEdge s dstMap input.1 input.2 = .ok f := by
    intro input hmem
    obtain ⟨opx, hk, hi⟩ := hinput input hmem
    exact targetEdge_of_bound fun idx hidx =>
      hfile.bound hs (List.mem_of_getElem? hk) (hidx ▸ List.mem_of_getElem? hi)
  obtain ⟨added, hadded⟩ := mapM_succeeds htarget
  -- all ends have their own guids
  have hends : ∀ f ∈ kept ++ added,
      (g.Mentions f.srcOp ∨ ∃ k < r.dstOps.length, f.srcOp = dstMap k) ∧
        (g.Mentions f.dstOp ∨ ∃ k < r.dstOps.length, f.dstOp = dstMap k) := by
    intro f hf
    rcases List.mem_append.mp hf with hf | hf
    · obtain ⟨e, he, hrewire⟩ := ((mapM_ok hkept).1 f).mp hf
      exact (rewireEdge_ends hfile.wellFormed hg he hrewire).imp_right Or.inl
    · obtain ⟨input, hmem, htarget⟩ := ((mapM_ok hadded).1 f).mp hf
      obtain ⟨opx, hk, hi⟩ := hinput input hmem
      obtain ⟨hsrc, hdst⟩ := targetEdge_ends hfile.wellFormed hg hs hk hi htarget
      exact ⟨hsrc, Or.inr ⟨input.1, (List.getElem?_eq_some_iff.mp hk).1, hdst⟩⟩
  obtain ⟨g', hg'⟩ := Graph.addEdges_ok (htargets.unique hg.unique hissued) Graph.consistent_new
    (fun op hop => hop.elim (fun h => (by cases h)) fun h => (by cases h)) hends
  exact ⟨g', bind_ok_iff.mpr ⟨kept, hkept, bind_ok_iff.mpr ⟨added, hadded, hg'⟩⟩⟩

/-- **The assertions of `create_new_graph` hold**: at a consistent match of a rule of the file whose
target operators exist and whose outputs passed the test, the new graph is built, it is well formed,
and `has_loop` answers. -/
theorem createNewGraph_of_loaded (pb : PbRule) (x : Loaded) (r : Rule) (h : loadRule pb = .ok x)
    (hr : x.rule = some r) (g : Graph) (hg : g.WellFormed) (m m' : Model) (hm : m.Sound)
    (hissued : ∀ op, g.Mentions op → op.guid < m.global_unique_id) (s : Matching)
    (hs : MatchOf r.srcOps g s) (dstMap₀ dstMap : Nat → Op)
    (hcreate : createTargets s r.dstOps.zipIdx dstMap₀ m = .ok (true, dstMap, m'))
    (houtputs : outputsMapped r s g = .ok true) :
    ∃ g', createNewGraph r s dstMap g = .ok g' ∧ g'.WellFormed ∧
      ∃ loop g'', g'.hasLoop = .ok (loop, g'') := by
  have hfile := fromFile_of_loadRule h hr
  obtain ⟨htargets, -, -⟩ := targets_of_createTargets hm hcreate
  obtain ⟨g', hnew⟩ := createNewGraph_succeeds hfile hg hissued hs htargets houtputs
  obtain ⟨hg', -⟩ :=
    createNewGraph_wellFormed hg htargets hissued hfile.wellFormed hs hm.numbered hnew
  obtain ⟨order, g1, hschedule, hreads, -⟩ := Graph.schedule_ok hg'.toConsistent hg'.unique
    Graph.beyondPreserved
  exact ⟨g', hnew, hg', _, g1, Graph.hasLoop_eq hschedule hreads⟩

/-- In the graph of `(x + y) + x` the rule of the file replaces the inner sum. -/
theorem createNewGraph_commAdd : ∃ (x : Loaded) (g g' : Graph) (s : Matching) (dstMap : Nat → Op),
    loadRule commAdd = .ok x ∧ x.rule = some swapAdd ∧ g.WellFormed ∧
      MatchOf swapAdd.srcOps g s ∧ createNewGraph swapAdd s dstMap g = .ok g' ∧ g'.WellFormed := by
  have hrun : (do
      let s ← (sumCalls.map Step.build).foldlM Session.step Session.start
      let m ← s.model s.current
      pyAssert (∀ op ∈ s.graph.inEdges.keys ++ s.graph.outEdges.keys, op.guid < m.global_unique_id)
      let op ← pyUnwrap s.graph.inEdges.keys[2]?
      pyAssert (op ∈ s.graph.inEdges.keys)
      let fits ← canMatch Matching.start s.graph ⟨.OP_EW_ADD, [.ext 10, .ext 11], [], []⟩ op
      pyAssert (fits = true)
      let targets ← createTargets (stateOf s.graph swapAdd.srcOps [op]) swapAdd.dstOps.zipIdx
        (fun _ => Op.invalid) m
      pyAssert (targets.1 = true)
      let mapped ← outputsMapped swapAdd (stateOf s.graph swapAdd.srcOps [op]) s.graph
      pyAssert (mapped = true)).toOption = some () := by
    decide +kernel
  simp only [toOption_eq_some, bind_ok_iff, pyAssert_eq_ok] at hrun
  obtain ⟨s, hs, m, hm, -, hissued, op, -, -, hkey, fits, hfits, -, rfl,
    ⟨created, dstMap, m'⟩, hcreate, -, rfl, mapped, houtputs, rfl⟩ := hrun
  have hsound := Session.sound_of_reachable (Session.reachable_of_builds _ hs)
  have hg := hsound.inv.graph
  have hmatch : PartialMatch s.graph swapAdd.srcOps [op] :=
    ((clean_start _ _).extends_iff hg swapAdd_wellFormed.src
      (represents_stateOf hg swapAdd_wellFormed).root rfl hkey).mp ⟨hfits, List.not_mem_nil⟩
  have hstate := matchOf_stateOf hg swapAdd_wellFormed.src hmatch rfl
  obtain ⟨g', hnew, hg', -⟩ := createNewGraph_of_loaded commAdd _ swapAdd rfl rfl s.graph hg m m'
    (hsound.models m (List.mem_of_getElem? (Session.model_eq_ok.mp hm)))
    (fun op hop => hissued op (List.mem_append.mpr hop)) _ hstate _ dstMap hcreate houtputs
  exact ⟨_, s.graph, g', _, dstMap, rfl, rfl, hg, hstate, hnew, hg'⟩

/-! ## Rules that never apply -/

/-- Only three types of target operators are ever created. -/
theorem newOperator_type {s : Matching} {dstMap : Nat → Op} {m m' : Model} {opx : OpX} {op : Op}
    (h : newOperator s dstMap m opx = .ok (op, m')) (hop : op ≠ Op.invalid) :
    opx.type ∈ [.OP_CONV2D, .OP_EW_ADD, .OP_EW_MUL] := by
  unfold newOperator at h
  split at h
  · next htype => simp [htype]
  · next htype => simp [htype]
  · next htype => simp [htype]
  · -- nothing is created for a concatenation
    obtain ⟨_, -, h⟩ := bind_ok_iff.mp h
    obtain ⟨_, -, h⟩ := bind_ok_iff.mp h
    cases h
    exact absurd rfl hop
  · cases h

theorem createTargets_types {s : Matching} {opxs : List OpX} {n : Nat} {dstMap dstMap' : Nat → Op}
    {m m' : Model} (h : createTargets s (opxs.zipIdx n) dstMap m = .ok (true, dstMap', m')) :
    ∀ opx ∈ opxs, opx.type ∈ [.OP_CONV2D, .OP_EW_ADD, .OP_EW_MUL] := by
  induction opxs generalizing n dstMap m with
  | nil => exact fun opx hopx => absurd hopx List.not_mem_nil
  | cons opx opxs ih =>
    rw [List.zipIdx_cons, createTargets] at h
    obtain ⟨⟨ok, map1, m1⟩, hone, h⟩ := bind_ok_iff.mp h
    cases ok with
    | false => cases h
    | true =>
      obtain ⟨⟨op, m2⟩, hnew, hone⟩ := bind_ok_iff.mp hone
      refine List.forall_mem_cons.mpr ⟨newOperator_type hnew fun hinvalid => ?_, ih h⟩
      dsimp only at hone
      rw [if_pos hinvalid] at hone
      cases hone

/-- A constraint without a second tensor is not met: the check raises. -/
theorem canMatch_para2 {s : Matching} {g : Graph} {opx : OpX} {op : Op}
    (h : canMatch s g opx op = .ok true) : ∀ tnc ∈ opx.tnConstraints, tnc.para2 ≠ none := by
  obtain ⟨p, hp, h⟩ := bind_ok_iff.mp h
  split at h
  · cases h
  split at h
  · cases h
  obtain ⟨_, -, h⟩ := bind_ok_iff.mp h
  split at h
  · cases h
  obtain ⟨_, -, h⟩ := bind_ok_iff.mp h
  split at h
  · cases h
  have hbody : op.ptr = some p := by
    unfold Op.body at hp
    split at hp
    · cases hp
    · next hptr =>
      cases hp
      exact hptr
  intro tnc htnc hnone
  have hcheck := allM_eq_true.mp h tnc htnc
  obtain ⟨comp, para1, dim1, para2, dim2⟩ := tnc
  obtain rfl : para2 = none := hnone
  rw [check_number hbody] at hcheck
  cases hcheck

/-- **Which rules of the file rewrite anything**: if a rule of the file makes one graph of another,
its target operators are convolutions, sums and products, and no source operator is a
concatenation. -/
theorem rewrites_of_loaded (pb : PbRule) (x : Loaded) (r : Rule) (h : loadRule pb = .ok x)
    (hr : x.rule = some r) (g g' : Graph) (hrewrites : Rewrites r g g') :
    (∀ opx ∈ r.dstOps, opx.type ∈ [.OP_CONV2D, .OP_EW_ADD, .OP_EW_MUL]) ∧
      ∀ opx ∈ r.srcOps, opx.type ∈ [.OP_CONV2D, .OP_EW_ADD, .OP_EW_MUL, .OP_SPLIT, .OP_RELU,
        .OP_SIGMOID, .OP_TANH, .OP_MATMUL] := by
  have hfile := fromFile_of_loadRule h hr
  obtain ⟨s, dstMap, dstMap', m, m', rebuilt, hmapped, htargets, -⟩ := hrewrites
  refine ⟨createTargets_types htargets, fun opx hopx => ?_⟩
  obtain ⟨k, hk⟩ := List.getElem?_of_mem hopx
  obtain ⟨-, s₀, hcan⟩ := hmapped k (List.getElem?_eq_some_iff.mp hk).1 opx hk
  have hbuilt := hfile.srcBuilt opx hopx
  have hne : opx.type ≠ .OP_CONCAT := fun hconcat => by
    obtain ⟨tnc, htnc, hnone⟩ := hbuilt.concat hconcat
    exact canMatch_para2 hcan tnc htnc hnone
  have htype := hbuilt.type
  simp only [builtTypes, List.mem_cons, List.not_mem_nil, or_false] at htype ⊢
  tauto

/-- The rule of the file makes another graph of that of `(x + y) + x`. -/
theorem rewrites_commAdd : ∃ g g', Rewrites swapAdd g g' ∧
    ∀ opx ∈ swapAdd.dstOps, opx.type ∈ [.OP_CONV2D, .OP_EW_ADD, .OP_EW_MUL] := by
  have hrun : ((sumCalls.map Step.build).foldlM Session.step Session.start >>= fun s =>
      s.model s.current >>= fun m => s.runRule m swapAdd >>= fun st =>
        pyUnwrap st.leaf.candidates.head? >>= fun _ => .ok ()).toOption = some () := by
    decide +kernel
  simp only [toOption_eq_some, bind_ok_iff] at hrun
  obtain ⟨s, -, m, -, st, hst, c, hc, -⟩ := hrun
  have hmem : c ∈ st.leaf.candidates := by
    unfold pyUnwrap at hc
    split at hc
    · cases hc
    · next hhead =>
      cases hc
      exact List.mem_of_head? hhead
  obtain ⟨-, hcands⟩ := run_candidates swapAdd.srcOps 0 rfl
    (fun k hk => absurd hk (Nat.not_lt_zero k)) hst
  obtain ⟨-, hrewrites⟩ := (hcands c hmem).resolve_left List.not_mem_nil
  exact ⟨s.graph, c, hrewrites,
    (rewrites_of_loaded commAdd _ swapAdd rfl rfl s.graph c hrewrites).1⟩

end RuleLoader

end Peps
