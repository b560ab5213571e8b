import Peps.Dbocg.PreprocessWeights
import Peps.Dbocg.RuleRewrites

/-!
# `optimize` keeps what a network computes

A graph computes the outputs of its ends, the operators that nothing reads. One application of a
sound rule keeps them (`rewrite_keeps`), if the rule replaces the ends of its source pattern by ends
of its target pattern: the test before `create_new_graph` only asks for outputs that other operators
read. A run of the search goes from graph to graph by such applications, with one `Model` that
numbers all new operators, so an operator that two of the graphs share never was another one in
between (`Keeps.trans`). `preprocess_weights` at the end takes out operators that only read weights.

`optimize_keeps` puts the parts together, for every graph the search has reached and for the one that
is returned.
-/

namespace Peps

open Lib

variable {V : Type} [Inhabited V]

/-! ## Ends -/

/-- An operator that nothing reads. -/
structure Graph.IsEnd (g : Graph) (op : Op) : Prop where
  key : op ∈ g.inEdges.keys
  unread : ∀ v, ¬ g.Feeds op v

/-- Nothing is read off an end. -/
theorem Graph.isEnd_iff {g : Graph} (hg : g.Consistent) {op : Op} (hkey : op ∈ g.inEdges.keys) :
    g.IsEnd op ↔ g.outs op = [] := by
  constructor
  · intro hend
    refine List.eq_nil_iff_forall_not_mem.mpr fun e he => ?_
    have hown := hg.outOwn op e he
    subst hown
    exact hend.unread e.dstOp ⟨e, (hg.dual e).mpr he, rfl⟩
  · rintro hnone
    refine ⟨hkey, ?_⟩
    rintro v ⟨e, he, rfl⟩
    have hown := hg.inOwn v e he
    subst hown
    exact absurd ((hg.dual e).mp he) (by rw [hnone]; exact List.not_mem_nil)

/-- An operator of both graphs has one value, and every end has an end with its value. -/
structure Meaning.Keeps (M : Meaning V) (g g' : Graph) : Prop where
  same : ∀ val val', M.Values g val → M.Values g' val' →
    ∀ op, g.Mentions op → g'.Mentions op → val' op = val op
  ends : ∀ op, g.IsEnd op → ∃ op', g'.IsEnd op' ∧
    ∀ val val', M.Values g val → M.Values g' val' → val' op' 0 = val op 0

/-- A source operator that its own pattern does not read is replaced by a target operator that the
other pattern does not read, and that replaces nothing else. -/
def Rule.KeepsEnds (x : Rule) : Prop :=
  ∀ k < x.srcOps.length, (∀ opx ∈ x.srcOps, ∀ idx, .out k idx ∉ opx.inputs) →
    ∃ j, x.mappedOutput k 0 = some (j, 0) ∧ (∀ opx ∈ x.dstOps, ∀ idx, .out j idx ∉ opx.inputs) ∧
      ∀ k' idx d, x.mappedOutput k' idx = some d → d.1 = j → k' = k

/-- A given rule is checked entry by entry. -/
theorem Rule.keepsEnds_of_entries {x : Rule}
    (h : ∀ k < x.srcOps.length, (∃ opx ∈ x.srcOps, ∃ tx ∈ opx.inputs, ∃ idx, tx = .out k idx) ∨
      ∃ j, x.mappedOutput k 0 = some (j, 0) ∧
        (∀ opx ∈ x.dstOps, ∀ tx ∈ opx.inputs, ∀ idx, tx ≠ .out j idx) ∧
        ∀ entry ∈ x.mappedOutputs, entry.2.1 = j → entry.1.1 = k) : x.KeepsEnds := by
  intro k hk hunread
  rcases h k hk with ⟨opx, hopx, tx, htx, idx, rfl⟩ | ⟨j, hmapped, hend, hown⟩
  · exact absurd htx (hunread opx hopx idx)
  · refine ⟨j, hmapped, fun opx hopx idx hmem => hend opx hopx _ hmem idx rfl, ?_⟩
    intro k' idx d hd heq
    obtain ⟨entry, hentry, rfl⟩ := Option.map_eq_some_iff.mp hd
    have hkey : entry.1 = (k', idx) := by simpa using List.find?_some hentry
    have howner := hown entry (List.mem_of_find?_eq_some hentry) heq
    rwa [hkey] at howner

namespace Meaning

variable {M : Meaning V} {g g1 g' : Graph}

theorem Keeps.refl (M : Meaning V) (hacyclic : g.Acyclic) : M.Keeps g g := by
  have honly : ∀ val val', M.Values g val → M.Values g val' → val' = val :=
    fun val val' h h' => (existsUnique_values M hacyclic).unique h' h
  refine ⟨fun val val' h h' op _ _ => by rw [honly val val' h h'], fun op hop => ⟨op, hop, ?_⟩⟩
  intro val val' h h'
  rw [honly val val' h h']

/-- What the graph in between has forgotten does not come back. -/
theorem Keeps.trans (h : M.Keeps g g1) (h' : M.Keeps g1 g') (hacyclic : g1.Acyclic)
    (hmid : ∀ op, g.Mentions op → g'.Mentions op → g1.Mentions op) : M.Keeps g g' := by
  obtain ⟨val1, hval1, -⟩ := existsUnique_values M hacyclic
  refine ⟨fun val val' hval hval' op hop hop' => ?_, fun op hop => ?_⟩
  · have hop1 := hmid op hop hop'
    rw [h'.same val1 val' hval1 hval' op hop1 hop', h.same val val1 hval hval1 op hop hop1]
  · obtain ⟨op1, hop1, heq⟩ := h.ends op hop
    obtain ⟨op', hop', heq'⟩ := h'.ends op1 hop1
    refine ⟨op', hop', fun val val' hval hval' => ?_⟩
    rw [heq' val1 val' hval1 hval', heq val val1 hval hval1]

end Meaning

/-! ## Reads -/

namespace Graph.Reads

variable {g g' : Graph}

theorem feeds (h : Reads g g') (u v : Op) : g'.Feeds u v ↔ g.Feeds u v := by
  unfold Graph.Feeds
  rw [h.ins]

theorem acyclic (h : Reads g g') (hacyclic : g.Acyclic) : g'.Acyclic :=
  Subrelation.wf (fun {u v} hfeeds => (h.feeds u v).mp hfeeds) hacyclic

theorem values (h : Reads g g') (M : Meaning V) (val : Op → Nat → V) :
    M.Values g' val ↔ M.Values g val := by
  have hequation : M.equation g' = M.equation g := by
    funext val op
    unfold Meaning.equation inputValue
    rw [h.ins]
  unfold Meaning.Values
  rw [hequation]

theorem isEnd (h : Reads g g') {op : Op} (hop : g.IsEnd op) : g'.IsEnd op where
  key := by
    rw [h.inEdges]
    exact hop.key
  unread := fun v hfeeds => hop.unread v ((h.feeds op v).mp hfeeds)

theorem keeps (h : Reads g g') {g₀ : Graph} {M : Meaning V} (hkeeps : M.Keeps g₀ g) :
    M.Keeps g₀ g' where
  same := fun val val' hval hval' op hop hop' =>
    hkeeps.same val val' hval ((h.values M val').mp hval') op hop (h.mentions hop')
  ends := fun op hop => by
    obtain ⟨op', hop', heq⟩ := hkeeps.ends op hop
    exact ⟨op', h.isEnd hop', fun val val' hval hval' =>
      heq val val' hval ((h.values M val').mp hval')⟩

end Graph.Reads

theorem Graph.hasLoop_reads {g g' : Graph} {loop : Bool} (hg : g.WellFormed)
    (h : g.hasLoop = .ok (loop, g')) : g.Reads g' := by
  obtain ⟨order, g1, hschedule, hreads, -⟩ := Graph.schedule_ok hg.toConsistent hg.unique
    Graph.beyondPreserved
  rw [Graph.hasLoop_eq hschedule hreads] at h
  cases h
  exact hreads

/-! ## One application of a rule -/

section Rewrite

variable {x : Rule} {s : Matching} {dstMap : Nat → Op} {first : Nat} {g g' : Graph}
  {es : List Edge}

/-- What the source of an edge of the new graph is: read in the old one, the replacement of a
matched operator that is read in the old one, or read inside the target pattern. -/
theorem NewEdges.read_cases (hes : NewEdges x s dstMap g es) (hg : g.Consistent)
    (hs : MatchOf x.srcOps g s) {f : Edge} (hf : f ∈ es) :
    (∃ v, g.Feeds f.srcOp v) ∨
      (∃ k idx d v, x.mappedOutput k idx = some d ∧ g.Feeds (s.mapOp k) v ∧
        f.srcOp = dstMap d.1 ∧ k < x.srcOps.length) ∨
      ∃ (k : Nat) (opx : OpX) (j idx : Nat), x.dstOps[k]? = some opx ∧ .out j idx ∈ opx.inputs ∧
        f.srcOp = dstMap j := by
  rcases hes.cases hg hf with ⟨e, -, he, hrewire, -, -⟩ | ⟨k, opx, i, tx, b, hk, hi, hb, rfl⟩
  · rcases rewireEdge_ok hrewire with ⟨-, rfl⟩ | ⟨k, d, hk, hd, rfl⟩
    · exact Or.inl ⟨f.dstOp, f, he, rfl⟩
    · obtain ⟨hlt, hop⟩ := (hs.mapped e.srcOp k).mp hk
      exact Or.inr (Or.inl ⟨k, e.srcIdx, d, e.dstOp, hd, ⟨e, he, hop.symm⟩, rfl, hlt⟩)
  · cases tx with
    | ext idx =>
      obtain ⟨k', _, _, -, he⟩ := hs.bound_edge hb
      exact Or.inl ⟨s.mapOp k', _, he, rfl⟩
    | out j idx =>
      cases hb
      exact Or.inr (Or.inr ⟨k, opx, j, idx, hk, List.mem_of_getElem? hi, rfl⟩)

theorem Graph.Feeds.mentions {u v : Op} (h : g.Feeds u v) (hg : g.Consistent) : g.Mentions u := by
  obtain ⟨e, he, rfl⟩ := h
  exact Or.inr (hg.src_mem he)

/-- A new operator is none of the old ones. -/
theorem Rule.Targets.ne_old (htargets : x.Targets dstMap first)
    (hfresh : ∀ op, g.Mentions op → op.guid < first) {op : Op} (hop : g.Mentions op) {j : Nat}
    (hj : j < x.dstOps.length) : op ≠ dstMap j := by
  rintro rfl
  have hlt := hfresh _ hop
  rw [(htargets.guid hj).1] at hlt
  omega

theorem Rule.Targets.inj (htargets : x.Targets dstMap first) {i j : Nat} (hi : i < x.dstOps.length)
    (hj : j < x.dstOps.length) (heq : dstMap i = dstMap j) : i = j := by
  have hguid := (htargets.guid hi).1
  rw [heq, (htargets.guid hj).1] at hguid
  omega

variable (hg : g.WellFormed) (hx : x.WellFormed) (hs : MatchOf x.srcOps g s)
  (hes : NewEdges x s dstMap g es) (hadd : Graph.EdgesAdded Graph.new es g')
  (htargets : x.Targets dstMap first) (hfresh : ∀ op, g.Mentions op → op.guid < first)

include hadd in
theorem feeds_new {u v : Op} : g'.Feeds u v ↔ ∃ f ∈ es, f.srcOp = u ∧ f.dstOp = v := by
  constructor
  · rintro ⟨f, hf, rfl⟩
    obtain ⟨hmem, hdst⟩ := (mem_ins_new hadd).mp hf
    exact ⟨f, hmem, rfl, hdst⟩
  · rintro ⟨f, hf, rfl, rfl⟩
    exact ⟨f, (mem_ins_new hadd).mpr ⟨hf, rfl⟩, rfl⟩

include hg hx hs hes hadd htargets hfresh in
/-- An end outside the match stays an end. -/
theorem Graph.IsEnd.outside {op : Op} (hop : g.IsEnd op) (hout : op ∉ s.mappedOps.keys) :
    g'.IsEnd op := by
  have hmention : g.Mentions op := Or.inl hop.key
  refine ⟨?_, fun v hfeeds => ?_⟩
  · -- it has a slot, and the edge of that slot is kept
    have harity := hg.arity op hop.key
    obtain ⟨e, he, -⟩ := (hg.slots op hop.key).one 0 (by omega)
    have hmem : e ∈ outsideEdges s g := mem_outsideEdges.mpr ⟨op, hout, he⟩
    obtain ⟨f, hf⟩ := hes.outside e hmem
    have hdst : f.dstOp = e.dstOp := by
      rcases rewireEdge_ok hf with ⟨-, rfl⟩ | ⟨j, d, -, -, rfl⟩
      · rfl
      · rfl
    refine (hadd.inKeys op).mpr (Or.inr ⟨f, (hes.mem f).mpr (Or.inl ⟨e, hmem, hf⟩), ?_⟩)
    rw [hdst]
    exact hg.inOwn op e he
  · obtain ⟨f, hf, rfl, -⟩ := (feeds_new hadd).mp hfeeds
    rcases hes.read_cases hg.toConsistent hs hf with
      ⟨w, hread⟩ | ⟨k, idx, d, -, hd, -, heq, -⟩ | ⟨k, opx, j, idx, hk, hj, heq⟩
    · exact hop.unread w hread
    · exact htargets.ne_old hfresh hmention (hx.outputs k idx d hd) heq
    · have hlt := hx.dst k opx hk j idx hj
      have hklt := (List.getElem?_eq_some_iff.mp hk).1
      exact htargets.ne_old hfresh hmention (by omega) heq

include hg hx hs hes hadd htargets hfresh in
/-- The replacement of an end is an end. -/
theorem Graph.IsEnd.replaced {k j : Nat} (hop : g.IsEnd (s.mapOp k))
    (hmapped : x.mappedOutput k 0 = some (j, 0))
    (hend : ∀ opx ∈ x.dstOps, ∀ idx, .out j idx ∉ opx.inputs)
    (hown : ∀ k' idx d, x.mappedOutput k' idx = some d → d.1 = j → k' = k) :
    g'.IsEnd (dstMap j) := by
  have hj : j < x.dstOps.length := hx.outputs k 0 (j, 0) hmapped
  refine ⟨?_, fun v hfeeds => ?_⟩
  · have hopx := List.getElem?_eq_getElem hj
    obtain ⟨p, hp, -⟩ := htargets j _ hopx
    have hinput : 0 < x.dstOps[j].inputs.length := by
      rw [hp.inputs]
      decide
    have hslot := List.getElem?_eq_getElem hinput
    obtain ⟨f, hf⟩ := hes.target j _ 0 _ hopx hslot
    refine (hadd.inKeys _).mpr (Or.inr ⟨f, (hes.mem f).mpr (Or.inr ⟨j, _, 0, _, hopx, hslot, hf⟩),
      ?_⟩)
    obtain ⟨b, -, rfl⟩ := targetEdge_ok hf
    rfl
  · obtain ⟨f, hf, hsrc, -⟩ := (feeds_new hadd).mp hfeeds
    rcases hes.read_cases hg.toConsistent hs hf with
      ⟨w, hread⟩ | ⟨k', idx, d, w, hd, hread, heq, -⟩ | ⟨k', opx, j', idx, hk', hj', heq⟩
    · exact htargets.ne_old hfresh (hread.mentions hg.toConsistent) hj hsrc
    · have hdj := htargets.inj (hx.outputs k' idx d hd) hj (heq.symm.trans hsrc)
      obtain rfl := hown k' idx d hd hdj
      exact hop.unread w hread
    · have hlt := hx.dst k' opx hk' j' idx hj'
      have hklt := (List.getElem?_eq_some_iff.mp hk').1
      obtain rfl := htargets.inj (by omega) hj (heq.symm.trans hsrc)
      exact hend opx (List.mem_of_getElem? hk') idx hj'

include hg hs hes hadd htargets hfresh in
/-- A matched operator is gone: no operator reads it, or `has_loop` would have waited for it. -/
theorem not_mapped_of_mentions
    (hclosed : ∀ v, ∀ e ∈ g'.ins v, GUID_PRESERVED < e.srcOp.guid → e.srcOp ∈ g'.inEdges.keys)
    {op : Op} (hop : g.Mentions op) (hop' : g'.Mentions op) : op ∉ s.mappedOps.keys := by
  have hkey : op ∈ g'.inEdges.keys → op ∉ s.mappedOps.keys := by
    intro hmem
    rcases (hadd.inKeys op).mp hmem with hnew | ⟨f, hf, hdst⟩
    · cases hnew
    · exact (hes.outside_edge hg.toConsistent htargets hfresh hop hf hdst).1
  rcases hop' with hop' | hop'
  · exact hkey hop'
  · intro hmapped
    obtain ⟨k, hk, heq⟩ := (hs.mem_mappedOps op).mp hmapped
    have hguid : GUID_PRESERVED < op.guid := hg.numbered _ (heq ▸ hs.inGraph k hk)
    rcases (hadd.outKeys op).mp hop' with hnew | ⟨f, hf, rfl⟩
    · cases hnew
    · exact hkey (hclosed f.dstOp f ((mem_ins_new hadd).mpr ⟨hf, rfl⟩) hguid) hmapped

include hs in
/-- An operator of the match that nothing reads is not read in the pattern. -/
theorem Graph.IsEnd.unread_pattern {k : Nat} (hop : g.IsEnd (s.mapOp k)) :
    ∀ opx ∈ x.srcOps, ∀ idx, .out k idx ∉ opx.inputs := by
  intro opx hopx idx hmem
  obtain ⟨k', hk'⟩ := List.getElem?_of_mem hopx
  obtain ⟨i, hi⟩ := List.getElem?_of_mem hmem
  obtain ⟨b, hb, he⟩ := hs.fed k' opx hk' i _ hi
  cases hb
  exact hop.unread (s.mapOp k') ⟨_, he, rfl⟩

end Rewrite

/-- What the search asks of a rule. -/
structure Rule.Safe (x : Rule) (M : Meaning V) : Prop where
  wellFormed : x.WellFormed
  sound : x.Sound M
  keepsEnds : x.KeepsEnds

/-- **One application of a rule** gives a well-formed acyclic graph of old and new operators that
keeps what the old one computes. -/
theorem rewrite_keeps {M : Meaning V} {x : Rule} (hx : x.Safe M) {g g' g'' : Graph}
    (hg : g.WellFormed) {m m' : Model} (hm : m.Sound)
    (hissued : ∀ op, g.Mentions op → op.guid < m.global_unique_id) {s : Matching}
    (hs : MatchOf x.srcOps g s)
    (hfits : ∀ (k : Nat) opx, x.srcOps[k]? = some opx → opx.Fits (s.mapOp k))
    {dstMap₀ dstMap : Nat → Op}
    (hcreate : createTargets s x.dstOps.zipIdx dstMap₀ m = .ok (true, dstMap, m'))
    (hnew : createNewGraph x s dstMap g = .ok g') (hloop : g'.hasLoop = .ok (false, g'')) :
    g''.WellFormed ∧ g''.Acyclic ∧ M.Keeps g g'' ∧ ∀ op, g''.Mentions op → g.Mentions op ∨
      m.global_unique_id ≤ op.guid ∧ op.guid < m'.global_unique_id := by
  obtain ⟨htargets, hnext, hmakes⟩ := RuleLoader.targets_of_createTargets hm hcreate
  obtain ⟨hg', hmention⟩ :=
    createNewGraph_wellFormed hg htargets hissued hx.wellFormed hs hm.numbered hnew
  obtain ⟨hacyclic', hclosed⟩ :=
    Graph.of_hasLoop_false hg'.toConsistent hg'.unique hg'.numbered hloop
  have hreads := Graph.hasLoop_reads hg' hloop
  obtain ⟨es, hes, hadd⟩ := createNewGraph_edges hnew
  -- the values of the two graphs, with the target pattern in between
  have hvalues : ∀ val val', M.Values g val → M.Values g' val' →
      (∀ op, g.Mentions op → op ∉ s.mappedOps.keys → val' op = val op) ∧
      ∀ k idx d, k < x.srcOps.length → x.mappedOutput k idx = some d →
        val' (dstMap d.1) d.2 = val (s.mapOp k) idx := by
    intro val val' hval hval'
    obtain ⟨dv, hdv⟩ := exists_patternValues M dstMap (s.external val) hx.wellFormed.dst
    have hagree := hx.sound s.mapOp dstMap hfits hmakes (s.external val) _ dv
      (matched_values hg.slotted hval hs) hdv
    have hall := values_agree hg.slotted hes hadd htargets hissued hx.wellFormed.closed hs hval
      hval' hg'.slotted hacyclic' hclosed hdv hagree
    refine ⟨fun op => (hall op).1, fun k idx d hk hd => ?_⟩
    rw [(hall (dstMap d.1)).2 d.1 (hx.wellFormed.outputs k idx d hd) rfl]
    exact hagree k idx d hk hd
  have hkeeps : M.Keeps g g' := by
    refine ⟨fun val val' hval hval' op hop hop' => ?_, fun op hop => ?_⟩
    · exact (hvalues val val' hval hval').1 op hop
        (not_mapped_of_mentions hg hs hes hadd htargets hissued hclosed hop hop')
    · by_cases hmapped : op ∈ s.mappedOps.keys
      · obtain ⟨k, hk, rfl⟩ := (hs.mem_mappedOps op).mp hmapped
        obtain ⟨j, hj, hend, hown⟩ := hx.keepsEnds k hk (hop.unread_pattern hs)
        exact ⟨dstMap j,
          hop.replaced hg hx.wellFormed hs hes hadd htargets hissued hj hend hown,
          fun val val' hval hval' => (hvalues val val' hval hval').2 k 0 (j, 0) hk hj⟩
      · refine ⟨op, hop.outside hg hx.wellFormed hs hes hadd htargets hissued hmapped, ?_⟩
        intro val val' hval hval'
        rw [(hvalues val val' hval hval').1 op (Or.inl hop.key) hmapped]
  refine ⟨hg'.reads hreads, hreads.acyclic hacyclic', hreads.keeps hkeeps, fun op hop => ?_⟩
  refine (hmention op (hreads.mentions hop)).imp_right ?_
  rintro ⟨k, hk, rfl⟩
  rw [(htargets.guid hk).1, hnext]
  omega

/-! ## A convolution and its activation -/

/-- What a pattern for a convolution says about a body. -/
structure OpBase.IsConv (p : OpBase) (strideH strideW : Int) (padding : PaddingMode)
    (activation : ActiMode) : Prop where
  type : p.type = .OP_CONV2D
  strideH : p.getIntParameter .PM_STRIDE_H = .ok (some (.int strideH))
  strideW : p.getIntParameter .PM_STRIDE_W = .ok (some (.int strideW))
  padding : p.getIntParameter .PM_PAD = .ok (some (.padding padding))
  activation : p.getIntParameter .PM_ACTI = .ok (some (.acti activation))

/-- A convolution with an activation is the activation of the convolution. -/
def Meaning.FusesRelu (M : Meaning V) : Prop :=
  ∀ (conv relu fused : OpBase) strideH strideW padding inputs,
    conv.IsConv strideH strideW padding .AC_MODE_NONE → relu.type = .OP_RELU →
    fused.IsConv strideH strideW padding .AC_MODE_RELU →
    M.apply fused inputs 0 = M.apply relu [M.apply conv inputs 0] 0

/-- `create_conv_relu`. -/
def createConvRelu (strideH strideW : Int) (mode : PaddingMode) : Rule where
  srcOps := [RuleLoader.createConv2d (.ext 10) (.ext 11) strideH strideW mode .AC_MODE_NONE,
    RuleLoader.createActivation (.out 0 0) .OP_RELU]
  dstOps := [RuleLoader.createConv2d (.ext 10) (.ext 11) strideH strideW mode .AC_MODE_RELU]
  mappedOutputs := RuleLoader.mapOutput [] (1, 0) (0, 0)

theorem parameter_of_check {op : Op} {p : OpBase} {para : PMParameter} {value : KeyCell}
    (hp : op.ptr = some p) (h : checkPmConstraint op ⟨.COMPARE_EQ, para, value⟩ = .ok true) :
    p.getIntParameter para = .ok (some value) := by
  obtain ⟨q, hq, h⟩ := bind_ok_iff.mp h
  rw [Op.body, hp] at hq
  cases hq
  obtain ⟨found, hfound, h⟩ := bind_ok_iff.mp h
  obtain ⟨act, hact, h⟩ := bind_ok_iff.mp h
  have heq : act = value := of_decide_eq_true (Except.ok.inj h)
  cases found with
  | none => cases hact
  | some cell =>
    cases hact
    rw [hfound, heq]

theorem isConv_of_fits {input weight : TensorX} {strideH strideW : Int} {padding : PaddingMode}
    {activation : ActiMode} {op : Op} {p : OpBase} (hp : op.ptr = some p)
    (h : (RuleLoader.createConv2d input weight strideH strideW padding activation).Fits op) :
    p.IsConv strideH strideW padding activation := by
  obtain ⟨q, hq, htype, -⟩ := h.body
  rw [hp] at hq
  cases hq
  have hpm := h.pm
  unfold RuleLoader.createConv2d at hpm
  simp only [List.forall_mem_cons] at hpm
  obtain ⟨hstrideH, hstrideW, hpadding, hactivation, -⟩ := hpm
  exact ⟨htype.symm, parameter_of_check hp hstrideH, parameter_of_check hp hstrideW,
    parameter_of_check hp hpadding, parameter_of_check hp hactivation⟩

theorem isConv_of_makes {input weight : TensorX} {strideH strideW : Int} {padding : PaddingMode}
    {activation : ActiMode} {p : OpBase}
    (h : TargetBody (RuleLoader.createConv2d input weight strideH strideW padding activation) p) :
    p.IsConv strideH strideW padding activation := by
  have hparams : p.params = .conv2d strideH strideW padding activation :=
    (Option.some.inj h.params).symm
  refine ⟨h.type, ?_, ?_, ?_, ?_⟩ <;>
    unfold OpBase.getIntParameter <;> rw [hparams]

omit [Inhabited V] in
/-- The rule is sound for every reading that fuses, whatever its parameters. -/
theorem createConvRelu_safe {M : Meaning V} (hM : M.FusesRelu) (strideH strideW : Int)
    (mode : PaddingMode) : (createConvRelu strideH strideW mode).Safe M where
  wellFormed := by
    refine Rule.wellFormed_of_entries ?_ ?_ ?_ ?_ <;>
      simp [createConvRelu, RuleLoader.createConv2d, RuleLoader.createActivation,
        RuleLoader.mapOutput, TensorX.isBefore]
  sound := by
    intro src dst hsrc hdst ext sv dv hsv hdv k idx d hk hd
    obtain ⟨rfl, rfl, rfl⟩ : k = 1 ∧ idx = 0 ∧ d = (0, 0) := by
      obtain ⟨entry, hentry, rfl⟩ := Option.map_eq_some_iff.mp hd
      obtain rfl := List.mem_singleton.mp (List.mem_of_find?_eq_some hentry)
      have hkey : ((1, 0) : Nat × Nat) = (k, idx) := by simpa using List.find?_some hentry
      cases hkey
      exact ⟨rfl, rfl, rfl⟩
    obtain ⟨conv, hconv, -⟩ := (hsrc 0 _ rfl).body
    obtain ⟨relu, hrelu, hreluType, -⟩ := (hsrc 1 _ rfl).body
    obtain ⟨fused, hfused, hbody⟩ := (hdst 0 _ rfl).body
    have hfuse := hM conv relu fused strideH strideW mode
      ([TensorX.ext 10, .ext 11].map (TensorX.value ext sv)) (isConv_of_fits hconv (hsrc 0 _ rfl))
      hreluType.symm (isConv_of_makes hbody)
    have hconvValue : sv 0 = M.apply conv ([TensorX.ext 10, .ext 11].map (TensorX.value ext sv)) := by
      rw [hsv 0 _ rfl, Meaning.value, hconv]
      rfl
    have hreluValue : sv 1 = M.apply relu [sv 0 0] := by
      rw [hsv 1 _ rfl, Meaning.value, hrelu]
      rfl
    have hfusedValue : dv 0 =
        M.apply fused ([TensorX.ext 10, .ext 11].map (TensorX.value ext sv)) := by
      rw [hdv 0 _ rfl, Meaning.value, hfused]
      rfl
    rw [hfusedValue, hreluValue, hconvValue]
    exact hfuse
  keepsEnds := by
    refine Rule.keepsEnds_of_entries fun k hk => ?_
    obtain rfl | rfl : k = 0 ∨ k = 1 := by
      have hk : k < 2 := hk
      omega
    · exact Or.inl ⟨_, List.mem_cons_of_mem _ (List.mem_singleton.mpr rfl), _,
        List.mem_singleton.mpr rfl, 0, rfl⟩
    · refine Or.inr ⟨0, rfl, ?_, ?_⟩ <;>
        simp [createConvRelu, RuleLoader.createConv2d, RuleLoader.mapOutput]

/-- Operators add up their inputs, and an activation takes what is positive. -/
def clampMeaning : Meaning Int where
  apply := fun p inputs _ =>
    if p.type = .OP_RELU ∨ p.getIntParameter .PM_ACTI = .ok (some (.acti .AC_MODE_RELU)) then
      max 0 inputs.sum
    else inputs.sum
  given := fun _ _ => 1

theorem clampMeaning_fuses : clampMeaning.FusesRelu := by
  intro conv relu fused strideH strideW padding inputs hconv hrelu hfused
  have hplain : ¬ (conv.type = .OP_RELU ∨
      conv.getIntParameter .PM_ACTI = .ok (some (.acti .AC_MODE_RELU))) := by
    rw [hconv.type, hconv.activation]
    decide
  have hsum : clampMeaning.apply conv inputs 0 = inputs.sum := if_neg hplain
  have hmax : clampMeaning.apply relu [inputs.sum] 0 = max 0 [inputs.sum].sum := if_pos (Or.inl hrelu)
  rw [hsum, hmax, List.sum_singleton]
  exact if_pos (Or.inr hfused.activation)

/-! ## Runs of the search -/

/-- A graph of the search: it keeps what `g₀` computes, and its operators were numbered before
`bound`. -/
structure Derived (M : Meaning V) (g₀ : Graph) (bound : Nat) (g : Graph) : Prop where
  wellFormed : g.WellFormed
  acyclic : g.Acyclic
  issued : ∀ op, g.Mentions op → op.guid < bound
  keeps : M.Keeps g₀ g

theorem Derived.mono {M : Meaning V} {g₀ g : Graph} {bound bound' : Nat}
    (h : Derived M g₀ bound g) (hle : bound ≤ bound') : Derived M g₀ bound' g :=
  { h with issued := fun op hop => Nat.lt_of_lt_of_le (h.issued op hop) hle }

/-- What a run of a rule works on: sound numbering, and graphs of the search. -/
structure Leaf.Keeps (M : Meaning V) (g₀ : Graph) (first : Nat) (leaf : Leaf) : Prop where
  model : leaf.model.Sound
  numbered : first ≤ leaf.model.global_unique_id
  candidates : ∀ c ∈ leaf.candidates, Derived M g₀ leaf.model.global_unique_id c

section Runs

variable {M : Meaning V} {g₀ : Graph} {first : Nat} {env : RunEnv} {x : Rule} {g : Graph}
  {leaf leaf' : Leaf} (hx : x.Safe M) (hissued₀ : ∀ op, g₀.Mentions op → op.guid < first)

include hx hissued₀ in
theorem completeMatch_keeps (hg : Derived M g₀ leaf.model.global_unique_id g) {s : Matching}
    (hs : MatchOf x.srcOps g s)
    (hfits : ∀ (k : Nat) opx, x.srcOps[k]? = some opx → opx.Fits (s.mapOp k))
    (hleaf : leaf.Keeps M g₀ first) (h : completeMatch env x g s leaf = .ok leaf') :
    leaf'.Keeps M g₀ first ∧ leaf.model.global_unique_id ≤ leaf'.model.global_unique_id := by
  unfold completeMatch at h
  obtain ⟨⟨created, dstMap, m'⟩, htargets, h⟩ := bind_ok_iff.mp h
  obtain ⟨hm', hle, -⟩ := createTargets_ok hleaf.model htargets
  -- in every branch the numbering has moved on, and the graphs of before are still there
  have hold : ∀ c ∈ leaf.candidates, Derived M g₀ m'.global_unique_id c :=
    fun c hc => (hleaf.candidates c hc).mono hle
  have hquiet : Leaf.Keeps M g₀ first { leaf with dstMap := dstMap, model := m' } :=
    ⟨hm', hleaf.numbered.trans hle, hold⟩
  dsimp only at h
  split at h
  · cases h
    exact ⟨hquiet, hle⟩
  next hcreated =>
  obtain ⟨mapped, -, h⟩ := bind_ok_iff.mp h
  split at h
  · cases h
    exact ⟨hquiet, hle⟩
  obtain ⟨rebuilt, hgraph, h⟩ := bind_ok_iff.mp h
  obtain ⟨⟨loop, g'⟩, hloop, h⟩ := bind_ok_iff.mp h
  dsimp only at h
  split at h
  · cases h
    exact ⟨hquiet, hle⟩
  next hloopless =>
  obtain ⟨_, -, h⟩ := bind_ok_iff.mp h
  rw [Bool.not_eq_false] at hcreated
  rw [Bool.not_eq_true] at hloopless
  subst hcreated hloopless
  split at h
  · cases h
    refine ⟨⟨hm', hleaf.numbered.trans hle, List.forall_mem_cons.mpr ⟨?_, hold⟩⟩, hle⟩
    obtain ⟨hg', hacyclic', hkeeps, hmention⟩ :=
      rewrite_keeps hx hg.wellFormed hleaf.model hg.issued hs hfits htargets hgraph hloop
    refine ⟨hg', hacyclic', fun op hop => ?_, hg.keeps.trans hkeeps hg.acyclic ?_⟩
    · rcases hmention op hop with hop | ⟨-, hlt⟩
      · exact Nat.lt_of_lt_of_le (hg.issued op hop) hle
      · exact hlt
    · -- an operator of `g₀` was numbered before all new ones
      intro op hop hop'
      refine (hmention op hop').resolve_right fun hnew => ?_
      have hlt := hissued₀ op hop
      have hle := hleaf.numbered
      omega
  · cases h
    exact ⟨hquiet, hle⟩

include hx hissued₀ in
theorem run_keeps (hg : Derived M g₀ leaf.model.global_unique_id g) {st : Search}
    (hleaf : leaf.Keeps M g₀ first)
    (h : run env x g x.srcOps 0 ⟨Matching.start, leaf, []⟩ = .ok st) :
    st.matching = Matching.start ∧ st.leaf.Keeps M g₀ first ∧
      leaf.model.global_unique_id ≤ st.leaf.model.global_unique_id := by
  obtain ⟨hstart, -, hfold, -⟩ := (run_eq_ok hg.wellFormed hx.wellFormed).mp h
  refine ⟨hstart, ?_⟩
  refine foldlM_keeps (P := fun l : Leaf => l.Keeps M g₀ first ∧
    leaf.model.global_unique_id ≤ l.model.global_unique_id) (fun ops hops l l' hl hstep => ?_)
    ⟨hleaf, Nat.le_refl _⟩ hfold
  obtain ⟨hmatch, hlen⟩ := (mem_completeMatches hg.wellFormed hx.wellFormed).mp hops
  have hclean := clean_stateOf hg.wellFormed hx.wellFormed.src hmatch
  have hfits : ∀ (k : Nat) opx, x.srcOps[k]? = some opx →
      opx.Fits ((stateOf g x.srcOps ops).mapOp k) := by
    intro k opx hk
    have hlt : k < ops.length := hlen ▸ (List.getElem?_eq_some_iff.mp hk).1
    have hop := List.getElem?_eq_getElem hlt
    rw [hclean.mapOp, hop]
    exact hmatch.fits k opx _ hk hop
  obtain ⟨hl', hle⟩ := completeMatch_keeps hx hissued₀ (hg.mono hl.2)
    (matchOf_stateOf hg.wellFormed hx.wellFormed.src hmatch hlen) hfits hl.1 hstep
  exact ⟨hl', hl.2.trans hle⟩

end Runs

namespace OptEnv

variable {K : Type} [Field K] [LinearOrder K]

/-- Between two runs of rules: every graph that is held was derived from `g₀`, and every rule is
back at its start. -/
structure Holds (M : Meaning V) (g₀ : Graph) (first : Nat) (rules : List Rule) (st : OptState K) :
    Prop where
  model : st.model.Sound
  numbered : first ≤ st.model.global_unique_id
  heap : ∀ c ∈ st.candidates, Derived M g₀ st.model.global_unique_id c.graph
  taken : ∀ c ∈ st.popped, Derived M g₀ st.model.global_unique_id c.graph
  best : Derived M g₀ st.model.global_unique_id st.bestGraph.graph
  xfers : ∀ x ∈ st.xfers, x.rule ∈ rules ∧ x.matching = Matching.start

section Steps

variable {M : Meaning V} {g₀ : Graph} {first : Nat} {rules : List Rule} {env : OptEnv K}
  {st st' : OptState K} {sub : Costed K} {threshold alpha : K} {maxNumOps : Nat}

omit [Field K] [LinearOrder K] in
/-- More operators were numbered. -/
theorem Holds.advance (h : Holds M g₀ first rules st) {m : Model} (hm : m.Sound)
    (hle : st.model.global_unique_id ≤ m.global_unique_id) (hashmap : List Nat) :
    Holds M g₀ first rules { st with model := m, hashmap := hashmap } where
  model := hm
  numbered := h.numbered.trans hle
  heap := fun c hc => (h.heap c hc).mono hle
  taken := fun c hc => (h.taken c hc).mono hle
  best := h.best.mono hle
  xfers := h.xfers

omit [Field K] [LinearOrder K] in
theorem Holds.heappush (env : OptEnv K) (sub : Costed K) (h : Holds M g₀ first rules st)
    {c : Costed K} (hc : Derived M g₀ st.model.global_unique_id c.graph) :
    Holds M g₀ first rules (env.heappush sub st c) :=
  { h with
    heap := fun c' hc' => by
      rcases List.mem_cons.mp ((env.heapq.push_perm c st.candidates).mem_iff.mp hc') with rfl | hc'
      · exact hc
      · exact h.heap c' hc' }

omit [Field K] [LinearOrder K] in
theorem Holds.heappushes (env : OptEnv K) (sub : Costed K) (cs : List (Costed K))
    (h : Holds M g₀ first rules st)
    (hcs : ∀ c ∈ cs, Derived M g₀ st.model.global_unique_id c.graph) :
    Holds M g₀ first rules (cs.foldl (env.heappush sub) st) ∧
      (cs.foldl (env.heappush sub) st).model = st.model := by
  induction cs generalizing st with
  | nil => exact ⟨h, rfl⟩
  | cons c cs ih =>
    obtain ⟨hc, hcs⟩ := List.forall_mem_cons.mp hcs
    exact ih (h.heappush env sub hc) hcs

variable (hrules : ∀ x ∈ rules, x.Safe M) (hissued₀ : ∀ op, g₀.Mentions op → op.guid < first)

include hrules hissued₀ in
theorem Holds.runXfer (h : Holds M g₀ first rules st)
    (hsub : Derived M g₀ st.model.global_unique_id sub.graph) {x x' : Xfer}
    (hx : x.rule ∈ rules ∧ x.matching = Matching.start)
    (hrun : env.runXfer threshold maxNumOps sub x st = .ok (x', st')) :
    Holds M g₀ first rules st' ∧ st.model.global_unique_id ≤ st'.model.global_unique_id ∧
      x'.rule ∈ rules ∧ x'.matching = Matching.start := by
  obtain ⟨out, hout, hrun⟩ := bind_ok_iff.mp hrun
  cases hrun
  obtain ⟨hrule, hstart⟩ := hx
  rw [hstart] at hout
  have hleaf : Leaf.Keeps M g₀ first ⟨st.model, x.dstMap, [], st.hashmap⟩ :=
    ⟨h.model, h.numbered, fun c hc => (by cases hc)⟩
  obtain ⟨hmatching, hkeeps, hle⟩ := run_keeps (hrules _ hrule) hissued₀ hsub hleaf hout
  obtain ⟨hpushed, hmodel⟩ := (h.advance hkeeps.model hle out.leaf.hashmap).heappushes env sub
    (out.leaf.candidates.reverse.map env.candidate) fun c hc => by
      obtain ⟨g, hg, rfl⟩ := List.mem_map.mp hc
      exact hkeeps.candidates g (List.mem_reverse.mp hg)
  refine ⟨hpushed, ?_, hrule, hmatching⟩
  rw [hmodel]
  exact hle

include hrules hissued₀ in
theorem Holds.runXfers (xs : List Xfer) {xs' : List Xfer} (h : Holds M g₀ first rules st)
    (hsub : Derived M g₀ st.model.global_unique_id sub.graph)
    (hxs : ∀ x ∈ xs, x.rule ∈ rules ∧ x.matching = Matching.start)
    (hrun : env.runXfers threshold maxNumOps sub xs st = .ok (xs', st')) :
    Holds M g₀ first rules st' ∧ ∀ x ∈ xs', x.rule ∈ rules ∧ x.matching = Matching.start := by
  induction xs generalizing st xs' with
  | nil =>
    cases hrun
    exact ⟨h, hxs⟩
  | cons x xs ih =>
    obtain ⟨⟨x', st1⟩, hfirst, hrun⟩ := bind_ok_iff.mp hrun
    obtain ⟨⟨xs1, st2⟩, hrest, hrun⟩ := bind_ok_iff.mp hrun
    cases hrun
    obtain ⟨hx, hxs⟩ := List.forall_mem_cons.mp hxs
    obtain ⟨h1, hle, hx'⟩ := h.runXfer hrules hissued₀ hsub hx hfirst
    obtain ⟨h2, hxs'⟩ := ih h1 (hsub.mono hle) hxs hrest
    exact ⟨h2, List.forall_mem_cons.mpr ⟨hx', hxs'⟩⟩

theorem totalCost_graph {opCost : OpBase → K} {c c' : Costed K}
    (h : c.totalCost opCost = .ok c') : c'.graph = c.graph := by
  rcases Costed.totalCost_cases h with ⟨-, rfl⟩ | ⟨heq, -⟩
  · rfl
  · exact heq

theorem Holds.select (h : Holds M g₀ first rules st) {rest : List (Costed K)}
    (hpop : env.heapq.pop st.candidates = some (sub, rest))
    (hrun : env.select sub rest st = .ok st') :
    Holds M g₀ first rules st' ∧ Derived M g₀ st'.model.global_unique_id sub.graph := by
  have hperm := env.heapq.pop_perm hpop
  have hsub := h.heap sub (hperm.mem_iff.mpr (List.mem_cons_self ..))
  have hrest : ∀ c ∈ rest, Derived M g₀ st.model.global_unique_id c.graph :=
    fun c hc => h.heap c (hperm.mem_iff.mpr (List.mem_cons_of_mem _ hc))
  have htaken : ∀ c ∈ sub :: st.popped, Derived M g₀ st.model.global_unique_id c.graph :=
    List.forall_mem_cons.mpr ⟨hsub, h.taken⟩
  unfold OptEnv.select at hrun
  dsimp only at hrun
  split at hrun
  · obtain ⟨sub', hcost, hrun⟩ := bind_ok_iff.mp hrun
    cases hrun
    refine ⟨⟨h.model, h.numbered, hrest, htaken, ?_, h.xfers⟩, hsub⟩
    show Derived M g₀ st.model.global_unique_id sub'.graph
    rw [totalCost_graph hcost]
    exact hsub
  · cases hrun
    exact ⟨⟨h.model, h.numbered, hrest, htaken, h.best, h.xfers⟩, hsub⟩

include hrules hissued₀ in
theorem Holds.expand (h : Holds M g₀ first rules st)
    (hsub : Derived M g₀ st.model.global_unique_id sub.graph)
    (hrun : env.expand alpha maxNumOps sub st = .ok st') : Holds M g₀ first rules st' := by
  obtain ⟨⟨xfers, st1⟩, hxfers, hrun⟩ := bind_ok_iff.mp hrun
  cases hrun
  obtain ⟨h1, hxfers⟩ := h.runXfers hrules hissued₀ st.xfers hsub h.xfers hxfers
  exact { h1 with xfers := hxfers }

include hrules hissued₀ in
/-- **The loop of `optimize`** only ever holds graphs that keep what the first one computes. -/
theorem Holds.searchLoop (left : Nat) (h : Holds M g₀ first rules st)
    (hrun : env.searchLoop alpha maxNumOps left st = .ok st') : Holds M g₀ first rules st' := by
  induction left generalizing st with
  | zero =>
    unfold OptEnv.searchLoop at hrun
    split at hrun
    · cases hrun
      exact h
    · next hpop => exact (h.select hpop hrun).1
  | succ left ih =>
    unfold OptEnv.searchLoop at hrun
    split at hrun
    · cases hrun
      exact h
    · next hpop =>
      obtain ⟨st1, hselect, hrun⟩ := bind_ok_iff.mp hrun
      obtain ⟨st2, hexpand, hrun⟩ := bind_ok_iff.mp hrun
      obtain ⟨h1, hsub⟩ := h.select hpop hselect
      exact ih (h1.expand hrules hissued₀ hsub hexpand) hrun

end Steps

section Result

variable {M : Meaning V} {rules : List Rule} {env : OptEnv K} {m : Model} {start : Costed K}
  {st : OptState K} {alpha : K} {budget : Nat}

theorem holds_of_search (hrules : ∀ x ∈ rules, x.Safe M) (hm : m.Sound)
    (hg : start.graph.WellFormed) (hacyclic : start.graph.Acyclic)
    (hissued : ∀ op, start.graph.Mentions op → op.guid < m.global_unique_id)
    (hst : env.search alpha budget rules m start = .ok st) :
    Holds M start.graph m.global_unique_id rules st := by
  obtain ⟨first, hfirst, hloop⟩ := bind_ok_iff.mp hst
  have hstart : Derived M start.graph m.global_unique_id first.graph := by
    rw [totalCost_graph hfirst]
    exact ⟨hg, hacyclic, hissued, Meaning.Keeps.refl M hacyclic⟩
  have hinit : Holds M start.graph m.global_unique_id rules (env.initialState rules m first) := by
    refine ⟨hm, Nat.le_refl _, fun c hc => ?_, fun c hc => (by cases hc), hstart, fun x hx => ?_⟩
    · rw [List.mem_singleton.mp ((env.heapq.push_perm first []).mem_iff.mp hc)]
      exact hstart
    · obtain ⟨rule, hrule, rfl⟩ := List.mem_map.mp hx
      exact ⟨hrule, rfl⟩
  exact hinit.searchLoop hrules hissued (budget + 1) hloop

end Result

/-- The graph of builder calls is well formed, and its `Model` sound. -/
theorem built_sound {calls : List Call} {g : Graph} {m : Model} (h : built calls = .ok (g, m)) :
    g.WellFormed ∧ m.Sound := by
  obtain ⟨s, hs, h⟩ := bind_ok_iff.mp h
  obtain ⟨_, hm, h⟩ := bind_ok_iff.mp h
  cases h
  have hsound := Session.sound_of_reachable (Session.reachable_of_builds _ hs)
  exact ⟨hsound.inv.graph, hsound.models m (List.mem_of_getElem? (Session.model_eq_ok.mp hm))⟩

/-- **`optimize` keeps what the network computes.** With rules that are sound for the meaning `M`,
every graph the search takes out of the heap or leaves there has an end for each end of the start
graph, with its value. The graph that is returned has that end with that value too, unless the end
only reads weights; operators of the start graph that are still in it have the value they had. -/
theorem optimize_keeps (M : Meaning V) (env : OptEnv K) (alpha : K) (budget : Nat)
    (rules : List Rule) (hrules : ∀ x ∈ rules, x.Safe M) (m : Model) (hm : m.Sound)
    (start : Costed K) (hg : start.graph.WellFormed) (hacyclic : start.graph.Acyclic)
    (hissued : ∀ op, start.graph.Mentions op → op.guid < m.global_unique_id) (st : OptState K)
    (hst : env.search alpha budget rules m start = .ok st) :
    (∀ c, c ∈ st.popped ∨ c ∈ st.candidates →
      c.graph.WellFormed ∧ c.graph.Acyclic ∧ M.Keeps start.graph c.graph) ∧
    ∃ g', env.optimize alpha budget rules m start = .ok g' ∧ g'.WellFormed ∧ g'.Acyclic ∧
      (∀ val val', M.Values start.graph val → M.Values g' val' →
        ∀ op ∈ g'.inEdges.keys, start.graph.Mentions op → val' op = val op) ∧
      ∀ op, start.graph.IsEnd op → ∃ op', st.bestGraph.graph.IsEnd op' ∧
        (st.bestGraph.graph.WeightOnly op' ∨ g'.IsEnd op' ∧ ∀ val val', M.Values start.graph val →
          M.Values g' val' → val' op' 0 = val op 0) := by
  have hholds := holds_of_search hrules hm hg hacyclic hissued hst
  have hbest := hholds.best
  refine ⟨fun c hc => ?_, ?_⟩
  · have hc := hc.elim (hholds.taken c) (hholds.heap c)
    exact ⟨hc.wellFormed, hc.acyclic, hc.keeps⟩
  obtain ⟨weightOps, g', hrun, hg', hmention, hsub, hclosed, hpruned, -⟩ :=
    Graph.WellFormed.preprocessWeights_spec hbest.wellFormed
  obtain ⟨best, hvalBest, -⟩ := existsUnique_values M hbest.acyclic
  have hfeeds : ∀ {u v}, g'.Feeds u v → st.bestGraph.graph.Feeds u v := by
    rintro u v ⟨e, he, rfl⟩
    exact ⟨e, (hpruned.ins v (OpMap.mem_keys_of_mem_edges he) e).mp he, rfl⟩
  refine ⟨g', bind_ok_iff.mpr ⟨st, hst, hrun⟩, hg', Subrelation.wf hfeeds hbest.acyclic,
    fun val val' hval hval' op hop hop₀ => ?_, fun op hop => ?_⟩
  · rw [hpruned.values M hbest.wellFormed hg' hbest.acyclic hvalBest hval' hop]
    exact hbest.keeps.same val best hval hvalBest op hop₀ (hmention op (Or.inl hop))
  · obtain ⟨op', hend, hvalue⟩ := hbest.keeps.ends op hop
    refine ⟨op', hend, ?_⟩
    by_cases hkept : op' ∈ g'.inEdges.keys
    · refine Or.inr ⟨⟨hkept, fun v hread => hend.unread v (hfeeds hread)⟩, ?_⟩
      intro val val' hval hval'
      rw [hpruned.values M hbest.wellFormed hg' hbest.acyclic hvalBest hval' hkept]
      exact hvalue val best hval hvalBest
    · have hweight := (hpruned.removed op' hend.key hkept).1
      exact Or.inl ((Graph.mem_weightOps_iff hbest.acyclic hsub hclosed).mp hweight)

/-- A convolution and its activation become one operator, whose value is the activation's. -/
theorem optimize_keeps_convRelu : ∃ (g g' : Graph) (m : Model) (op op' : Op),
    built convReluCalls = .ok (g, m) ∧
      tenths.optimize 2 0 [createConvRelu 1 1 .PD_MODE_SAME] m ⟨g, 0⟩ = .ok g' ∧
      g'.inEdges.keys.length < g.inEdges.keys.length ∧ g.IsEnd op ∧ g'.IsEnd op' ∧
      ∀ val val', clampMeaning.Values g val → clampMeaning.Values g' val' →
        val' op' 0 = val op 0 := by
  have hrun : (do
      let (g, m) ← built convReluCalls
      pyAssert (∀ op ∈ g.inEdges.keys ++ g.outEdges.keys, op.guid < m.global_unique_id)
      let loop ← g.hasLoop
      pyAssert (loop.1 = false)
      let op ← pyUnwrap g.inEdges.keys[3]?
      pyAssert (op ∈ g.inEdges.keys ∧ g.outs op = [])
      let st ← tenths.search 2 0 [createConvRelu 1 1 .PD_MODE_SAME] m ⟨g, 0⟩
      -- every end of the selected graph reads an input
      pyAssert (st.bestGraph.graph.Sourced ∧ ∀ k ∈ st.bestGraph.graph.inEdges.keys,
        st.bestGraph.graph.outs k = [] → ∃ e ∈ st.bestGraph.graph.ins k,
          e.srcOp ∈ st.bestGraph.graph.inEdges.keys ∧ e.srcOp.type = some OpType.OP_INPUT)
      let g' ← st.bestGraph.graph.preprocessWeights
      pyAssert (g'.inEdges.keys.length < g.inEdges.keys.length)).toOption = some () := by
    decide +kernel
  simp only [toOption_eq_some, bind_ok_iff, pyAssert_eq_ok] at hrun
  obtain ⟨⟨g, m⟩, hbuilt, -, hissued, ⟨loop, _⟩, hloop, -, rfl, op, -, -, ⟨hkey, hunread⟩, st, hst,
    -, ⟨hsourced, hends⟩, g1, hclean, hshort⟩ := hrun
  obtain ⟨hg, hm⟩ := built_sound hbuilt
  have hacyclic := (Graph.of_hasLoop_false hg.toConsistent hg.unique hg.numbered hloop).1
  have hissued : ∀ op, g.Mentions op → op.guid < m.global_unique_id :=
    fun op hop => hissued op (List.mem_append.mpr hop)
  have hrules : ∀ x ∈ [createConvRelu 1 1 .PD_MODE_SAME], x.Safe clampMeaning := fun x hx => by
    rw [List.mem_singleton.mp hx]
    exact createConvRelu_safe clampMeaning_fuses 1 1 .PD_MODE_SAME
  have hend : g.IsEnd op := (Graph.isEnd_iff hg.toConsistent hkey).mpr hunread
  obtain ⟨-, g', hopt, -, -, -, hkept⟩ := optimize_keeps clampMeaning tenths 2 0
    [createConvRelu 1 1 .PD_MODE_SAME] hrules m hm ⟨g, 0⟩ hg hacyclic hissued st hst
  obtain ⟨op', hbestEnd, hweight | ⟨hend', hvalue⟩⟩ := hkept op hend
  · have hbest := (holds_of_search hrules hm hg hacyclic hissued hst).best.wellFormed
    obtain ⟨e, he, hsrc, hinput⟩ := hends op' hbestEnd.key
      ((Graph.isEnd_iff hbest.toConsistent hbestEnd.key).mp hbestEnd)
    exact absurd hweight (Graph.InputDependent.not_weightOnly hbest hsourced
      ⟨e.srcOp, hsrc, hinput, .single ⟨e, he, rfl⟩⟩)
  · obtain rfl : g1 = g' := by
      obtain ⟨st', hst', hclean'⟩ := bind_ok_iff.mp hopt
      rw [hst] at hst'
      cases hst'
      exact Except.ok.inj (hclean.symm.trans hclean')
    exact ⟨g, g1, m, op, op', hbuilt, hopt, hshort, hend, hend', hvalue⟩

end OptEnv

end Peps
