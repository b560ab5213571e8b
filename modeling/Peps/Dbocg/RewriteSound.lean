import Mathlib.Algebra.Ring.Int.Defs
import Peps.Lib.Equations
import Peps.Dbocg.Search

/-!
# A sound rule keeps the values of a graph

The values of a graph are the solution of a system of equations: an operator computes its outputs
from the values that its in-edges bring (`Meaning.Values`). A pattern has values in the same way,
given those of its external tensors (`PatternValues`), and a rule is sound if whatever operators fit
its two patterns, the mapped outputs agree (`Rule.Sound`).

`create_new_graph` takes the matched operators out and puts the target operators in. An external
tensor of the rule may be bound to the output of a matched operator; then a target operator reads
an operator that is gone. `has_loop` waits for it forever and refuses the graph, so in a graph that
passes every source beyond the preserved guids is there (`Graph.of_hasLoop_false`). The values of
the two graphs are then compared by induction along the new one (`values_agree`).
-/

namespace Peps

open Lib

/-! ## Values of graphs and patterns -/

/-- What operators compute: from its input values the body of an operator gives its outputs; the
sources outside the graph have no body and are given. -/
structure Meaning (V : Type) where
  apply : OpBase → List V → Nat → V
  given : Op → Nat → V

variable {V : Type} [Inhabited V]

def Meaning.value (M : Meaning V) (op : Op) (inputs : List V) : Nat → V :=
  match op.ptr with
  | none => M.given op
  | some p => M.apply p inputs

/-- The value that the in-edge of slot `i` brings. -/
def inputValue (g : Graph) (val : Op → Nat → V) (op : Op) (i : Nat) : V :=
  ((g.ins op).find? fun e => e.dstIdx = i).elim default fun e => val e.srcOp e.srcIdx

/-- The equation of an operator. -/
def Meaning.equation (M : Meaning V) (g : Graph) (val : Op → Nat → V) (op : Op) : Nat → V :=
  M.value op ((List.range op.numInputs).map (inputValue g val op))

/-- `val` gives the outputs of every operator. -/
def Meaning.Values (M : Meaning V) (g : Graph) (val : Op → Nat → V) : Prop :=
  Solves (M.equation g) val

theorem inputValue_congr {g : Graph} {val val' : Op → Nat → V} {op : Op}
    (h : ∀ u, g.Feeds u op → val u = val' u) (i : Nat) :
    inputValue g val op i = inputValue g val' op i := by
  unfold inputValue
  cases hfind : (g.ins op).find? fun e => decide (e.dstIdx = i) with
  | none => rfl
  | some e => exact congrFun (h e.srcOp ⟨e, List.mem_of_find?_eq_some hfind, rfl⟩) e.srcIdx

theorem dependsOn_equation (M : Meaning V) (g : Graph) (op : Op) :
    DependsOn (M.equation g · op) {u | g.Feeds u op} := by
  intro val val' h
  show M.value op _ = M.value op _
  rw [List.map_congr_left fun i _ => inputValue_congr h i]

/-- **An acyclic graph has values, and only one choice of them.** -/
theorem existsUnique_values (M : Meaning V) {g : Graph} (hg : g.Acyclic) :
    ∃! val, M.Values g val :=
  existsUnique_solves hg (dependsOn_equation M g)

theorem inputValue_of_mem {g : Graph} (val : Op → Nat → V) {op : Op}
    (hunique : ∀ e f, e ∈ g.ins op → f ∈ g.ins op → e.dstIdx = f.dstIdx → e = f) {e : Edge}
    (he : e ∈ g.ins op) : inputValue g val op e.dstIdx = val e.srcOp e.srcIdx := by
  unfold inputValue
  cases hfind : (g.ins op).find? fun f => decide (f.dstIdx = e.dstIdx) with
  | none => exact absurd (List.find?_eq_none.mp hfind e he) (by simp)
  | some f =>
    have hslot : f.dstIdx = e.dstIdx := by simpa using List.find?_some hfind
    rw [hunique f e (List.mem_of_find?_eq_some hfind) he hslot]
    rfl

/-- The value of a tensor of a pattern. -/
def TensorX.value (ext : Nat → V) (pv : Nat → Nat → V) : TensorX → V
  | .ext idx => ext idx
  | .out j idx => pv j idx

/-- `pv` gives the outputs of the operators of a pattern, where `ops` stand for them. -/
def PatternValues (M : Meaning V) (opxs : List OpX) (ops : Nat → Op) (ext : Nat → V)
    (pv : Nat → Nat → V) : Prop :=
  ∀ k opx, opxs[k]? = some opx → pv k = M.value (ops k) (opx.inputs.map (TensorX.value ext pv))

theorem exists_patternValues (M : Meaning V) {opxs : List OpX} (ops : Nat → Op) (ext : Nat → V)
    (hopxs : ∀ (k : Nat) opx, opxs[k]? = some opx → ∀ j idx, TensorX.out j idx ∈ opx.inputs → j < k) :
    ∃ pv, PatternValues M opxs ops ext pv := by
  let F : (Nat → Nat → V) → Nat → Nat → V := fun pv k =>
    opxs[k]?.elim default fun opx => M.value (ops k) (opx.inputs.map (TensorX.value ext pv))
  have hF : ∀ k, DependsOn (F · k) {j | j < k} := by
    intro k pv pv' h
    show F pv k = F pv' k
    unfold F
    cases hopx : opxs[k]? with
    | none => rfl
    | some opx =>
      refine congrArg (M.value (ops k)) (List.map_congr_left fun tx htx => ?_)
      cases tx with
      | ext idx => rfl
      | out j idx => exact congrFun (h j (hopxs k opx hopx j idx htx)) idx
  obtain ⟨pv, hpv⟩ := exists_solves Nat.lt_wfRel.wf hF
  refine ⟨pv, fun k opx hopx => ?_⟩
  rw [hpv k]
  show F pv k = _
  unfold F
  rw [hopx]
  rfl

/-- What `create_new_operator` makes of a target operator. -/
structure OpX.Makes (opx : OpX) (op : Op) : Prop where
  body : ∃ p, op.ptr = some p ∧ TargetBody opx p
  tn : ∀ tnc ∈ opx.tnConstraints, checkTnConstraint op tnc = .ok true

/-- The two patterns agree on the mapped outputs, for all operators that fit them and all values of
the external tensors. -/
def Rule.Sound (x : Rule) (M : Meaning V) : Prop :=
  ∀ src dst : Nat → Op, (∀ (k : Nat) opx, x.srcOps[k]? = some opx → opx.Fits (src k)) →
    (∀ (k : Nat) opx, x.dstOps[k]? = some opx → opx.Makes (dst k)) →
    ∀ ext sv dv, PatternValues M x.srcOps src ext sv → PatternValues M x.dstOps dst ext dv →
      ∀ k idx d, k < x.srcOps.length → x.mappedOutput k idx = some d → dv d.1 d.2 = sv k idx

/-! ## The target operators fit -/

theorem createNewOperator_tn {s : Matching} {dstMap dstMap' : Nat → Op} {m m' : Model} {k : Nat}
    {opx : OpX} (h : createNewOperator s dstMap m k opx = .ok (true, dstMap', m')) :
    (∀ j, j ≠ k → dstMap' j = dstMap j) ∧
      ∀ tnc ∈ opx.tnConstraints, checkTnConstraint (dstMap' k) tnc = .ok true := by
  simp only [createNewOperator, bind_ok_iff] at h
  obtain ⟨⟨op, m1⟩, -, h⟩ := h
  split at h
  · cases h
  · simp only [bind_ok_iff] at h
    obtain ⟨ok, hall, h⟩ := h
    split at h
    · next hok =>
      cases h
      rw [hok, allM_eq_true] at hall
      refine ⟨fun j hj => Function.update_of_ne hj _ _, ?_⟩
      rw [Function.update_self]
      exact hall
    · cases h

theorem createTargets_tn {s : Matching} {opxs : List OpX} {n : Nat} {dstMap dstMap' : Nat → Op}
    {m m' : Model} (h : createTargets s (opxs.zipIdx n) dstMap m = .ok (true, dstMap', m')) :
    (∀ j < n, dstMap' j = dstMap j) ∧ ∀ (i : Nat) opx, opxs[i]? = some opx →
      ∀ tnc ∈ opx.tnConstraints, checkTnConstraint (dstMap' (n + i)) tnc = .ok true := by
  induction opxs generalizing n dstMap m with
  | nil =>
    cases h
    exact ⟨fun _ _ => rfl, fun i opx hi => (by cases hi)⟩
  | cons opx opxs ih =>
    rw [List.zipIdx_cons, createTargets] at h
    simp only [bind_ok_iff] at h
    obtain ⟨⟨ok, map1, m1⟩, hone, h⟩ := h
    cases ok with
    | false => cases h
    | true =>
      replace h : createTargets s (opxs.zipIdx (n + 1)) map1 m1 = .ok (true, dstMap', m') := h
      obtain ⟨hkeep1, htn⟩ := createNewOperator_tn hone
      obtain ⟨hkeep, hall⟩ := ih h
      refine ⟨fun j hj => ?_, fun i opx' hi => ?_⟩
      · rw [hkeep j (by omega), hkeep1 j (by omega)]
      · cases i with
        | zero =>
          cases hi
          rw [Nat.add_zero, hkeep n (Nat.lt_succ_self n)]
          exact htn
        | succ i =>
          rw [show n + (i + 1) = n + 1 + i by omega]
          exact hall i opx' hi

/-! ## The two graphs -/

/-- One in-edge for each input of each operator, and guids that tell operators apart. -/
structure Graph.Slotted (g : Graph) : Prop extends Consistent g where
  slots : ∀ op ∈ g.inEdges.keys, SlotsFilled (· ∈ g.ins op) op
  unique : UniqueGuids g.Mentions
  numbered : ∀ op ∈ g.inEdges.keys, GUID_PRESERVED < op.guid

theorem Graph.WellFormed.slotted {g : Graph} (h : g.WellFormed) : g.Slotted :=
  ⟨h.toConsistent, h.slots, h.unique, h.numbered⟩

theorem Graph.Slotted.slot_unique {g : Graph} (h : g.Slotted) {op : Op} {e f : Edge}
    (he : e ∈ g.ins op) (hf : f ∈ g.ins op) (heq : e.dstIdx = f.dstIdx) : e = f :=
  (h.slots op (OpMap.mem_keys_of_mem_edges he)).unique e f he hf heq

section Rewrite

variable {x : Rule} {s : Matching} {dstMap : Nat → Op} {first : Nat} {g g' : Graph}
  {es : List Edge} (hg : g.Slotted) (hes : NewEdges x s dstMap g es)
  (hadd : Graph.EdgesAdded Graph.new es g') (htargets : x.Targets dstMap first)
  (hfresh : ∀ op, g.Mentions op → op.guid < first)

include hadd in
omit [Inhabited V] in
theorem mem_ins_new {op : Op} {f : Edge} : f ∈ g'.ins op ↔ f ∈ es ∧ f.dstOp = op := by
  rw [hadd.ins]
  exact ⟨fun h => h.elim (fun h => by cases h) id, Or.inr⟩

include hg hes hadd htargets hfresh in
/-- The new graph is of the same kind. -/
theorem slotted_new (hfirst : GUID_PRESERVED < first) (hx : x.Closed)
    (hs : MatchOf x.srcOps g s) : g'.Slotted where
  toConsistent := Graph.consistent_new.added hadd
  slots := fun op hop => by
    rcases (hadd.inKeys op).mp hop with hop | ⟨f, hf, rfl⟩
    · cases hop
    · have h := hes.slots hg.toConsistent htargets hfresh hg.slots hf
      exact ⟨fun e he => h.bound e ((mem_ins_new hadd).mp he),
        fun i hi => (h.one i hi).imp fun e he => ⟨(mem_ins_new hadd).mpr he.1, he.2⟩,
        fun a b ha hb => h.unique a b ((mem_ins_new hadd).mp ha) ((mem_ins_new hadd).mp hb)⟩
  unique := fun a b ha hb => htargets.unique hg.unique hfresh a b
    (hes.mentions hg.toConsistent hx hs hadd ha) (hes.mentions hg.toConsistent hx hs hadd hb)
  numbered := fun op hop => by
    rcases (hadd.inKeys op).mp hop with hop | ⟨f, hf, rfl⟩
    · cases hop
    · rcases hes.dst_known hg.toConsistent hf with ⟨hkey, -⟩ | ⟨k, opx, hk, heq⟩
      · exact hg.numbered _ hkey
      · rw [heq, (htargets.guid (List.getElem?_eq_some_iff.mp hk).1).1]
        omega

include hg hes hadd htargets hfresh in
/-- Operators outside the match read the values they read before, if the rerouted edges bring
them. -/
theorem inputValue_outside {val val' : Op → Nat → V}
    (hunique : ∀ op, ∀ e ∈ g'.ins op, ∀ f ∈ g'.ins op, e.dstIdx = f.dstIdx → e = f) {op : Op}
    (hop : g.Mentions op) (hout : op ∉ s.mappedOps.keys)
    (hsrc : ∀ e ∈ g.ins op, ∀ f ∈ g'.ins op, rewireEdge x s dstMap e = .ok f →
      val' f.srcOp f.srcIdx = val e.srcOp e.srcIdx) (i : Nat) :
    inputValue g' val' op i = inputValue g val op i := by
  have hrewired : ∀ e ∈ g.ins op, ∃ f ∈ g'.ins op, rewireEdge x s dstMap e = .ok f ∧
      f.dstIdx = e.dstIdx := by
    intro e he
    have hmem : e ∈ outsideEdges s g := mem_outsideEdges.mpr ⟨op, hout, he⟩
    obtain ⟨f, hf⟩ := hes.outside e hmem
    have hin : f ∈ es := (hes.mem f).mpr (Or.inl ⟨e, hmem, hf⟩)
    have hown := hg.inOwn op e he
    rcases rewireEdge_ok hf with ⟨-, rfl⟩ | ⟨j, d, -, -, rfl⟩
    · exact ⟨f, (mem_ins_new hadd).mpr ⟨hin, hown⟩, hf, rfl⟩
    · exact ⟨_, (mem_ins_new hadd).mpr ⟨hin, hown⟩, hf, rfl⟩
  cases hfind : (g.ins op).find? fun e => decide (e.dstIdx = i) with
  | some e =>
    have he := List.mem_of_find?_eq_some hfind
    have hslot : e.dstIdx = i := by simpa using List.find?_some hfind
    obtain ⟨f, hf, hrewire, hidx⟩ := hrewired e he
    have hnew := inputValue_of_mem val' (fun a b ha hb => hunique op a ha b hb) hf
    rw [hidx, hslot] at hnew
    rw [hnew, hsrc e he f hf hrewire, inputValue, hfind]
    rfl
  | none =>
    -- no edge of the new graph has this slot either
    have hnone : (g'.ins op).find? (fun f => decide (f.dstIdx = i)) = none := by
      refine List.find?_eq_none.mpr fun f hf hslot => ?_
      obtain ⟨hin, hdst⟩ := (mem_ins_new hadd).mp hf
      obtain ⟨-, e, he, -, hidx⟩ :=
        hes.outside_edge hg.toConsistent htargets hfresh hop hin hdst
      have hslot : f.dstIdx = i := by simpa using hslot
      exact List.find?_eq_none.mp hfind e he (by simp [← hidx, hslot])
    rw [inputValue, inputValue, hfind, hnone]
    rfl

/-- The value of the tensor an external tensor is bound to. -/
def Matching.external (s : Matching) (val : Op → Nat → V) (idx : Nat) : V :=
  (s.sourceOf (.ext idx)).elim default fun b => val b.1 b.2

theorem map_inputValue {val : Op → Nat → V} {op : Op} {inputs : List TensorX} {ext : Nat → V}
    {pv : Nat → Nat → V} (hnum : op.numInputs = inputs.length)
    (h : ∀ (i : Nat) tx, inputs[i]? = some tx → inputValue g val op i = tx.value ext pv) :
    (List.range op.numInputs).map (inputValue g val op) = inputs.map (TensorX.value ext pv) := by
  refine List.ext_getElem (by simp [hnum]) fun i h₁ h₂ => ?_
  rw [List.length_map] at h₂
  rw [List.getElem_map, List.getElem_map, List.getElem_range]
  exact h i _ (List.getElem?_eq_getElem h₂)

include hg in
/-- The matched operators have the values of the source pattern. -/
theorem matched_values {M : Meaning V} {val : Op → Nat → V} (hval : M.Values g val)
    (hs : MatchOf x.srcOps g s) :
    PatternValues M x.srcOps s.mapOp (s.external val) fun k => val (s.mapOp k) := by
  intro k opx hk
  obtain ⟨p, hp, -, hnum⟩ := hs.body k opx hk
  have hslots : (s.mapOp k).numInputs = opx.inputs.length := by
    rw [Op.numInputs, hp]
    exact hnum
  show val (s.mapOp k) = _
  rw [hval (s.mapOp k), Meaning.equation, map_inputValue hslots]
  intro i tx hi
  obtain ⟨b, hb, he⟩ := hs.fed k opx hk i tx hi
  have hread := inputValue_of_mem val (fun _ _ ha hb => hg.slot_unique ha hb) he
  refine hread.trans ?_
  cases tx with
  | ext idx =>
    show val b.1 b.2 = s.external val idx
    rw [Matching.external, hb]
    rfl
  | out j idx =>
    cases hb
    rfl

include hes hadd htargets in
/-- A target operator has the value of the target pattern, if what it reads has. -/
theorem target_value {M : Meaning V} {val' : Op → Nat → V} (hval' : M.Values g' val')
    (hunique : ∀ op, ∀ e ∈ g'.ins op, ∀ f ∈ g'.ins op, e.dstIdx = f.dstIdx → e = f)
    {ext : Nat → V} {dv : Nat → Nat → V} (hdv : PatternValues M x.dstOps dstMap ext dv) {k : Nat}
    {opx : OpX} (hk : x.dstOps[k]? = some opx)
    (hext : ∀ idx b, g'.Feeds b.1 (dstMap k) → s.sourceOf (.ext idx) = some b →
      val' b.1 b.2 = ext idx)
    (hout : ∀ j idx, .out j idx ∈ opx.inputs → g'.Feeds (dstMap j) (dstMap k) →
      val' (dstMap j) = dv j) : val' (dstMap k) = dv k := by
  obtain ⟨p, hp, hbody⟩ := htargets k opx hk
  have hnum : (dstMap k).numInputs = opx.inputs.length := by
    rw [hbody]
    exact hp.numInputs
  rw [hdv k opx hk, hval' (dstMap k), Meaning.equation, map_inputValue hnum]
  intro i tx hi
  obtain ⟨f, hf⟩ := hes.target k opx i tx hk hi
  have hin : f ∈ es := (hes.mem f).mpr (Or.inr ⟨k, opx, i, tx, hk, hi, hf⟩)
  obtain ⟨b, hb, rfl⟩ := targetEdge_ok hf
  have he := (mem_ins_new hadd).mpr ⟨hin, rfl⟩
  have hread := inputValue_of_mem val' (fun _ _ ha hb => hunique _ _ ha _ hb) he
  refine hread.trans ?_
  cases tx with
  | ext idx => exact hext idx b ⟨_, he, rfl⟩ hb
  | out j idx =>
    cases hb
    exact congrFun (hout j idx (List.mem_of_getElem? hi) ⟨_, he, rfl⟩) idx

include hg hes hadd htargets hfresh in
/-- **The values of the two graphs**, by induction along the new one: an operator outside the match
has its old value, a target operator that of the target pattern. -/
theorem values_agree {M : Meaning V} {val val' : Op → Nat → V} (hx : x.Closed)
    (hs : MatchOf x.srcOps g s) (hval : M.Values g val) (hval' : M.Values g' val')
    (hg' : g'.Slotted) (hacyclic : g'.Acyclic)
    (hclosed : ∀ v, ∀ e ∈ g'.ins v, GUID_PRESERVED < e.srcOp.guid → e.srcOp ∈ g'.inEdges.keys)
    {dv : Nat → Nat → V} (hdv : PatternValues M x.dstOps dstMap (s.external val) dv)
    (hagree : ∀ k idx d, k < x.srcOps.length → x.mappedOutput k idx = some d →
      dv d.1 d.2 = val (s.mapOp k) idx) (op : Op) :
    (g.Mentions op → op ∉ s.mappedOps.keys → val' op = val op) ∧
      ∀ k < x.dstOps.length, op = dstMap k → val' op = dv k := by
  have hunique : ∀ op, ∀ e ∈ g'.ins op, ∀ f ∈ g'.ins op, e.dstIdx = f.dstIdx → e = f :=
    fun _ _ he _ hf => hg'.slot_unique he hf
  -- matched operators are gone
  have hgone : ∀ u v, g'.Feeds u v → g.Mentions u → u ∉ s.mappedOps.keys := by
    rintro u v ⟨e, he, rfl⟩ hu hmapped
    obtain ⟨k, hk, hop⟩ := (hs.mem_mappedOps e.srcOp).mp hmapped
    have hguid : GUID_PRESERVED < e.srcOp.guid := hg.numbered _ (hop ▸ hs.inGraph k hk)
    rcases (hadd.inKeys _).mp (hclosed v e he hguid) with hnew | ⟨f, hf, hdst⟩
    · cases hnew
    · exact (hes.outside_edge hg.toConsistent htargets hfresh hu hf hdst).1 hmapped
  induction op using hacyclic.induction with
  | h op ih =>
    refine ⟨fun hop hout => ?_, fun k hk heq => ?_⟩
    · rw [hval op, hval' op]
      show M.value op _ = M.value op _
      refine congrArg (M.value op) (List.map_congr_left fun i _ => ?_)
      refine inputValue_outside hg hes hadd htargets hfresh hunique hop hout ?_ i
      intro e he f hf hrewire
      have hfeeds : g'.Feeds f.srcOp op := ⟨f, hf, rfl⟩
      rcases rewireEdge_ok hrewire with ⟨hsrc, rfl⟩ | ⟨j, d, hj, hd, rfl⟩
      · exact congrFun ((ih f.srcOp hfeeds).1 (Or.inr (hg.src_mem he)) hsrc) f.srcIdx
      · obtain ⟨hjlt, hjop⟩ := (hs.mapped e.srcOp j).mp hj
        have htarget := (ih (dstMap d.1) hfeeds).2 d.1 (hx.outputs j _ d hd) rfl
        show val' (dstMap d.1) d.2 = _
        rw [htarget, hagree j e.srcIdx d hjlt hd, hjop]
    · subst heq
      refine target_value hes hadd htargets hval' hunique hdv (List.getElem?_eq_getElem hk)
        (fun idx b hfeeds hb => ?_) fun j idx hj hfeeds => ?_
      · obtain ⟨_, _, _, -, he⟩ := hs.bound_edge hb
        have hmention : g.Mentions b.1 := Or.inr (hg.src_mem he)
        have hsame := (ih b.1 hfeeds).1 hmention (hgone _ _ hfeeds hmention)
        rw [hsame, Matching.external, hb]
        rfl
      · have hjk := hx.dst k _ (List.getElem?_eq_getElem hk) j idx hj
        exact (ih (dstMap j) hfeeds).2 j (by omega) rfl

end Rewrite

/-- **Rewriting with a sound rule keeps the values**: if the graph that `create_new_graph` builds at
a consistent match passes `has_loop`, it has values, every operator outside the match has the value
it had, and every mapped target output that of the source output it replaces. -/
theorem createNewGraph_sound (M : Meaning V) (x : Rule) (hx : x.Closed) (hsound : x.Sound M)
    {g g' g'' : Graph} (hg : g.Slotted) (hacyclic : g.Acyclic) {m m' : Model} (hm : m.Sound)
    (hissued : ∀ op, g.Mentions op → op.guid < m.global_unique_id) {s : Matching}
    (hs : MatchOf x.srcOps g s)
    (hfits : ∀ (k : Nat) opx, x.srcOps[k]? = some opx → opx.Fits (s.mapOp k))
    {dstMap₀ dstMap : Nat → Op}
    (hcreate : createTargets s x.dstOps.zipIdx dstMap₀ m = .ok (true, dstMap, m'))
    (hnew : createNewGraph x s dstMap g = .ok g') (hloop : g'.hasLoop = .ok (false, g'')) :
    (∃! val, M.Values g val) ∧ (∃! val', M.Values g' val') ∧
      ∀ val val', M.Values g val → M.Values g' val' →
        (∀ op, g.Mentions op → op ∉ s.mappedOps.keys → val' op = val op) ∧
        ∀ k idx d, k < x.srcOps.length → x.mappedOutput k idx = some d →
          val' (dstMap d.1) d.2 = val (s.mapOp k) idx := by
  obtain ⟨-, -, htargets⟩ := createTargets_ok hm hcreate
  obtain ⟨-, -, hbodies⟩ := htargets rfl
  have htargets : x.Targets dstMap m.global_unique_id := by
    intro k opx hk
    obtain ⟨p, hp, heq⟩ := hbodies k opx hk
    exact ⟨p, hp, by rw [← heq, Nat.zero_add]⟩
  have hmakes : ∀ (k : Nat) opx, x.dstOps[k]? = some opx → opx.Makes (dstMap k) := by
    intro k opx hk
    obtain ⟨p, hp, heq⟩ := htargets k opx hk
    refine ⟨⟨p, by rw [heq], hp⟩, ?_⟩
    have htn := (createTargets_tn hcreate).2 k opx hk
    rwa [Nat.zero_add] at htn
  obtain ⟨es, hes, hadd⟩ := createNewGraph_edges hnew
  have hg' : g'.Slotted := slotted_new hg hes hadd htargets hissued hm.numbered hx hs
  obtain ⟨hacyclic', hclosed⟩ :=
    Graph.of_hasLoop_false hg'.toConsistent hg'.unique hg'.numbered hloop
  refine ⟨existsUnique_values M hacyclic, existsUnique_values M hacyclic', ?_⟩
  intro val val' hval hval'
  obtain ⟨dv, hdv⟩ := exists_patternValues M dstMap (s.external val) hx.dst
  have hagree : ∀ k idx d, k < x.srcOps.length → x.mappedOutput k idx = some d →
      dv d.1 d.2 = val (s.mapOp k) idx :=
    hsound s.mapOp dstMap hfits hmakes (s.external val) _ dv (matched_values hg hval hs) hdv
  have hall := values_agree hg hes hadd htargets hissued hx hs hval hval' hg' hacyclic' hclosed hdv
    hagree
  refine ⟨fun op => (hall op).1, fun k idx d hk hd => ?_⟩
  rw [(hall (dstMap d.1)).2 d.1 (hx.outputs k idx d hd) rfl]
  exact hagree k idx d hk hd

/-- Every operator adds up its inputs. -/
def sumMeaning : Meaning Int where
  apply := fun _ inputs _ => inputs.sum
  given := fun _ _ => 1

theorem swapAdd_sound : swapAdd.Sound sumMeaning := by
  intro src dst hsrc hdst ext sv dv hsv hdv k idx d hk hd
  obtain rfl : k = 0 := Nat.lt_one_iff.mp hk
  have hd : d = (0, 0) := by
    simp only [Rule.mappedOutput, swapAdd, Option.map_eq_some_iff, List.find?_singleton] at hd
    obtain ⟨entry, hentry, rfl⟩ := hd
    split at hentry
    · cases hentry
      rfl
    · cases hentry
  subst hd
  obtain ⟨p, hp, -⟩ := (hsrc 0 _ rfl).body
  obtain ⟨q, hq, -⟩ := (hdst 0 _ rfl).body
  rw [hsv 0 _ rfl, hdv 0 _ rfl]
  simp only [Meaning.value, hp, hq, sumMeaning, List.map_cons, List.map_nil, TensorX.value,
    List.sum_cons, List.sum_nil, add_zero]
  exact add_comm _ _

/-- In the graph of `(x + y) + x` the inner sum is replaced, and the outer one keeps its value. -/
theorem createNewGraph_swapAdd :
    ∃ (g g' : Graph) (s : Matching) (dstMap : Nat → Op),
      createNewGraph swapAdd s dstMap g = .ok g' ∧ ∀ val val', sumMeaning.Values g val →
        sumMeaning.Values g' val' →
        (∀ op, g.Mentions op → op ∉ s.mappedOps.keys → val' op = val op) ∧
        val' (dstMap 0) 0 = val (s.mapOp 0) 0 := by
  have hrun : (do
      let s ← (sumCalls.map Step.build).foldlM Session.step Session.start
      let m ← s.model s.current
      pyAssert (∀ op ∈ s.graph.inEdges.keys ++ s.graph.outEdges.keys, op.guid < m.global_unique_id)
      let loop ← s.graph.hasLoop
      pyAssert (loop.1 = false)
      let op ← pyUnwrap s.graph.inEdges.keys[2]?
      let fits ← canMatch Matching.start s.graph ⟨.OP_EW_ADD, [.ext 10, .ext 11], [], []⟩ op
      pyAssert (fits = true)
      let targets ← createTargets (stateOf s.graph swapAdd.srcOps [op]) swapAdd.dstOps.zipIdx
        (fun _ => Op.invalid) m
      pyAssert (targets.1 = true)
      let g' ← createNewGraph swapAdd (stateOf s.graph swapAdd.srcOps [op]) targets.2.1 s.graph
      let loop ← g'.hasLoop
      pyAssert (loop.1 = false)).toOption = some () := by
    decide +kernel
  simp only [toOption_eq_some, bind_ok_iff, pyAssert_eq_ok] at hrun
  obtain ⟨s, hs, m, hm, -, hissued, ⟨loop, _⟩, hloop, -, rfl, op, hop, fits, hfits, -, rfl,
    ⟨created, dstMap, m'⟩, hcreate, -, rfl, g', hnew, ⟨loop', g''⟩, hloop', rfl⟩ := hrun
  have hsound := Session.sound_of_reachable (Session.reachable_of_builds _ hs)
  have hg := hsound.inv.graph
  have hkey : op ∈ s.graph.inEdges.keys := by
    unfold pyUnwrap at hop
    split at hop
    · cases hop
    · next hget =>
      cases hop
      exact List.mem_of_getElem? hget
  have hmatch : PartialMatch s.graph swapAdd.srcOps [op] :=
    ((clean_start _ _).extends_iff hg swapAdd_wellFormed.src
      (represents_stateOf hg swapAdd_wellFormed).root rfl hkey).mp ⟨hfits, List.not_mem_nil⟩
  have hstate := matchOf_stateOf hg swapAdd_wellFormed.src hmatch rfl
  have hmapOp := (clean_stateOf hg swapAdd_wellFormed.src hmatch).mapOp
  refine ⟨s.graph, g', stateOf s.graph swapAdd.srcOps [op], dstMap, hnew, ?_⟩
  have hall := (createNewGraph_sound sumMeaning swapAdd swapAdd_wellFormed.closed swapAdd_sound
    hg.slotted (Graph.of_hasLoop_false hg.toConsistent hg.unique hg.numbered hloop).1
    (hsound.models m (List.mem_of_getElem? (Session.model_eq_ok.mp hm)))
    (fun op hop => hissued op (List.mem_append.mpr hop)) hstate
    (fun k opx hk => ?_) hcreate hnew hloop').2.2
  · intro val val' hval hval'
    obtain ⟨houtside, hmapped⟩ := hall val val' hval hval'
    exact ⟨houtside, hmapped 0 0 (0, 0) (by decide) rfl⟩
  · have hlt : k < 1 := (List.getElem?_eq_some_iff.mp hk).1
    obtain rfl : k = 0 := by omega
    rw [hmapOp]
    exact hmatch.fits 0 opx op hk rfl

end Peps
