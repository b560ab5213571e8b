import Peps.Dbocg.Match

/-!
# Sessions: graphs under builders, rewrites and `preprocess_weights`

A session has one graph at a time, the `Model` objects made so far and the tensors the builders
returned. Every `Graph()` makes a `Model` of its own, which numbers operators from 100 on: a
builder uses the one of the present graph, a rewrite the one its rules were loaded with, and
`create_new_graph` and `preprocess_weights` both return a graph with a new one.

As long as the `Model` that numbers new operators is ahead of every operator in sight (`Fresh`),
the graph stays well-formed (`inv_of_reachable`). After `preprocess_weights` it is not, and two
operators of one guid can meet in a graph.
-/

namespace Peps

open Lib

/-! ## Steps -/

/-- A call of a builder; tensors are named by their position among those returned so far. -/
inductive Call where
  | newInput (dims : List Int)
  | newWeight (dims : List Int) (data : Option Nat)
  | conv2d (input weight : Nat) (strideH strideW : Int) (padding : PaddingMode)
      (activation : ActiMode)
  | element (type : OpType) (t1 t2 : Nat)
  | matmul (input weight : Nat) (acti : ActiMode)
  | pool2dAvg (input : Nat) (kernelH kernelW strideH strideW : Int) (padding : PaddingMode)
      (activation : ActiMode) (data : Nat)
  | relu (input : Nat) (inPlace : Bool)
  | reshape (input : Nat) (shape : List Int)
  | transpose (input : Nat) (perm : List Int) (shuffle : Bool)

inductive Step where
  | build (call : Call)
  | rewrite (x : Rule) (s : Matching) (dstMap : Nat → Op) (model : Nat)
  | preprocess

structure Session where
  models : List Model
  current : Nat
  graph : Graph
  handles : List Handle

namespace Session

/-- A first `Graph()`. -/
def start : Session := ⟨[Model.new 0], 0, Graph.new, []⟩

def handle (s : Session) (i : Nat) : Except PyError Handle :=
  match s.handles[i]? with
  | none => .error .indexError
  | some h => .ok h

def model (s : Session) (j : Nat) : Except PyError Model :=
  match s.models[j]? with
  | none => .error .indexError
  | some m => .ok m

/-- The builder a call asks for. -/
def exec (s : Session) (m : Model) : Call → Except PyError (Handle × Model × Graph)
  | .newInput dims => s.graph.newInput m dims
  | .newWeight dims data => s.graph.newWeight m dims data
  | .conv2d input weight strideH strideW padding activation => do
      let input ← s.handle input
      let weight ← s.handle weight
      s.graph.conv2d m input weight strideH strideW padding activation
  | .element type t1 t2 => do
      let t1 ← s.handle t1
      let t2 ← s.handle t2
      s.graph.element m type t1 t2
  | .matmul input weight acti => do
      let input ← s.handle input
      let weight ← s.handle weight
      s.graph.matmul m input weight acti
  | .pool2dAvg input kernelH kernelW strideH strideW padding activation data => do
      let input ← s.handle input
      s.graph.pool2dAvg m input kernelH kernelW strideH strideW padding activation data
  | .relu input inPlace => do
      let input ← s.handle input
      s.graph.relu m input inPlace
  | .reshape input shape => do
      let input ← s.handle input
      s.graph.reshape m input shape
  | .transpose input perm shuffle => do
      let input ← s.handle input
      s.graph.transpose m input perm shuffle

/-- A graph made by `Graph()` comes with a new `Model`. -/
def withGraph (s : Session) (g : Graph) : Session :=
  { s with models := s.models ++ [Model.new s.models.length], current := s.models.length,
           graph := g }

def step (s : Session) : Step → Except PyError Session
  | .build call => do
      let m ← s.model s.current
      let (h, m, g) ← s.exec m call
      .ok { s with models := s.models.set s.current m, graph := g, handles := s.handles ++ [h] }
  | .rewrite x mt dstMap j => do
      let m ← s.model j
      let (created, dstMap, m) ← createTargets mt x.dstOps.zipIdx dstMap m
      let s := { s with models := s.models.set j m }
      if created = false then return s
      let mapped ← outputsMapped x mt s.graph
      if mapped = false then return s
      let g ← createNewGraph x mt dstMap s.graph
      return s.withGraph g
  | .preprocess => do
      let g ← s.graph.preprocessWeights
      return s.withGraph g

/-- The sources of input and weight operators. -/
def sources : List Op := [Op.invalid, ⟨GUID_INPUT, none⟩, ⟨GUID_WEIGHT, none⟩]

/-- The operators in sight. -/
def Knows (s : Session) (op : Op) : Prop :=
  op ∈ sources ∨ s.graph.Mentions op ∨ ∃ h ∈ s.handles, h.op = op

/-- Rewrites are made at consistent matches of rules as the constructors build them. -/
def Proper (s : Session) : Step → Prop
  | .rewrite x mt _ _ => x.WellFormed ∧ MatchOf x.srcOps s.graph mt
  | _ => True

/-- The `Model` that numbers the new operators of a step is ahead of the operators in sight. -/
def Fresh (s : Session) : Step → Prop
  | .build _ => ∀ m, s.models[s.current]? = some m → ∀ op, s.Knows op → op.guid < m.global_unique_id
  | .rewrite _ _ _ j => ∀ m, s.models[j]? = some m → ∀ op, s.Knows op → op.guid < m.global_unique_id
  | .preprocess => True

/-- The sessions that proper steps lead to, each meeting the condition. -/
inductive Reachable : Session → Prop where
  | start : Reachable start
  | step {s s' : Session} {st : Step} (hs : Reachable s) (hproper : s.Proper st)
      (hfresh : s.Fresh st) (h : s.step st = .ok s') : Reachable s'

/-! ## The invariant -/

/-- A graph over known operators, which their guids tell apart. -/
structure Inv (g : Graph) (known : Op → Prop) : Prop where
  graph : g.WellFormed
  mention : ∀ op, g.Mentions op → known op
  unique : UniqueGuids known
  sources : ∀ op ∈ sources, known op

/-- What a builder leaves: more known operators, the new tensor's among them, and a `Model` ahead
of all. -/
structure Grown (known : Op → Prop) (h : Handle) (m : Model) (g : Graph)
    (known' : Op → Prop) : Prop where
  inv : Inv g known'
  more : ∀ op, known op → known' op
  result : known' h.op ∧ h.op.ptr ≠ none
  sound : m.Sound
  ahead : ∀ op, known' op → op.guid < m.global_unique_id

theorem uniqueGuids_insert {known : Op → Prop} (hknown : UniqueGuids known) {op : Op}
    (hop : ∀ k, known k → k.guid < op.guid) : UniqueGuids fun k => known k ∨ k = op := by
  rintro a b (ha | rfl) (hb | rfl) heq
  · exact hknown a b ha hb heq
  · have := hop a ha
    omega
  · have := hop b hb
    omega
  · rfl

-- the edges a builder adds
def edgesTo (op : Op) (inputs : List Handle) : List Edge :=
  inputs.zipIdx.map fun input => ⟨input.1.op, op, input.1.tensor.idx, input.2⟩

theorem attach_eq (g : Graph) (op : Op) (inputs : List Handle) :
    g.attach op inputs = g.addEdges (edgesTo op inputs) := by
  unfold Graph.attach Graph.addEdges edgesTo
  rw [List.foldlM_map]

theorem mem_edgesTo {op : Op} {inputs : List Handle} {e : Edge} :
    e ∈ edgesTo op inputs ↔
      ∃ h i, inputs[i]? = some h ∧ e = ⟨h.op, op, h.tensor.idx, i⟩ := by
  unfold edgesTo
  simp only [List.mem_map, Prod.exists, List.mem_zipIdx_iff_getElem?]
  exact ⟨fun ⟨h, i, hi, heq⟩ => ⟨h, i, hi, heq.symm⟩, fun ⟨h, i, hi, heq⟩ => ⟨h, i, hi, heq.symm⟩⟩

/-- **A new operator with its edges.** -/
theorem build_grown {known : Op → Prop} {m m' m'' : Model} {g g' : Graph} {op : Op}
    {inputs : List Handle} {h : Handle} {P : OpBase → Prop} (hm : m.Sound) (hinv : Inv g known)
    (hahead : ∀ k, known k → k.guid < m.global_unique_id) (hissue : m.Issued P op m')
    (hbuild : g.build inputs op m' = .ok (h, m'', g'))
    (hP : ∀ p, P p → p.numInputs = inputs.length)
    (hlen : inputs.length = 1 ∨ inputs.length = 2)
    (hinputs : ∀ input ∈ inputs, known input.op ∧ (Op.computes op → input.op.ptr ≠ none)) :
    Grown known h m'' g' fun k => known k ∨ k = op := by
  obtain ⟨p, rfl, hp⟩ := hissue.op
  have hnext := hissue.next
  have hnum := hP p hp
  simp only [Graph.build, bind_ok_iff, attach_eq] at hbuild
  obtain ⟨g1, hadd, hret⟩ := hbuild
  cases hret
  have hedges := Graph.addEdges_added hadd
  have hnew : ∀ k, known k → k ≠ ⟨m.global_unique_id, some p⟩ := by
    rintro k hk rfl
    exact absurd (hahead _ hk) (Nat.lt_irrefl _)
  have huniq : UniqueGuids fun k => known k ∨ k = ⟨m.global_unique_id, some p⟩ :=
    uniqueGuids_insert hinv.unique hahead
  have hmention : ∀ k, g'.Mentions k → known k ∨ k = ⟨m.global_unique_id, some p⟩ := by
    rintro k (hk | hk)
    · rcases (hedges.inKeys k).mp hk with hk | ⟨e, he, rfl⟩
      · exact Or.inl (hinv.mention k (Or.inl hk))
      · obtain ⟨input, i, -, rfl⟩ := mem_edgesTo.mp he
        exact Or.inr rfl
    · rcases (hedges.outKeys k).mp hk with hk | ⟨e, he, rfl⟩
      · exact Or.inl (hinv.mention k (Or.inr hk))
      · obtain ⟨input, i, hi, rfl⟩ := mem_edgesTo.mp he
        exact Or.inl (hinputs input (List.mem_of_getElem? hi)).1
  refine ⟨⟨hinv.graph.extend hedges (fun e he hkey => ?_) (fun e he => ?_) (fun e he => ?_)
    (fun e he hc => ?_) fun a b ha hb => huniq a b (hmention a ha) (hmention b hb), hmention, huniq,
    fun k hk => Or.inl (hinv.sources k hk)⟩, fun k hk => Or.inl hk, ⟨Or.inr rfl, by simp [Handle.ofOp]⟩,
    hissue.sound, fun k hk => ?_⟩
  · obtain ⟨input, i, -, rfl⟩ := mem_edgesTo.mp he
    exact hnew _ (hinv.mention _ (Or.inl hkey)) rfl
  · -- slot `i` is filled by the `i`-th tensor
    obtain ⟨input, i, -, rfl⟩ := mem_edgesTo.mp he
    refine ⟨fun f hf => ?_, fun j hj => ?_, fun a b ha hb heq => ?_⟩
    · obtain ⟨input', j, hj, rfl⟩ := mem_edgesTo.mp hf.1
      show j < p.numInputs
      rw [hnum]
      exact (List.getElem?_eq_some_iff.mp hj).1
    · have hj' : j < inputs.length := hnum ▸ hj
      exact ⟨_, ⟨mem_edgesTo.mpr ⟨_, j, List.getElem?_eq_getElem hj', rfl⟩, rfl⟩, rfl⟩
    · obtain ⟨input1, j1, hj1, rfl⟩ := mem_edgesTo.mp ha.1
      obtain ⟨input2, j2, hj2, rfl⟩ := mem_edgesTo.mp hb.1
      cases (show j1 = j2 from heq)
      rw [hj1] at hj2
      cases hj2
      rfl
  · obtain ⟨input, i, -, rfl⟩ := mem_edgesTo.mp he
    refine ⟨by simp, ?_, ?_⟩
    · show p.numInputs = 1 ∨ p.numInputs = 2
      rw [hnum]
      exact hlen
    · exact hm.numbered
  · obtain ⟨input, i, hi, rfl⟩ := mem_edgesTo.mp he
    exact (hinputs input (List.mem_of_getElem? hi)).2 hc
  · rcases hk with hk | rfl
    · have := hahead k hk
      omega
    · show m.global_unique_id < _
      omega

/-! ## The builders -/

section Builders

variable {known : Op → Prop} {m m' : Model} {g g' : Graph} {h : Handle}

theorem sourceTensor_known {dims : List Int} {guid : Nat} {data : Option Nat} {source : Handle}
    (hinv : Inv g known) (hguid : (⟨guid, none⟩ : Op) ∈ sources)
    (h : Graph.sourceTensor dims guid data = .ok source) : known source.op := by
  unfold Graph.sourceTensor at h
  split at h
  · cases h
    exact hinv.sources _ (by simp [sources])
  · simp only [bind_ok_iff] at h
    obtain ⟨tensor, -, h⟩ := h
    cases h
    exact hinv.sources _ hguid

theorem newInput_grown {dims : List Int} (hm : m.Sound) (hinv : Inv g known)
    (hahead : ∀ k, known k → k.guid < m.global_unique_id)
    (hrun : g.newInput m dims = .ok (h, m', g')) : ∃ known', Grown known h m' g' known' := by
  simp only [Graph.newInput, bind_ok_iff] at hrun
  obtain ⟨-, -, source, hsource, hbuild⟩ := hrun
  refine ⟨_, build_grown hm hinv hahead (Model.createInput_issued hm rfl) hbuild
    (fun p hp => hp.1) (Or.inl rfl) fun input hinput => ?_⟩
  rw [List.mem_singleton.mp hinput]
  refine ⟨sourceTensor_known hinv (by simp [sources]) hsource, fun hc => ?_⟩
  -- an input operator computes nothing
  exact absurd rfl hc.1

theorem newWeight_grown {dims : List Int} {data : Option Nat} (hm : m.Sound) (hinv : Inv g known)
    (hahead : ∀ k, known k → k.guid < m.global_unique_id)
    (hrun : g.newWeight m dims data = .ok (h, m', g')) :
    ∃ known', Grown known h m' g' known' := by
  simp only [Graph.newWeight, bind_ok_iff] at hrun
  obtain ⟨-, -, source, hsource, ⟨op, m1⟩, hcreate, hbuild⟩ := hrun
  have hissue := Model.createWeight_issued hm hcreate
  refine ⟨_, build_grown hm hinv hahead hissue hbuild (fun p hp => hp.1) (Or.inl rfl)
    fun input hinput => ?_⟩
  rw [List.mem_singleton.mp hinput]
  refine ⟨sourceTensor_known hinv (by simp [sources]) hsource, fun hc => ?_⟩
  obtain ⟨p, rfl, -, htype⟩ := hissue.op
  exact absurd (congrArg some htype) hc.2

variable {a b : Handle} (ha : known a.op ∧ a.op.ptr ≠ none) (hb : known b.op ∧ b.op.ptr ≠ none)

include ha in
theorem unary_grown {op : Op} {m1 : Model} {P : OpBase → Prop} (hm : m.Sound) (hinv : Inv g known)
    (hahead : ∀ k, known k → k.guid < m.global_unique_id) (hissue : m.Issued P op m1)
    (hP : ∀ p, P p → p.numInputs = 1) (hbuild : g.build [a] op m1 = .ok (h, m', g')) :
    ∃ known', Grown known h m' g' known' := by
  refine ⟨_, build_grown hm hinv hahead hissue hbuild hP (Or.inl rfl) fun input hinput => ?_⟩
  rw [List.mem_singleton.mp hinput]
  exact ⟨ha.1, fun _ => ha.2⟩

include ha hb in
theorem binary_grown {op : Op} {m1 : Model} {P : OpBase → Prop} (hm : m.Sound) (hinv : Inv g known)
    (hahead : ∀ k, known k → k.guid < m.global_unique_id) (hissue : m.Issued P op m1)
    (hP : ∀ p, P p → p.numInputs = 2) (hbuild : g.build [a, b] op m1 = .ok (h, m', g')) :
    ∃ known', Grown known h m' g' known' := by
  refine ⟨_, build_grown hm hinv hahead hissue hbuild hP (Or.inr rfl) fun input hinput => ?_⟩
  rcases List.mem_cons.mp hinput with rfl | hinput
  · exact ⟨ha.1, fun _ => ha.2⟩
  · rw [List.mem_singleton.mp hinput]
    exact ⟨hb.1, fun _ => hb.2⟩

end Builders

variable {s s' : Session}

theorem handle_known {known : Op → Prop} {i : Nat} {h : Handle}
    (hhandles : ∀ h ∈ s.handles, known h.op ∧ h.op.ptr ≠ none) (hget : s.handle i = .ok h) :
    known h.op ∧ h.op.ptr ≠ none := by
  unfold handle at hget
  split at hget
  · cases hget
  · next hsome =>
    cases hget
    exact hhandles h (List.mem_of_getElem? hsome)

/-- **Every builder** leaves a well-formed graph. -/
theorem exec_grown {known : Op → Prop} {m m' : Model} {g' : Graph} {h : Handle} {call : Call}
    (hm : m.Sound) (hinv : Inv s.graph known)
    (hahead : ∀ k, known k → k.guid < m.global_unique_id)
    (hhandles : ∀ h ∈ s.handles, known h.op ∧ h.op.ptr ≠ none)
    (hrun : s.exec m call = .ok (h, m', g')) : ∃ known', Grown known h m' g' known' := by
  cases call with
  | newInput dims => exact newInput_grown hm hinv hahead hrun
  | newWeight dims data => exact newWeight_grown hm hinv hahead hrun
  | conv2d input weight strideH strideW padding activation =>
    simp only [exec, Graph.conv2d, bind_ok_iff, pyAssert_eq_ok] at hrun
    obtain ⟨a, ha, b, hb, ⟨op, m1⟩, hreq, -, hvalid, hbuild⟩ := hrun
    refine binary_grown (handle_known hhandles ha) (handle_known hhandles hb) hm hinv hahead
      ((Model.conv2d_issued hm hreq).resolve_left fun hop => hvalid hop.1) (fun p hp => hp.1) hbuild
  | element type t1 t2 =>
    simp only [exec, Graph.element, bind_ok_iff, pyAssert_eq_ok] at hrun
    obtain ⟨a, ha, b, hb, -, hbroad, ⟨op, m1⟩, hreq, hbuild⟩ := hrun
    refine binary_grown (handle_known hhandles ha) (handle_known hhandles hb) hm hinv hahead
      ((Model.element_issued hm hreq).resolve_left fun hop => ?_) (fun p hp => hp.1) hbuild
    -- the request is only refused for tensors that were refused before
    simp only [Model.getOrCreateElement, hbroad, Bool.true_eq_false, if_false, bind_ok_iff] at hreq
    obtain ⟨⟨p, table⟩, -, hret⟩ := hreq
    have hptr : op.ptr = some p := by
      cases Except.ok.inj hret
      rfl
    rw [hop.1] at hptr
    cases hptr
  | matmul input weight acti =>
    simp only [exec, Graph.matmul, bind_ok_iff, pyAssert_eq_ok] at hrun
    obtain ⟨a, ha, b, hb, ⟨op, m1⟩, hreq, -, hvalid, hbuild⟩ := hrun
    exact binary_grown (handle_known hhandles ha) (handle_known hhandles hb) hm hinv hahead
      ((Model.matmul_issued hm hreq).resolve_left fun hop => hvalid hop.1) (fun p hp => hp) hbuild
  | pool2dAvg input kernelH kernelW strideH strideW padding activation data =>
    -- two operators: the weight and the pooling
    simp only [exec, Graph.pool2dAvg, bind_ok_iff] at hrun
    obtain ⟨a, ha, ⟨weight, m1, g1⟩, hweight, ⟨op, m2⟩, hreq, hbuild⟩ := hrun
    obtain ⟨ha1, ha2⟩ := handle_known hhandles ha
    obtain ⟨known1, hgrown⟩ := newWeight_grown hm hinv hahead hweight
    obtain ⟨known2, hgrown2⟩ := binary_grown ⟨hgrown.more _ ha1, ha2⟩ hgrown.result hgrown.sound
      hgrown.inv hgrown.ahead (Model.pool2d_issued hgrown.sound hreq) (fun p hp => hp) hbuild
    exact ⟨known2, hgrown2.inv, fun op hop => hgrown2.more op (hgrown.more op hop), hgrown2.result,
      hgrown2.sound, hgrown2.ahead⟩
  | relu input inPlace =>
    simp only [exec, Graph.relu, bind_ok_iff, pyAssert_eq_ok] at hrun
    obtain ⟨a, ha, ⟨op, m1⟩, hreq, -, -, hbuild⟩ := hrun
    exact unary_grown (handle_known hhandles ha) hm hinv hahead
      (Model.activation_issued hm hreq) (fun p hp => hp) hbuild
  | reshape input shape =>
    simp only [exec, Graph.reshape, bind_ok_iff, pyAssert_eq_ok] at hrun
    obtain ⟨a, ha, myshape, -, size, -, -, -, ⟨op, m1⟩, hreq, hbuild⟩ := hrun
    exact unary_grown (handle_known hhandles ha) hm hinv hahead
      (Model.reshape_issued hm hreq) (fun p hp => hp) hbuild
  | transpose input perm shuffle =>
    simp only [exec, Graph.transpose, bind_ok_iff] at hrun
    obtain ⟨a, ha, ⟨op, m1⟩, hreq, hbuild⟩ := hrun
    exact unary_grown (handle_known hhandles ha) hm hinv hahead
      (Model.transpose_issued hm hreq) (fun p hp => hp) hbuild

/-! ## Every step keeps the invariant -/

/-- The invariant of a session. -/
structure Sound (s : Session) : Prop where
  models : ∀ m ∈ s.models, m.Sound
  inv : Inv s.graph s.Knows
  handles : ∀ h ∈ s.handles, h.op.ptr ≠ none

theorem knows_handle {h : Handle} (hh : h ∈ s.handles) : s.Knows h.op :=
  Or.inr (Or.inr ⟨h, hh, rfl⟩)

/-- What is known may be narrowed to what is in sight. -/
theorem Inv.narrow {known : Op → Prop} (h : Inv s.graph known)
    (hhandles : ∀ h ∈ s.handles, known h.op) : Inv s.graph s.Knows := by
  have hknown : ∀ op, s.Knows op → known op := by
    rintro op (hop | hop | ⟨k, hk, rfl⟩)
    · exact h.sources op hop
    · exact h.mention op hop
    · exact hhandles k hk
  exact ⟨h.graph, fun op hop => Or.inr (Or.inl hop),
    fun a b ha hb => h.unique a b (hknown a ha) (hknown b hb), fun op hop => Or.inl hop⟩

theorem model_eq_ok {j : Nat} {m : Model} : s.model j = .ok m ↔ s.models[j]? = some m := by
  unfold model
  cases s.models[j]? with
  | none => simp
  | some m' => simp

theorem sound_start : Sound start where
  models := fun m hm => by
    rw [List.mem_singleton.mp hm]
    exact Model.sound_new 0
  inv := by
    have hknown : ∀ op, start.Knows op → op ∈ sources := by
      rintro op (hop | hop | ⟨h, hh, -⟩)
      · exact hop
      · rcases hop with hop | hop <;> cases hop
      · cases hh
    refine ⟨Graph.wellFormed_new, fun op hop => Or.inr (Or.inl hop), fun a b ha hb => ?_,
      fun op hop => Or.inl hop⟩
    -- the three sources have different guids
    have hdistinct : ∀ a ∈ sources, ∀ b ∈ sources, a.guid = b.guid → a = b := by decide
    exact hdistinct a (hknown a ha) b (hknown b hb)
  handles := fun h hh => by cases hh

theorem Sound.withGraph {known : Op → Prop} {g : Graph} (hs : s.Sound) (h : Inv g known)
    (hhandles : ∀ h ∈ s.handles, known h.op) : (s.withGraph g).Sound where
  models := fun m hm => by
    rcases List.mem_append.mp hm with hm | hm
    · exact hs.models m hm
    · rw [List.mem_singleton.mp hm]
      exact Model.sound_new _
  inv := Inv.narrow h hhandles
  handles := hs.handles

theorem Sound.setModel (hs : s.Sound) {m : Model} (hm : m.Sound) (j : Nat) :
    Sound { s with models := s.models.set j m } where
  models := fun m' hm' => (List.mem_or_eq_of_mem_set hm').elim (hs.models m') fun heq => heq ▸ hm
  inv := hs.inv
  handles := hs.handles

/-- The present `Model` is ahead of every operator in sight. -/
def Ahead (s : Session) : Prop :=
  ∃ m, s.models[s.current]? = some m ∧ ∀ op, s.Knows op → op.guid < m.global_unique_id

theorem Ahead.fresh (h : s.Ahead) (call : Call) : s.Fresh (.build call) := by
  obtain ⟨m, hget, hahead⟩ := h
  intro m' hget'
  rw [hget] at hget'
  cases hget'
  exact hahead

theorem ahead_start : start.Ahead := by
  refine ⟨Model.new 0, rfl, ?_⟩
  rintro op (hop | hop | ⟨h, hh, -⟩)
  · revert op
    decide
  · rcases hop with hop | hop <;> cases hop
  · cases hh

theorem build_sound {call : Call} (hs : s.Sound) (hfresh : s.Fresh (.build call))
    (h : s.step (.build call) = .ok s') :
    s'.Sound ∧ s'.Ahead := by
  simp only [step, bind_ok_iff] at h
  obtain ⟨m, hm, ⟨handle, m', g'⟩, hexec, hret⟩ := h
  have hget := model_eq_ok.mp hm
  have hsound := hs.models m (List.mem_of_getElem? hget)
  obtain ⟨known', hgrown⟩ := exec_grown hsound hs.inv (hfresh m hget)
    (fun h hh => ⟨knows_handle hh, hs.handles h hh⟩) hexec
  cases hret
  have hhandles : ∀ h ∈ s.handles ++ [handle], known' h.op ∧ h.op.ptr ≠ none := by
    intro h hh
    rcases List.mem_append.mp hh with hh | hh
    · exact ⟨hgrown.more _ (knows_handle hh), hs.handles h hh⟩
    · rw [List.mem_singleton.mp hh]
      exact hgrown.result
  refine ⟨⟨(hs.setModel hgrown.sound s.current).models,
    Inv.narrow hgrown.inv fun h hh => (hhandles h hh).1, fun h hh => (hhandles h hh).2⟩, m', ?_, ?_⟩
  · have hlt := (List.getElem?_eq_some_iff.mp hget).1
    show (s.models.set s.current m')[s.current]? = some m'
    rw [List.getElem?_set_self hlt]
  · rintro op (hop | hop | ⟨h, hh, rfl⟩)
    · exact hgrown.ahead op (hgrown.inv.sources op hop)
    · exact hgrown.ahead op (hgrown.inv.mention op hop)
    · exact hgrown.ahead _ (hhandles h hh).1

theorem rewrite_sound {x : Rule} {mt : Matching} {dstMap : Nat → Op} {j : Nat} (hs : s.Sound)
    (hproper : s.Proper (.rewrite x mt dstMap j)) (hfresh : s.Fresh (.rewrite x mt dstMap j))
    (h : s.step (.rewrite x mt dstMap j) = .ok s') : s'.Sound := by
  obtain ⟨hx, hmatch⟩ := hproper
  simp only [step, bind_ok_iff] at h
  obtain ⟨m, hm, ⟨created, dstMap', m'⟩, htargets, h⟩ := h
  have hget := model_eq_ok.mp hm
  have hsound := hs.models m (List.mem_of_getElem? hget)
  have hahead := hfresh m hget
  obtain ⟨hsound', -, hcreated⟩ := createTargets_ok hsound htargets
  have hset := hs.setModel hsound' j
  split at h
  · cases h
    exact hset
  · next hok =>
    simp only [bind_ok_iff] at h
    obtain ⟨mapped, -, h⟩ := h
    split at h
    · cases h
      exact hset
    · simp only [bind_ok_iff] at h
      obtain ⟨g', hnew, h⟩ := h
      cases h
      obtain ⟨-, -, htargets⟩ := hcreated (by simpa using hok)
      have htargets : x.Targets dstMap' m.global_unique_id := fun k opx hk => by
        simpa using htargets k opx hk
      obtain ⟨hwell, hmention⟩ := createNewGraph_wellFormed hs.inv.graph htargets
        (fun op hop => hahead op (Or.inr (Or.inl hop))) hx hmatch hsound.numbered hnew
      -- known afterwards: what was in sight, and the target operators
      have hinv : Inv g' fun op => s.Knows op ∨ ∃ k < x.dstOps.length, op = dstMap' k := by
        refine ⟨hwell, fun op hop => ?_, htargets.unique hs.inv.unique hahead,
          fun op hop => Or.inl (Or.inl hop)⟩
        exact (hmention op hop).imp_left fun hop => Or.inr (Or.inl hop)
      exact hset.withGraph hinv fun h hh => Or.inl (knows_handle hh)

theorem preprocess_sound (hs : s.Sound) (h : s.step .preprocess = .ok s') : s'.Sound := by
  simp only [step, bind_ok_iff] at h
  obtain ⟨g', hpre, h⟩ := h
  cases h
  obtain ⟨g1, hrun, hwell, hmention⟩ := hs.inv.graph.preprocessWeights_ok
  rw [hrun] at hpre
  cases hpre
  exact hs.withGraph ⟨hwell, fun op hop => hs.inv.mention op (hmention op hop), hs.inv.unique,
    hs.inv.sources⟩ fun h hh => knows_handle hh

theorem step_sound {st : Step} (hs : s.Sound) (hproper : s.Proper st) (hfresh : s.Fresh st)
    (h : s.step st = .ok s') : s'.Sound := by
  cases st with
  | build call => exact (build_sound hs hfresh h).1
  | rewrite x mt dstMap j => exact rewrite_sound hs hproper hfresh h
  | preprocess => exact preprocess_sound hs h

theorem sound_of_reachable (h : Reachable s) : s.Sound := by
  induction h with
  | start => exact sound_start
  | step _ hproper hfresh h ih => exact step_sound ih hproper hfresh h

/-! ## Runs of builders -/

/-- Builders alone always meet the condition: the only `Model` numbers every operator. -/
theorem reachable_of_builds (calls : List Call)
    (hrun : (calls.map Step.build).foldlM step start = .ok s) : Reachable s := by
  -- along the run the present `Model` stays ahead
  refine (foldlM_keeps (P := fun s => Reachable s ∧ s.Sound ∧ s.Ahead)
    (fun st hst s s' hs hstep => ?_) ⟨.start, sound_start, ahead_start⟩ hrun).1
  obtain ⟨hreach, hsound, hahead⟩ := hs
  obtain ⟨call, -, rfl⟩ := List.mem_map.mp hst
  have hproper : s.Proper (.build call) := trivial
  exact ⟨hreach.step hproper (hahead.fresh call) hstep,
    build_sound hsound (hahead.fresh call) hstep⟩

/-! ## The graphs of a session -/

/-- **The graphs of a session.** The two maps hold the same edges; an operator with in-edges has
exactly one for each of its inputs; guids tell operators apart. So `get_input_edges` leaves no hole
and `preprocess_weights` goes through. -/
theorem graph_of_reachable (h : Reachable s) :
    ((∀ e, e ∈ s.graph.ins e.dstOp ↔ e ∈ s.graph.outs e.srcOp) ∧
      ∀ op e, (e ∈ s.graph.ins op → e.dstOp = op) ∧ (e ∈ s.graph.outs op → e.srcOp = op)) ∧
    (∀ op ∈ s.graph.inEdges.keys, ∃ p, op.ptr = some p ∧
      (∀ i < p.numInputs, ∃! e, e ∈ s.graph.ins op ∧ e.dstIdx = i) ∧
      ∀ e ∈ s.graph.ins op, e.dstIdx < p.numInputs) ∧
    (∀ a b, s.graph.Mentions a → s.graph.Mentions b → a.guid = b.guid → a = b) ∧
    (∀ op ∈ s.graph.inEdges.keys, ∃ cells, s.graph.getInputEdges op = .ok cells ∧
      ∀ i < cells.length, ∃ e ∈ s.graph.ins op, e.dstIdx = i ∧ cells[i]? = some (some e)) ∧
    ∃ g, s.graph.preprocessWeights = .ok g := by
  have hg := (sound_of_reachable h).inv.graph
  refine ⟨⟨hg.dual, fun op e => ⟨hg.inOwn op e, hg.outOwn op e⟩⟩, fun op hop => ?_, hg.unique,
    fun op hop => ?_, hg.preprocessWeights_ok.imp fun g h => h.1⟩
  · obtain ⟨p, hp⟩ := Option.ne_none_iff_exists'.mp (hg.body op hop)
    have hslots := hg.slots op hop
    have hnum : op.numInputs = p.numInputs := by rw [Op.numInputs, hp]; rfl
    refine ⟨p, hp, fun i hi => ?_, fun e he => hnum ▸ hslots.bound e he⟩
    obtain ⟨e, he, hslot⟩ := hslots.one i (hnum ▸ hi)
    exact ⟨e, ⟨he, hslot⟩, fun f hf => hslots.unique f e hf.1 he (hf.2.trans hslot.symm)⟩
  · obtain ⟨cells, hrun, hcells, -⟩ := hg.getInputEdges_ok hop
    exact ⟨cells, hrun, hcells⟩

/-- A convolution with its activation, after `preprocess_weights`. -/
theorem graph_of_conv_relu :
    ∃ s : Session, s.Reachable ∧ s.graph.inEdges.keys.length = 4 ∧
      (∀ a b, s.graph.Mentions a → s.graph.Mentions b → a.guid = b.guid → a = b) ∧
      ∃ g, s.graph.preprocessWeights = .ok g := by
  have hrun : ((([.newInput [1, 1, 4, 4], .newWeight [2, 1, 3, 3] (some 0),
      .conv2d 0 1 1 1 .PD_MODE_SAME .AC_MODE_NONE, .relu 2 false] : List Call).map
        Step.build).foldlM step start >>= fun s => s.step .preprocess).toOption.map
        (fun s => s.graph.inEdges.keys.length) = some 4 := by
    decide +kernel
  obtain ⟨s', hs', hlen⟩ := Option.map_eq_some_iff.mp hrun
  obtain ⟨s, hbuilds, hpre⟩ := bind_ok_iff.mp (toOption_eq_some.mp hs')
  have hproper : s.Proper .preprocess := trivial
  have hfresh : s.Fresh .preprocess := trivial
  have hreach := (reachable_of_builds _ hbuilds).step hproper hfresh hpre
  obtain ⟨-, -, hunique, -, hok⟩ := graph_of_reachable hreach
  exact ⟨s', hreach, hlen, hunique, hok⟩

/-- After `preprocess_weights` the counter is back at 100: the second activation gets the guid of
the weight that is still there. -/
theorem preprocess_then_relu :
    ∃ s, [.build (.newWeight [1, 4] (some 0)), .build (.newWeight [1, 4] (some 1)),
        .build (.newInput [1, 4]), .preprocess, .build (.relu 1 false),
        .build (.relu 3 false)].foldlM step start = .ok s ∧
      ∃ a b, s.graph.Mentions a ∧ s.graph.Mentions b ∧ a.guid = b.guid ∧ a ≠ b := by
  have hrun : ([.build (.newWeight [1, 4] (some 0)), .build (.newWeight [1, 4] (some 1)),
      .build (.newInput [1, 4]), .preprocess, .build (.relu 1 false),
      .build (.relu 3 false)].foldlM step start).toOption.any (fun s =>
        decide (∃ a ∈ s.graph.inEdges.keys, ∃ b ∈ s.graph.outEdges.keys,
          a.guid = b.guid ∧ a ≠ b)) = true := by
    decide +kernel
  obtain ⟨s, hs, htwins⟩ := (Option.any_eq_true _ _).mp hrun
  obtain ⟨a, ha, b, hb, hguid, hne⟩ := of_decide_eq_true htwins
  exact ⟨s, toOption_eq_some.mp hs, a, b, Or.inl ha, Or.inr hb, hguid, hne⟩

end Session

end Peps
