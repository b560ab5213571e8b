import Peps.Dbocg.Layouts
import Peps.Dbocg.RewriteSound

/-!
# What builders add, and the values of it

A builder adds one operator that reads the tensors it was given (`Graph.Adds`). In a graph that has
grown by some operators (`Graph.Grows`), values follow them when each has the value its body gives to
those of its inputs (`follows_iff`); and such values can be found whatever the operators before them
are worth (`exists_follows`), since the inputs of an operator have smaller guids.

`Building` is the state between two builders of `load_onnx`: the builders it uses keep it, and in it an
operator can always be entered (`Building.build`).
-/

namespace Peps

open Lib

namespace Graph

/-! ## Operators one after the other -/

/-- A new operator that reads `inputs`. -/
structure Adds (g : Graph) (op : Op) (inputs : List Handle) (g' : Graph) : Prop where
  new : op ∉ g.inEdges.keys
  older : ∀ t ∈ inputs, t.op.guid < op.guid
  reads : inputs ≠ []
  edges : g.EdgesAdded (Session.edgesTo op inputs) g'

/-- Operators with their inputs, added one after the other. -/
inductive Grows : Graph → List (Op × List Handle) → Graph → Prop where
  | nil (g : Graph) : Grows g [] g
  | cons {g g1 g' : Graph} {op : Op} {inputs : List Handle} {adds : List (Op × List Handle)}
      (first : g.Adds op inputs g1) (rest : Grows g1 adds g') : Grows g ((op, inputs) :: adds) g'

variable {g g1 g' : Graph} {op : Op} {inputs : List Handle} {adds adds' : List (Op × List Handle)}

theorem Adds.mem_keys (h : g.Adds op inputs g') (k : Op) :
    k ∈ g'.inEdges.keys ↔ k ∈ g.inEdges.keys ∨ k = op := by
  rw [h.edges.inKeys]
  refine or_congr_right ⟨?_, ?_⟩
  · rintro ⟨e, he, rfl⟩
    obtain ⟨t, i, -, rfl⟩ := Session.mem_edgesTo.mp he
    rfl
  · rintro rfl
    obtain ⟨t, rest, rfl⟩ := List.exists_cons_of_ne_nil h.reads
    exact ⟨_, Session.mem_edgesTo.mpr ⟨t, 0, rfl, rfl⟩, rfl⟩

/-- The operators before keep their in-edges. -/
theorem Adds.mem_ins_old (h : g.Adds op inputs g') {k : Op} (hk : k ∈ g.inEdges.keys) (e : Edge) :
    e ∈ g'.ins k ↔ e ∈ g.ins k := by
  rw [h.edges.ins]
  refine or_iff_left ?_
  rintro ⟨he, rfl⟩
  obtain ⟨t, i, -, rfl⟩ := Session.mem_edgesTo.mp he
  exact h.new hk

theorem Adds.mem_ins (h : g.Adds op inputs g') (e : Edge) :
    e ∈ g'.ins op ↔ e ∈ Session.edgesTo op inputs := by
  rw [h.edges.ins, show g.ins op = [] from OpMap.edges_of_not_mem h.new]
  refine ⟨?_, fun he => Or.inr ⟨he, ?_⟩⟩
  · rintro (he | he)
    · cases he
    · exact he.1
  · obtain ⟨t, i, -, rfl⟩ := Session.mem_edgesTo.mp he
    rfl

namespace Grows

theorem single (h : g.Adds op inputs g') : Grows g [(op, inputs)] g' := .cons h (.nil g')

theorem append (h : Grows g adds g1) (h' : Grows g1 adds' g') : Grows g (adds ++ adds') g' := by
  induction h with
  | nil => exact h'
  | cons first _ ih => exact .cons first (ih h')

theorem mem_keys (h : Grows g adds g') (k : Op) :
    k ∈ g'.inEdges.keys ↔ k ∈ g.inEdges.keys ∨ k ∈ adds.map Prod.fst := by
  induction h with
  | nil => simp
  | cons first _ ih =>
    rw [ih, first.mem_keys, List.map_cons, List.mem_cons, or_assoc]

theorem not_mem_keys (h : Grows g adds g') {x : Op × List Handle} (hx : x ∈ adds) :
    x.1 ∉ g.inEdges.keys := by
  induction h with
  | nil => cases hx
  | cons first _ ih =>
    rcases List.mem_cons.mp hx with rfl | hx
    · exact first.new
    · exact fun hk => ih hx ((first.mem_keys _).mpr (Or.inl hk))

theorem mem_ins_old (h : Grows g adds g') {k : Op} (hk : k ∈ g.inEdges.keys) (e : Edge) :
    e ∈ g'.ins k ↔ e ∈ g.ins k := by
  induction h with
  | nil => rfl
  | cons first _ ih =>
    rw [ih ((first.mem_keys k).mpr (Or.inl hk)), first.mem_ins_old hk]

/-- Every operator that was added still reads what it was given. -/
theorem mem_ins (h : Grows g adds g') {x : Op × List Handle} (hx : x ∈ adds) (e : Edge) :
    e ∈ g'.ins x.1 ↔ e ∈ Session.edgesTo x.1 x.2 := by
  induction h with
  | nil => cases hx
  | cons first rest ih =>
    rcases List.mem_cons.mp hx with rfl | hx
    · rw [rest.mem_ins_old ((first.mem_keys _).mpr (Or.inr rfl)), first.mem_ins]
    · exact ih hx

theorem older (h : Grows g adds g') {x : Op × List Handle} (hx : x ∈ adds) :
    ∀ t ∈ x.2, t.op.guid < x.1.guid := by
  induction h with
  | nil => cases hx
  | cons first _ ih =>
    rcases List.mem_cons.mp hx with rfl | hx
    · exact first.older
    · exact ih hx

end Grows

end Graph

/-! ## Values -/

namespace Meaning

variable {V : Type} [Inhabited V] (M : Meaning V) {g g' : Graph} {op : Op} {inputs : List Handle}
  {adds : List (Op × List Handle)}

/-- `val` gives the outputs of the operators that `g'` has and `g` has not. -/
def Follows (g g' : Graph) (val : Op → Nat → V) : Prop :=
  ∀ op ∈ g'.inEdges.keys, op ∉ g.inEdges.keys → val op = M.equation g' val op

/-- What the tensors are worth. -/
def worth (val : Op → Nat → V) (inputs : List Handle) : List V :=
  inputs.map fun t => val t.op t.tensor.idx

theorem equation_of_ins (hins : ∀ e, e ∈ g.ins op ↔ e ∈ Session.edgesTo op inputs)
    (hnum : op.numInputs = inputs.length) (val : Op → Nat → V) :
    M.equation g val op = M.value op (worth val inputs) := by
  have hunique : ∀ e f, e ∈ g.ins op → f ∈ g.ins op → e.dstIdx = f.dstIdx → e = f := by
    intro e f he hf hslot
    obtain ⟨t, i, hi, rfl⟩ := Session.mem_edgesTo.mp ((hins e).mp he)
    obtain ⟨u, j, hj, rfl⟩ := Session.mem_edgesTo.mp ((hins f).mp hf)
    cases (show i = j from hslot)
    rw [hi] at hj
    cases hj
    rfl
  refine congrArg (M.value op) (List.ext_getElem? fun i => ?_)
  rw [worth, List.getElem?_map, List.getElem?_map]
  rcases Nat.lt_or_ge i inputs.length with hi | hi
  · have hedge := (hins _).mpr (Session.mem_edgesTo.mpr ⟨_, i, List.getElem?_eq_getElem hi, rfl⟩)
    rw [List.getElem?_range (hnum ▸ hi), List.getElem?_eq_getElem hi]
    exact congrArg some (inputValue_of_mem val hunique hedge)
  · rw [List.getElem?_eq_none (by rw [List.length_range, hnum]; exact hi),
      List.getElem?_eq_none hi]
    rfl

/-- **Values follow** the operators that were added if each has what its body makes of its inputs. -/
theorem follows_iff (hg : g.Grows adds g') (hnum : ∀ x ∈ adds, x.1.numInputs = x.2.length)
    (val : Op → Nat → V) :
    M.Follows g g' val ↔ ∀ x ∈ adds, val x.1 = M.value x.1 (worth val x.2) := by
  constructor
  · intro h x hx
    have hkey := (hg.mem_keys x.1).mpr (Or.inr (List.mem_map_of_mem hx))
    rw [h x.1 hkey (hg.not_mem_keys hx), M.equation_of_ins (hg.mem_ins hx) (hnum x hx)]
  · intro h op hop hnew
    obtain ⟨x, hx, rfl⟩ := List.mem_map.mp (((hg.mem_keys op).mp hop).resolve_left hnew)
    rw [M.equation_of_ins (hg.mem_ins hx) (hnum x hx)]
    exact h x hx

/-- **Whatever the operators before are worth**, there are values that follow. -/
theorem exists_follows (hg : g.Grows adds g') (hnum : ∀ x ∈ adds, x.1.numInputs = x.2.length)
    (base : Op → Nat → V) :
    ∃ val, M.Follows g g' val ∧ ∀ op ∈ g.inEdges.keys, val op = base op := by
  classical
  let F : (Op → Nat → V) → Op → Nat → V := fun val op =>
    if op ∈ adds.map Prod.fst then M.equation g' val op else base op
  have hF : ∀ op, DependsOn (F · op) {u | u.guid < op.guid} := by
    intro op val val' hsame
    show F val op = F val' op
    unfold F
    by_cases hop : op ∈ adds.map Prod.fst
    · rw [if_pos hop, if_pos hop]
      obtain ⟨x, hx, rfl⟩ := List.mem_map.mp hop
      rw [M.equation_of_ins (hg.mem_ins hx) (hnum x hx),
        M.equation_of_ins (hg.mem_ins hx) (hnum x hx)]
      -- the inputs of an operator are older
      refine congrArg (M.value x.1) (List.map_congr_left fun t ht => ?_)
      exact congrFun (hsame t.op (hg.older hx t ht)) _
    · rw [if_neg hop, if_neg hop]
  obtain ⟨val, hval⟩ := exists_solves (InvImage.wf Op.guid Nat.lt_wfRel.wf) hF
  refine ⟨val, fun op hop hnew => ?_, fun op hop => ?_⟩
  · have hmem := ((hg.mem_keys op).mp hop).resolve_left hnew
    exact (hval op).trans (if_pos hmem)
  · refine (hval op).trans (if_neg fun hmem => ?_)
    obtain ⟨x, hx, rfl⟩ := List.mem_map.mp hmem
    exact hg.not_mem_keys hx hop

end Meaning

/-! ## Models whose element-wise operators are additions -/

/-- A request that `load_onnx` can make: element-wise it only adds. -/
def Request.OnlyAdds (r : Request) : Prop := r.kind = .element → r.lead = [.opType .OP_EW_ADD]

namespace Model

/-- The tables hold bodies of such requests alone. -/
def Adding (m : Model) : Prop := ∃ made, m.Traces made ∧ ∀ r ∈ made, r.OnlyAdds

variable {m m' : Model} {op : Op} {r : Request}

theorem adding_new (tag : Nat) : (Model.new tag).Adding :=
  ⟨[], traces_new tag, fun _ h => (by cases h)⟩

theorem Adding.of_tables (h : m.Adding) (htables : ∀ k, m'.table k = m.table k) : m'.Adding := by
  obtain ⟨made, htraces, hmade⟩ := h
  refine ⟨made, fun k => ?_, hmade⟩
  rw [htables k]
  exact htraces k

theorem Adding.request (h : m.Adding) (hr : r.OnlyAdds) (hreq : m.request r = .ok (op, m')) :
    m'.Adding := by
  obtain ⟨made, htraces, hmade⟩ := h
  refine ⟨made ++ [r], (request_traces htraces hreq).1, fun r' hr' => ?_⟩
  rcases List.mem_append.mp hr' with hr' | hr'
  · exact hmade r' hr'
  · rw [List.mem_singleton.mp hr']
    exact hr

theorem Adding.issue (h : m.Adding) {c : UnaryCall} (hreq : m.issue c = .ok (op, m')) :
    m'.Adding := by
  obtain ⟨p, hissued⟩ := issue_cases hreq
  exact h.of_tables hissued.binary

/-- The keys of such requests can be ordered. -/
theorem Adding.comparable (h : m.Adding) (hr : r.OnlyAdds) :
    ∀ entry ∈ m.table r.kind, keysComparable r.key entry.1 = true := by
  obtain ⟨made, htraces, hmade⟩ := h
  rintro ⟨k, p⟩ hmem
  obtain ⟨r', hr', hkey, hkind, -⟩ := htraces r.kind k p hmem
  rw [← hkey]
  refine Request.keysComparable_key hkind.symm fun helement => ?_
  rw [hr helement, hmade r' hr' (hkind.trans helement)]

end Model

/-! ## Between two builders -/

/-- The tensor of an operator of the graph. -/
structure Graph.Owns (g : Graph) (h : Handle) : Prop where
  key : h.op ∈ g.inEdges.keys
  own : h = Handle.ofOp h.op

/-- The graph is over known operators, and the `Model` is ahead of them. -/
structure Building (m : Model) (g : Graph) : Prop where
  inv : Session.Inv g fun op => op ∈ Session.sources ∨ g.Mentions op
  sound : m.Sound
  ahead : ∀ op, op ∈ Session.sources ∨ g.Mentions op → op.guid < m.global_unique_id
  adding : m.Adding

namespace Building

variable {m m1 m' : Model} {g g' : Graph} {op : Op} {inputs : List Handle} {h : Handle}
  {P : OpBase → Prop}

/-- What is known may be narrowed to what the graph mentions. -/
theorem of_inv {known : Op → Prop} (hinv : Session.Inv g known) (hm : m.Sound)
    (hahead : ∀ op, known op → op.guid < m.global_unique_id) (hadding : m.Adding) :
    Building m g := by
  have hknown : ∀ op, op ∈ Session.sources ∨ g.Mentions op → known op :=
    fun op hop => hop.elim (hinv.sources op) (hinv.mention op)
  exact ⟨⟨hinv.graph, fun op hop => Or.inr hop,
    fun a b ha hb => hinv.unique a b (hknown a ha) (hknown b hb), fun op hop => Or.inl hop⟩,
    hm, fun op hop => hahead op (hknown op hop), hadding⟩

/-- What `Graph.build` has done. -/
theorem build_eq (hbuild : g.build inputs op m1 = .ok (h, m', g')) :
    m' = m1 ∧ h = Handle.ofOp op ∧ g.EdgesAdded (Session.edgesTo op inputs) g' := by
  simp only [Graph.build, bind_ok_iff, Session.attach_eq] at hbuild
  obtain ⟨g1, hadd, hret⟩ := hbuild
  cases hret
  exact ⟨rfl, rfl, Graph.addEdges_added hadd⟩

/-- **A builder that returns** has added its operator to such a state. -/
theorem build_added (st : Building m g) (inputs : List Handle) (hissue : m.Issued P op m1)
    (hadding : m1.Adding) (hP : ∀ p, P p → p.numInputs = inputs.length)
    (hlen : inputs.length = 1 ∨ inputs.length = 2)
    (hinputs : ∀ t ∈ inputs, (t.op ∈ Session.sources ∨ g.Mentions t.op) ∧
      (Op.computes op → t.op.ptr ≠ none))
    (hbuild : g.build inputs op m1 = .ok (h, m', g')) :
    m' = m1 ∧ h = Handle.ofOp op ∧ Building m' g' ∧ g.Adds op inputs g' ∧
      op.numInputs = inputs.length := by
  obtain ⟨rfl, rfl, hedges⟩ := build_eq hbuild
  have hgrown := Session.build_grown st.sound st.inv st.ahead hissue hbuild hP hlen hinputs
  obtain ⟨p, rfl, hp⟩ := hissue.op
  refine ⟨rfl, rfl, of_inv hgrown.inv hgrown.sound hgrown.ahead hadding,
    ⟨fun hkey => ?_, fun t ht => st.ahead t.op (hinputs t ht).1, fun hnil => ?_, hedges⟩, hP p hp⟩
  · exact Nat.lt_irrefl _ (st.ahead _ (Or.inr (Or.inl hkey)))
  · rw [hnil] at hlen
    simp at hlen

/-- **An operator can be entered.** -/
theorem build_ok (st : Building m g) (hissue : m.Issued P op m1)
    (hinputs : ∀ t ∈ inputs, t.op ∈ Session.sources ∨ g.Mentions t.op) :
    ∃ h g', g.build inputs op m1 = .ok (h, m1, g') := by
  obtain ⟨p, rfl, -⟩ := hissue.op
  have hadd : ∃ g', g.addEdges (Session.edgesTo ⟨m.global_unique_id, some p⟩ inputs) = .ok g' :=
    Graph.addEdges_ok (@Session.uniqueGuids_insert _ st.inv.unique ⟨m.global_unique_id, some p⟩
      st.ahead) st.inv.graph.toConsistent (fun k hk => Or.inl (Or.inr hk))
      fun e he => by
        obtain ⟨t, i, hi, rfl⟩ := Session.mem_edgesTo.mp he
        exact ⟨Or.inl (hinputs t (List.mem_of_getElem? hi)), Or.inr rfl⟩
  obtain ⟨g', hg'⟩ := hadd
  refine ⟨Handle.ofOp ⟨m.global_unique_id, some p⟩, g', ?_⟩
  rw [Graph.build, Session.attach_eq, hg']
  rfl

theorem owns_known (st : Building m g) {t : Handle} (ht : g.Owns t) :
    (t.op ∈ Session.sources ∨ g.Mentions t.op) ∧ t.op.ptr ≠ none :=
  ⟨Or.inr (Or.inl ht.key), st.inv.graph.body t.op ht.key⟩

/-- **The end of a builder**: on tensors of the graph it returns the tensor of the new operator. -/
theorem build (st : Building m g) (inputs : List Handle) (hissue : m.Issued P op m1)
    (hadding : m1.Adding) (hP : ∀ p, P p → p.numInputs = inputs.length)
    (hlen : inputs.length = 1 ∨ inputs.length = 2) (hinputs : ∀ t ∈ inputs, g.Owns t) :
    ∃ g', g.build inputs op m1 = .ok (Handle.ofOp op, m1, g') ∧ Building m1 g' ∧
      g.Adds op inputs g' ∧ op.numInputs = inputs.length := by
  obtain ⟨h, g', hbuild⟩ := st.build_ok hissue fun t ht => (st.owns_known (hinputs t ht)).1
  obtain ⟨-, rfl, hst, hadds, hnum⟩ := st.build_added inputs hissue hadding hP hlen (fun t ht =>
    ⟨(st.owns_known (hinputs t ht)).1, fun _ => (st.owns_known (hinputs t ht)).2⟩) hbuild
  exact ⟨g', hbuild, hst, hadds, hnum⟩

end Building

theorem Graph.Adds.owns {g g' : Graph} {op : Op} {inputs : List Handle} (h : g.Adds op inputs g')
    {t : Handle} (ht : g.Owns t) : g'.Owns t :=
  ⟨(h.mem_keys t.op).mpr (Or.inl ht.key), ht.own⟩

theorem Graph.Adds.owns_new {g g' : Graph} {op : Op} {inputs : List Handle}
    (h : g.Adds op inputs g') : g'.Owns (Handle.ofOp op) :=
  ⟨(h.mem_keys op).mpr (Or.inr rfl), rfl⟩

/-! ## Sessions of such builders -/

/-- A call that `load_onnx` can make: element-wise it only adds. -/
def Call.OnlyAdds : Call → Prop
  | .element type _ _ => type = .OP_EW_ADD
  | _ => True

namespace Session

variable {s s' : Session} {m m' : Model} {g g' : Graph} {h : Handle}

/-- What a builder returns in these sessions. -/
structure Gives (g : Graph) (h : Handle) (m : Model) (g' : Graph) : Prop where
  adding : m.Adding
  owns : g'.Owns h
  keys : ∀ k ∈ g.inEdges.keys, k ∈ g'.inEdges.keys

theorem build_gives {op : Op} {t : Handle} {inputs : List Handle} (hm : m.Adding)
    (hbuild : g.build (t :: inputs) op m = .ok (h, m', g')) : Gives g h m' g' := by
  obtain ⟨rfl, rfl, hedges⟩ := Building.build_eq hbuild
  refine ⟨hm, ⟨(hedges.inKeys op).mpr (Or.inr ?_), rfl⟩,
    fun k hk => (hedges.inKeys k).mpr (Or.inl hk)⟩
  exact ⟨_, mem_edgesTo.mpr ⟨t, 0, rfl, rfl⟩, rfl⟩

theorem createWeight_adding {weight : Tensor} {op : Op} (hm : m.Adding)
    (h : m.createWeight weight = .ok (op, m')) : m'.Adding := by
  rw [Model.createWeight, guard_ok_iff] at h
  cases h.2
  exact hm.of_tables fun k => (by cases k <;> rfl)

theorem newWeight_gives {dims : List Int} {data : Option Nat} (hm : m.Adding)
    (hrun : g.newWeight m dims data = .ok (h, m', g')) : Gives g h m' g' := by
  simp only [Graph.newWeight, bind_ok_iff] at hrun
  obtain ⟨-, -, source, -, ⟨op, m1⟩, hcreate, hbuild⟩ := hrun
  exact build_gives (createWeight_adding hm hcreate) hbuild

theorem exec_gives {call : Call} (hm : m.Adding) (hcall : call.OnlyAdds)
    (hrun : s.exec m call = .ok (h, m', g')) : Gives s.graph h m' g' := by
  cases call with
  | newInput dims =>
    simp only [exec, Graph.newInput, bind_ok_iff] at hrun
    obtain ⟨-, -, source, -, hbuild⟩ := hrun
    have hadding : (m.createInput source.tensor).2.Adding :=
      hm.of_tables fun k => (by cases k <;> rfl)
    exact build_gives hadding hbuild
  | newWeight dims data => exact newWeight_gives hm hrun
  | conv2d input weight strideH strideW padding activation =>
    simp only [exec, Graph.conv2d, bind_ok_iff] at hrun
    obtain ⟨a, -, b, -, ⟨op, m1⟩, hreq, -, -, hbuild⟩ := hrun
    have hadding := hm.request
      (r := .conv2d a.tensor b.tensor strideH strideW padding activation) (fun h => by cases h) hreq
    exact build_gives hadding hbuild
  | element type t1 t2 =>
    simp only [exec, Graph.element, bind_ok_iff] at hrun
    obtain ⟨a, -, b, -, -, -, ⟨op, m1⟩, hreq, hbuild⟩ := hrun
    have htype : type = .OP_EW_ADD := hcall
    have hadding := hm.request (r := .element type a.tensor b.tensor)
      (fun _ => by rw [htype]; rfl) hreq
    exact build_gives hadding hbuild
  | matmul input weight acti =>
    simp only [exec, Graph.matmul, bind_ok_iff] at hrun
    obtain ⟨a, -, b, -, ⟨op, m1⟩, hreq, -, -, hbuild⟩ := hrun
    have hadding := hm.request (r := .matmul a.tensor b.tensor acti) (fun h => by cases h) hreq
    exact build_gives hadding hbuild
  | pool2dAvg input kernelH kernelW strideH strideW padding activation data =>
    simp only [exec, Graph.pool2dAvg, bind_ok_iff] at hrun
    obtain ⟨a, -, ⟨weight, m1, g1⟩, hweight, ⟨op, m2⟩, hreq, hbuild⟩ := hrun
    have hgives := newWeight_gives hm hweight
    have hadding := hgives.adding.issue (c := .pool2d a.tensor weight.tensor .OP_POOL2D_AVG kernelH
      kernelW strideH strideW padding activation) hreq
    have hend := build_gives hadding hbuild
    exact ⟨hend.adding, hend.owns, fun k hk => hend.keys k (hgives.keys k hk)⟩
  | relu input inPlace =>
    simp only [exec, Graph.relu, bind_ok_iff] at hrun
    obtain ⟨a, -, ⟨op, m1⟩, hreq, -, -, hbuild⟩ := hrun
    exact build_gives (hm.issue (c := .activation a.tensor .OP_RELU inPlace) hreq) hbuild
  | reshape input shape =>
    simp only [exec, Graph.reshape, bind_ok_iff] at hrun
    obtain ⟨a, -, myshape, -, size, -, -, -, ⟨op, m1⟩, hreq, hbuild⟩ := hrun
    exact build_gives (hm.issue (c := .reshape a.tensor _) hreq) hbuild
  | transpose input perm shuffle =>
    simp only [exec, Graph.transpose, bind_ok_iff] at hrun
    obtain ⟨a, -, ⟨op, m1⟩, hreq, hbuild⟩ := hrun
    exact build_gives (hm.issue (c := .transpose a.tensor perm shuffle) hreq) hbuild

/-- The invariant of these sessions. -/
structure Loading (s : Session) : Prop where
  sound : s.Sound
  ahead : s.Ahead
  models : ∀ m ∈ s.models, m.Adding
  handles : ∀ h ∈ s.handles, s.graph.Owns h

theorem loading_start : Loading start where
  sound := sound_start
  ahead := ahead_start
  models := fun m hm => by
    rw [List.mem_singleton.mp hm]
    exact Model.adding_new 0
  handles := fun h hh => by cases hh

theorem step_loading {call : Call} (hs : s.Loading) (hcall : call.OnlyAdds)
    (h : s.step (.build call) = .ok s') : s'.Loading := by
  obtain ⟨hsound, hahead⟩ := build_sound hs.sound (hs.ahead.fresh call) h
  simp only [step, bind_ok_iff, model_eq_ok] at h
  obtain ⟨m, hmodel, ⟨h, m', g'⟩, hexec, hret⟩ := h
  have hgives := exec_gives (hs.models m (List.mem_of_getElem? hmodel)) hcall hexec
  cases hret
  refine ⟨hsound, hahead, fun k hk => ?_, fun k hk => ?_⟩
  · rcases List.mem_or_eq_of_mem_set hk with hk | rfl
    · exact hs.models k hk
    · exact hgives.adding
  · rcases List.mem_append.mp hk with hk | hk
    · exact ⟨hgives.keys _ (hs.handles k hk).key, (hs.handles k hk).own⟩
    · rw [List.mem_singleton.mp hk]
      exact hgives.owns

/-- **Every history** of such calls. -/
theorem loading_of_builds {calls : List Call} (hcalls : ∀ call ∈ calls, call.OnlyAdds)
    (h : start.builds calls = .ok s) : s.Loading :=
  foldlM_keeps (fun call hcall _ _ hs hstep => step_loading hs (hcalls call hcall) hstep)
    loading_start h

theorem Loading.building (hs : s.Loading) (hm : s.models[s.current]? = some m) :
    Building m s.graph := by
  obtain ⟨m', hm', hahead⟩ := hs.ahead
  rw [hm] at hm'
  cases hm'
  have hmem := List.mem_of_getElem? hm
  exact Building.of_inv hs.sound.inv (hs.sound.models m hmem) hahead (hs.models m hmem)

end Session

end Peps
