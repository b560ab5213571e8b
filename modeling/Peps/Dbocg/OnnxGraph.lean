import Peps.Dbocg.OperatorOrder

/-!
# The graphs `load_onnx` builds

`load_onnx` starts with an empty graph and calls builders: the handlers of its nodes ask for inputs
and weights, convolutions, sums, products, average poolings, `Relu`, reshapes and transpositions,
and nothing else (`Call.Onnx`). In a graph built that way every operator has a body that one of the
constructors made, hash-consed or not (`OnnxBody`), and reads first outputs of earlier operators
(`Laid`).
-/

namespace Peps

open Lib

/-! ## Bodies -/

/-- What the constructors make for the handlers. -/
inductive OnnxBody : OpBase → Prop where
  | input (addr : Nat × Nat) (t : Tensor) : OnnxBody (mkNoOp addr t .OP_INPUT)
  | weight (addr : Nat × Nat) (t : Tensor) (hdata : t.data_ptr ≠ none) :
      OnnxBody (mkNoOp addr t .OP_WEIGHT)
  | conv2d {addr : Nat × Nat} {input weight : Tensor} {strideH strideW : Int}
      {padding : PaddingMode} {activation : ActiMode} {p : OpBase}
      (h : mkConv2D addr input weight strideH strideW padding activation = .ok p) : OnnxBody p
  | add (addr : Nat × Nat) (t1 t2 : Tensor) : OnnxBody (mkElement addr .OP_EW_ADD t1 t2)
  | relu (addr : Nat × Nat) (t : Tensor) (inPlace : Bool) :
      OnnxBody (mkActivation addr t .OP_RELU inPlace)
  | avgpool {addr : Nat × Nat} {input weight : Tensor} {kernelH kernelW strideH strideW : Int}
      {padding : PaddingMode} {activation : ActiMode} {p : OpBase}
      (h : mkPool2D addr input weight .OP_POOL2D_AVG kernelH kernelW strideH strideW padding
        activation = .ok p) : OnnxBody p
  | matmul {addr : Nat × Nat} {input weight : Tensor} {activation : ActiMode} {p : OpBase}
      (h : mkMatmul addr input weight activation = .ok p) : OnnxBody p
  | reshape {addr : Nat × Nat} {t : Tensor} {shape : List Int} {p : OpBase}
      (h : mkReshape addr t shape = .ok p) : OnnxBody p
  | transpose {addr : Nat × Nat} {t : Tensor} {perm : List Int} {shuffle : Bool} {p : OpBase}
      (h : mkTranspose addr t perm shuffle = .ok p) : OnnxBody p

/-- What is the same for a constructor whatever its arguments. -/
structure OpBase.Shape (p : OpBase) (type : OpType) (numInputs : Nat) : Prop where
  type : p.type = type
  inputs : p.numInputs = numInputs
  output : ∃ t, p.outputs = [t] ∧ t.idx = 0

/-- A convolution that was built has a stride, and an input of four dimensions. -/
theorem mkConv2D_shape {addr : Nat × Nat} {input weight : Tensor} {strideH strideW : Int}
    {padding : PaddingMode} {activation : ActiMode} {p : OpBase}
    (h : mkConv2D addr input weight strideH strideW padding activation = .ok p) :
    p.Shape .OP_CONV2D 2 ∧ p.params = .conv2d strideH strideW padding activation ∧
      strideH ≠ 0 ∧ strideW ≠ 0 ∧ (p.inputAt 0).numDim = 4 := by
  simp only [mkConv2D, bind_ok_iff, pyAssert_eq_ok] at h
  obtain ⟨-, hfour, -, -, -, -, -, -, -, -, -, -, -, -, outH, hH, outW, hW, -, -, -, -, hp⟩ := h
  have hstride : ∀ {extent kernel stride out : Int},
      windowExtent padding extent kernel stride = .ok out → stride ≠ 0 := by
    intro extent kernel stride out hext
    cases padding with
    | PD_MODE_SAME => exact (pyFloorDiv_eq_ok.mp hext).1
    | PD_MODE_VALID =>
      simp only [windowExtent, bind_ok_iff] at hext
      obtain ⟨q, hq, -⟩ := hext
      exact (pyFloorDiv_eq_ok.mp hq).1
  cases hp
  exact ⟨⟨rfl, rfl, _, rfl, rfl⟩, rfl, hstride hH, hstride hW, hfour⟩

theorem mkPool2D_shape {addr : Nat × Nat} {input weight : Tensor} {type : OpType}
    {kernelH kernelW strideH strideW : Int} {padding : PaddingMode} {activation : ActiMode}
    {p : OpBase}
    (h : mkPool2D addr input weight type kernelH kernelW strideH strideW padding activation = .ok p) :
    p.Shape type 2 ∧ p.params = .pool2d kernelH kernelW strideH strideW padding activation := by
  simp only [mkPool2D, bind_ok_iff] at h
  obtain ⟨-, -, -, -, outH, -, outW, -, hp⟩ := h
  cases hp
  exact ⟨⟨rfl, rfl, _, rfl, rfl⟩, rfl⟩

theorem mkMatmul_shape {addr : Nat × Nat} {input weight : Tensor} {activation : ActiMode}
    {p : OpBase} (h : mkMatmul addr input weight activation = .ok p) : p.Shape .OP_MATMUL 2 := by
  simp only [mkMatmul, bind_ok_iff] at h
  obtain ⟨-, -, -, -, -, -, -, -, hp⟩ := h
  cases hp
  exact ⟨rfl, rfl, _, rfl, rfl⟩

theorem mkReshape_shape {addr : Nat × Nat} {t : Tensor} {shape : List Int} {p : OpBase}
    (h : mkReshape addr t shape = .ok p) : p.Shape .OP_RESHAPE 1 := by
  unfold mkReshape at h
  split at h
  · simp only [bind_ok_iff] at h
    obtain ⟨-, -, hp⟩ := h
    cases hp
    exact ⟨rfl, rfl, _, rfl, rfl⟩
  · cases h

theorem mkTranspose_shape {addr : Nat × Nat} {t : Tensor} {perm : List Int} {shuffle : Bool}
    {p : OpBase} (h : mkTranspose addr t perm shuffle = .ok p) : p.Shape .OP_TRANSPOSE 1 := by
  simp only [mkTranspose, bind_ok_iff] at h
  obtain ⟨-, -, permIdx, -, -, -, -, -, hp⟩ := h
  cases hp
  exact ⟨rfl, rfl, _, rfl, rfl⟩

theorem OnnxBody.output {p : OpBase} (h : OnnxBody p) : ∃ t, p.outputs = [t] ∧ t.idx = 0 := by
  cases h with
  | input addr t => exact ⟨_, rfl, rfl⟩
  | weight addr t hdata => exact ⟨_, rfl, rfl⟩
  | conv2d h => exact (mkConv2D_shape h).1.output
  | add addr t1 t2 => exact ⟨_, rfl, rfl⟩
  | relu addr t inPlace => exact ⟨_, rfl, rfl⟩
  | avgpool h => exact (mkPool2D_shape h).1.output
  | matmul h => exact (mkMatmul_shape h).output
  | reshape h => exact (mkReshape_shape h).output
  | transpose h => exact (mkTranspose_shape h).output

/-! ## Requests -/

/-- The tables hold bodies of the constructors. -/
structure Model.Stocked (m : Model) : Prop where
  conv2d : ∀ entry ∈ m.conv2d, OnnxBody entry.2
  element : ∀ entry ∈ m.element, OnnxBody entry.2
  reshape : ∀ entry ∈ m.reshape, OnnxBody entry.2
  activation : ∀ entry ∈ m.activation, OnnxBody entry.2
  pool2d : ∀ entry ∈ m.pool2d, OnnxBody entry.2
  matmul : ∀ entry ∈ m.matmul, OnnxBody entry.2

theorem Model.stocked_new (tag : Nat) : (Model.new tag).Stocked where
  conv2d := fun _ h => (by cases h)
  element := fun _ h => (by cases h)
  reshape := fun _ h => (by cases h)
  activation := fun _ h => (by cases h)
  pool2d := fun _ h => (by cases h)
  matmul := fun _ h => (by cases h)

namespace Model

/-- The operator of a request, with the next guid and a body of a constructor. -/
structure Supplies (m : Model) (op : Op) (m' : Model) : Prop where
  op : ∃ p, op = ⟨m.global_unique_id, some p⟩ ∧ OnnxBody p
  stocked : m'.Stocked

variable {m m' : Model} {op : Op}

-- `m1` is `m` with a table changed
theorem supplies_wrap {m1 : Model} {p : OpBase} (h : m1.wrap p = (op, m')) (hm : m1.Stocked)
    (hguid : m1.global_unique_id = m.global_unique_id) (hp : OnnxBody p) : m.Supplies op m' := by
  cases h
  exact ⟨⟨p, by rw [← hguid], hp⟩, hm.conv2d, hm.element, hm.reshape, hm.activation, hm.pool2d,
    hm.matmul⟩

theorem lookupOrBuild_onnx {table table' : OpTable} {key : Key} {build : Except PyError OpBase}
    {p : OpBase} (htable : ∀ entry ∈ table, OnnxBody entry.2)
    (hbuild : ∀ q, build = .ok q → OnnxBody q)
    (h : lookupOrBuild table key build = .ok (p, table')) :
    OnnxBody p ∧ ∀ entry ∈ table', OnnxBody entry.2 :=
  lookupOrBuild_sound (P := fun _ q => OnnxBody q) htable hbuild h

theorem createInput_supplies (hm : m.Stocked) {t : Tensor} (h : m.createInput t = (op, m')) :
    m.Supplies op m' :=
  supplies_wrap h hm rfl (.input _ _)

theorem createWeight_supplies (hm : m.Stocked) {t : Tensor}
    (h : m.createWeight t = .ok (op, m')) : m.Supplies op m' := by
  unfold createWeight at h
  split at h
  · cases h
  · next hdata =>
    rw [Except.ok.injEq] at h
    exact supplies_wrap h hm rfl (.weight _ _ hdata)

theorem conv2d_supplies (hm : m.Stocked) {input weight : Tensor} {strideH strideW : Int}
    {padding : PaddingMode} {activation : ActiMode} (hvalid : op ≠ Op.invalid)
    (h : m.getOrCreateConv2d input weight strideH strideW padding activation = .ok (op, m')) :
    m.Supplies op m' := by
  simp only [getOrCreateConv2d, bind_ok_iff] at h
  obtain ⟨r, -, h⟩ := h
  split at h
  · cases h
    exact absurd rfl hvalid
  · simp only [bind_ok_iff] at h
    obtain ⟨key, -, ⟨p, table⟩, hlook, hret⟩ := h
    obtain ⟨hp, htable⟩ := lookupOrBuild_onnx hm.conv2d (fun q hq => .conv2d hq) hlook
    exact supplies_wrap (Except.ok.inj hret) ⟨htable, hm.element, hm.reshape, hm.activation,
      hm.pool2d, hm.matmul⟩ rfl hp

theorem add_supplies (hm : m.Stocked) {t1 t2 : Tensor} (hbroad : broadcastable t1 t2 = true)
    (h : m.getOrCreateElement .OP_EW_ADD t1 t2 = .ok (op, m')) : m.Supplies op m' := by
  simp only [getOrCreateElement, hbroad, Bool.true_eq_false, if_false, bind_ok_iff] at h
  obtain ⟨⟨p, table⟩, hlook, hret⟩ := h
  obtain ⟨hp, htable⟩ := lookupOrBuild_onnx hm.element
    (fun q hq => by cases hq; exact .add _ _ _) hlook
  exact supplies_wrap (Except.ok.inj hret) ⟨hm.conv2d, htable, hm.reshape, hm.activation,
    hm.pool2d, hm.matmul⟩ rfl hp

theorem matmul_supplies (hm : m.Stocked) {input weight : Tensor} {acti : ActiMode}
    (hvalid : op ≠ Op.invalid) (h : m.getOrCreateMatmul input weight acti = .ok (op, m')) :
    m.Supplies op m' := by
  simp only [getOrCreateMatmul] at h
  split at h
  · cases h
    exact absurd rfl hvalid
  · simp only [bind_ok_iff] at h
    obtain ⟨key, -, ⟨p, table⟩, hlook, hret⟩ := h
    obtain ⟨hp, htable⟩ := lookupOrBuild_onnx hm.matmul (fun q hq => .matmul hq) hlook
    exact supplies_wrap (Except.ok.inj hret) ⟨hm.conv2d, hm.element, hm.reshape, hm.activation,
      hm.pool2d, htable⟩ rfl hp

theorem avgpool_supplies (hm : m.Stocked) {input weight : Tensor}
    {kernelH kernelW strideH strideW : Int} {padding : PaddingMode} {activation : ActiMode}
    (h : m.getOrCreatePool2d input weight .OP_POOL2D_AVG kernelH kernelW strideH strideW padding
      activation = .ok (op, m')) : m.Supplies op m' := by
  simp only [getOrCreatePool2d, bind_ok_iff] at h
  obtain ⟨⟨p, table⟩, hlook, hret⟩ := h
  obtain ⟨hp, htable⟩ := lookupOrBuild_onnx hm.pool2d (fun q hq => .avgpool hq) hlook
  exact supplies_wrap (Except.ok.inj hret) ⟨hm.conv2d, hm.element, hm.reshape, hm.activation,
    htable, hm.matmul⟩ rfl hp

theorem relu_supplies (hm : m.Stocked) {t : Tensor} {inPlace : Bool}
    (h : m.getOrCreateActivation t .OP_RELU inPlace = .ok (op, m')) : m.Supplies op m' := by
  simp only [getOrCreateActivation, bind_ok_iff] at h
  obtain ⟨⟨p, table⟩, hlook, hret⟩ := h
  obtain ⟨hp, htable⟩ := lookupOrBuild_onnx hm.activation
    (fun q hq => by cases hq; exact .relu _ _ _) hlook
  exact supplies_wrap (Except.ok.inj hret) ⟨hm.conv2d, hm.element, hm.reshape, htable, hm.pool2d,
    hm.matmul⟩ rfl hp

theorem reshape_supplies (hm : m.Stocked) {t : Tensor} {shape : List Int}
    (h : m.getOrCreateReshape t shape = .ok (op, m')) : m.Supplies op m' := by
  simp only [getOrCreateReshape, bind_ok_iff] at h
  obtain ⟨⟨p, table⟩, hlook, hret⟩ := h
  obtain ⟨hp, htable⟩ := lookupOrBuild_onnx hm.reshape (fun q hq => .reshape hq) hlook
  exact supplies_wrap (Except.ok.inj hret) ⟨hm.conv2d, hm.element, htable, hm.activation,
    hm.pool2d, hm.matmul⟩ rfl hp

theorem transpose_supplies (hm : m.Stocked) {t : Tensor} {perm : List Int} {shuffle : Bool}
    (h : m.getOrCreateTranspose t perm shuffle = .ok (op, m')) : m.Supplies op m' := by
  simp only [getOrCreateTranspose, bind_ok_iff] at h
  obtain ⟨-, -, p, hp, hret⟩ := h
  exact supplies_wrap (Except.ok.inj hret) hm rfl (.transpose hp)

end Model

/-! ## Graphs -/

/-- Every operator reads the first output of an earlier operator of the graph, or one of the
sources outside it. -/
structure Graph.Laid (g : Graph) : Prop where
  body : ∀ op ∈ g.inEdges.keys, ∃ p, op.ptr = some p ∧ OnnxBody p
  first : ∀ op, ∀ e ∈ g.ins op, e.srcIdx = 0
  earlier : ∀ op, ∀ e ∈ g.ins op, e.srcOp.guid < op.guid
  known : ∀ op, ∀ e ∈ g.ins op, e.srcOp ∈ g.inEdges.keys ∨ ¬ op.computes ∧ e.srcOp ∈ Session.sources

theorem Graph.laid_new : Graph.Laid Graph.new where
  body := fun op hop => (by cases hop)
  first := fun op e he => (by cases he)
  earlier := fun op e he => (by cases he)
  known := fun op e he => (by cases he)

/-- The calls of the handlers. -/
def Call.Onnx : Call → Prop
  | .element type _ _ => type = .OP_EW_ADD
  | _ => True

/-- A tensor that later operators may read. -/
def Handle.Of (h : Handle) (g : Graph) : Prop := h.op ∈ g.inEdges.keys ∧ h.tensor.idx = 0

namespace Session

variable {m m' m'' : Model} {g g' : Graph} {h : Handle} {op : Op}

/-- What a builder leaves. -/
structure Built (g : Graph) (h : Handle) (m : Model) (g' : Graph) : Prop where
  laid : g'.Laid
  result : h.Of g'
  stocked : m.Stocked
  more : ∀ op ∈ g.inEdges.keys, op ∈ g'.inEdges.keys

/-- **A new operator with its edges.** -/
theorem build_laid {inputs : List Handle} (hg : g.Laid) (hissue : m.Supplies op m')
    (hahead : ∀ k ∈ g.inEdges.keys, k.guid < m.global_unique_id)
    (hsources : ∀ k ∈ sources, k.guid < m.global_unique_id)
    (hne : inputs ≠ [])
    (hinputs : ∀ input ∈ inputs, input.tensor.idx = 0 ∧
      (input.op ∈ g.inEdges.keys ∨ ¬ op.computes ∧ input.op ∈ sources))
    (hbuild : g.build inputs op m' = .ok (h, m'', g')) : Built g h m'' g' := by
  obtain ⟨p, rfl, hp⟩ := hissue.op
  simp only [Graph.build, bind_ok_iff, attach_eq] at hbuild
  obtain ⟨g1, hadd, hret⟩ := hbuild
  cases hret
  have hedges := Graph.addEdges_added hadd
  have hmore : ∀ k ∈ g.inEdges.keys, k ∈ g'.inEdges.keys := fun k hk =>
    (hedges.inKeys k).mpr (Or.inl hk)
  have hnew : (⟨m.global_unique_id, some p⟩ : Op) ∈ g'.inEdges.keys := by
    obtain ⟨input, rest, rfl⟩ := List.exists_cons_of_ne_nil hne
    exact (hedges.inKeys _).mpr (Or.inr ⟨_, mem_edgesTo.mpr ⟨input, 0, rfl, rfl⟩, rfl⟩)
  -- an edge is an old one, or comes from one of the tensors
  have hcases : ∀ k, ∀ e ∈ g'.ins k, e ∈ g.ins k ∨ ∃ input ∈ inputs,
      k = ⟨m.global_unique_id, some p⟩ ∧ e.srcOp = input.op ∧ e.srcIdx = input.tensor.idx := by
    intro k e he
    rcases (hedges.ins k e).mp he with hold | ⟨hnew, rfl⟩
    · exact Or.inl hold
    · obtain ⟨input, i, hi, rfl⟩ := mem_edgesTo.mp hnew
      exact Or.inr ⟨input, List.mem_of_getElem? hi, rfl, rfl, rfl⟩
  refine ⟨⟨fun k hk => ?_, fun k e he => ?_, fun k e he => ?_, fun k e he => ?_⟩, ⟨hnew, ?_⟩,
    hissue.stocked, hmore⟩
  · rcases (hedges.inKeys k).mp hk with hk | ⟨e, he, rfl⟩
    · exact hg.body k hk
    · obtain ⟨input, i, -, rfl⟩ := mem_edgesTo.mp he
      exact ⟨p, rfl, hp⟩
  · rcases hcases k e he with he | ⟨input, hin, -, -, hidx⟩
    · exact hg.first k e he
    · exact hidx.trans (hinputs input hin).1
  · rcases hcases k e he with he | ⟨input, hin, rfl, hsrc, -⟩
    · exact hg.earlier k e he
    · rw [hsrc]
      rcases (hinputs input hin).2 with hkey | ⟨-, hsource⟩
      · exact hahead _ hkey
      · exact hsources _ hsource
  · rcases hcases k e he with he | ⟨input, hin, rfl, hsrc, -⟩
    · exact (hg.known k e he).imp_left (hmore _)
    · rw [hsrc]
      exact (hinputs input hin).2.imp_left (hmore _)
  · obtain ⟨t, ht, hidx⟩ := hp.output
    show (OpBase.output p).idx = 0
    rw [OpBase.output, ht]
    exact hidx

section Builders

variable (hg : g.Laid) (hm : m.Stocked) (hahead : ∀ k ∈ g.inEdges.keys, k.guid < m.global_unique_id)
  (hsources : ∀ k ∈ sources, k.guid < m.global_unique_id)

include hg hahead hsources in
theorem unary_laid {a : Handle} (ha : a.Of g) (hissue : m.Supplies op m')
    (hbuild : g.build [a] op m' = .ok (h, m'', g')) : Built g h m'' g' := by
  refine build_laid hg hissue hahead hsources (by simp) (fun input hinput => ?_) hbuild
  rw [List.mem_singleton.mp hinput]
  exact ⟨ha.2, Or.inl ha.1⟩

include hg hahead hsources in
theorem binary_laid {a b : Handle} (ha : a.Of g) (hb : b.Of g) (hissue : m.Supplies op m')
    (hbuild : g.build [a, b] op m' = .ok (h, m'', g')) : Built g h m'' g' := by
  refine build_laid hg hissue hahead hsources (by simp) (fun input hinput => ?_) hbuild
  rcases List.mem_cons.mp hinput with rfl | hinput
  · exact ⟨ha.2, Or.inl ha.1⟩
  · rw [List.mem_singleton.mp hinput]
    exact ⟨hb.2, Or.inl hb.1⟩

/-- The tensor of a source outside the graph. -/
theorem sourceTensor_of {dims : List Int} {guid : Nat} {data : Option Nat} {source : Handle}
    (hguid : (⟨guid, none⟩ : Op) ∈ sources)
    (h : Graph.sourceTensor dims guid data = .ok source) :
    source.tensor.idx = 0 ∧ source.op ∈ sources := by
  unfold Graph.sourceTensor at h
  split at h
  · cases h
    exact ⟨rfl, by simp [sources]⟩
  · simp only [bind_ok_iff] at h
    obtain ⟨tensor, htensor, h⟩ := h
    cases h
    refine ⟨?_, hguid⟩
    simp only [Tensor.ofDims] at htensor
    split at htensor
    · cases htensor
      rfl
    · cases htensor

include hg hm hahead hsources in
theorem newInput_laid {dims : List Int} (hrun : g.newInput m dims = .ok (h, m', g')) :
    Built g h m' g' := by
  simp only [Graph.newInput, bind_ok_iff] at hrun
  obtain ⟨-, -, source, hsource, hbuild⟩ := hrun
  obtain ⟨hidx, hknown⟩ := sourceTensor_of (by simp [sources]) hsource
  refine build_laid hg (Model.createInput_supplies hm rfl) hahead hsources (by simp)
    (fun input hinput => ?_) hbuild
  rw [List.mem_singleton.mp hinput]
  exact ⟨hidx, Or.inr ⟨fun hc => hc.1 rfl, hknown⟩⟩

include hg hm hahead hsources in
theorem newWeight_laid {dims : List Int} {data : Option Nat}
    (hrun : g.newWeight m dims data = .ok (h, m', g')) : Built g h m' g' := by
  simp only [Graph.newWeight, bind_ok_iff] at hrun
  obtain ⟨-, -, source, hsource, ⟨op, m1⟩, hcreate, hbuild⟩ := hrun
  obtain ⟨hidx, hknown⟩ := sourceTensor_of (by simp [sources]) hsource
  refine build_laid hg (Model.createWeight_supplies hm hcreate) hahead hsources (by simp)
    (fun input hinput => ?_) hbuild
  rw [List.mem_singleton.mp hinput]
  refine ⟨hidx, Or.inr ⟨fun hc => hc.2 ?_, hknown⟩⟩
  unfold Model.createWeight at hcreate
  split at hcreate
  · cases hcreate
  · cases hcreate
    rfl

end Builders

/-- The operator of a new weight is the only new one. -/
theorem newWeight_ahead {dims : List Int} {data : Option Nat} (hm : m.Sound)
    (hahead : ∀ k ∈ g.inEdges.keys, k.guid < m.global_unique_id)
    (hsources : ∀ k ∈ sources, k.guid < m.global_unique_id)
    (hrun : g.newWeight m dims data = .ok (h, m', g')) (k : Op)
    (hk : k ∈ g'.inEdges.keys ∨ k ∈ sources) : k.guid < m'.global_unique_id := by
  simp only [Graph.newWeight, bind_ok_iff] at hrun
  obtain ⟨-, -, source, -, ⟨op, m1⟩, hcreate, hbuild⟩ := hrun
  have hissue := Model.createWeight_issued hm hcreate
  have hnext := hissue.next
  obtain ⟨p, rfl, -⟩ := hissue.op
  simp only [Graph.build, bind_ok_iff, attach_eq] at hbuild
  obtain ⟨g1, hadd, hret⟩ := hbuild
  cases hret
  rcases hk with hk | hk
  · rcases ((Graph.addEdges_added hadd).inKeys k).mp hk with hk | ⟨e, he, rfl⟩
    · have := hahead k hk
      omega
    · obtain ⟨input, i, -, rfl⟩ := mem_edgesTo.mp he
      show m.global_unique_id < _
      omega
  · have := hsources k hk
    omega

variable {s s' : Session}

theorem handle_of {i : Nat} (hhandles : ∀ h ∈ s.handles, h.Of s.graph) (hget : s.handle i = .ok h) :
    h.Of s.graph := by
  unfold handle at hget
  split at hget
  · cases hget
  · next hsome =>
    cases hget
    exact hhandles h (List.mem_of_getElem? hsome)

/-- **Every builder** keeps the graph laid out. -/
theorem exec_laid {call : Call} (hcall : call.Onnx) (hg : s.graph.Laid) (hm : m.Stocked)
    (hsound : m.Sound) (hahead : ∀ k ∈ s.graph.inEdges.keys, k.guid < m.global_unique_id)
    (hsources : ∀ k ∈ sources, k.guid < m.global_unique_id)
    (hhandles : ∀ h ∈ s.handles, h.Of s.graph) (hrun : s.exec m call = .ok (h, m', g')) :
    Built s.graph h m' g' := by
  cases call with
  | newInput dims => exact newInput_laid hg hm hahead hsources hrun
  | newWeight dims data => exact newWeight_laid hg hm hahead hsources hrun
  | conv2d input weight strideH strideW padding activation =>
    simp only [exec, Graph.conv2d, bind_ok_iff, pyAssert_eq_ok] at hrun
    obtain ⟨a, ha, b, hb, ⟨op, m1⟩, hreq, -, hvalid, hbuild⟩ := hrun
    exact binary_laid hg hahead hsources (handle_of hhandles ha) (handle_of hhandles hb)
      (Model.conv2d_supplies hm hvalid hreq) hbuild
  | element type t1 t2 =>
    simp only [exec, Graph.element, bind_ok_iff, pyAssert_eq_ok] at hrun
    obtain ⟨a, ha, b, hb, -, hbroad, ⟨op, m1⟩, hreq, hbuild⟩ := hrun
    obtain rfl : type = .OP_EW_ADD := hcall
    exact binary_laid hg hahead hsources (handle_of hhandles ha) (handle_of hhandles hb)
      (Model.add_supplies hm hbroad hreq) hbuild
  | matmul input weight acti =>
    simp only [exec, Graph.matmul, bind_ok_iff, pyAssert_eq_ok] at hrun
    obtain ⟨a, ha, b, hb, ⟨op, m1⟩, hreq, -, hvalid, hbuild⟩ := hrun
    exact binary_laid hg hahead hsources (handle_of hhandles ha) (handle_of hhandles hb)
      (Model.matmul_supplies hm hvalid hreq) hbuild
  | pool2dAvg input kernelH kernelW strideH strideW padding activation data =>
    -- two operators: the weight and the pooling
    simp only [exec, Graph.pool2dAvg, bind_ok_iff] at hrun
    obtain ⟨a, ha, ⟨weight, m1, g1⟩, hweight, ⟨op, m2⟩, hreq, hbuild⟩ := hrun
    obtain ⟨hkey, hidx⟩ := handle_of hhandles ha
    have hfirst := newWeight_laid hg hm hahead hsources hweight
    have hnext : ∀ k, (k ∈ g1.inEdges.keys ∨ k ∈ sources) → k.guid < m1.global_unique_id :=
      newWeight_ahead hsound hahead hsources hweight
    have hsecond := binary_laid hfirst.laid (fun k hk => hnext k (Or.inl hk))
      (fun k hk => hnext k (Or.inr hk)) ⟨hfirst.more _ hkey, hidx⟩ hfirst.result
      (Model.avgpool_supplies hfirst.stocked hreq) hbuild
    exact ⟨hsecond.laid, hsecond.result, hsecond.stocked,
      fun k hk => hsecond.more k (hfirst.more k hk)⟩
  | relu input inPlace =>
    simp only [exec, Graph.relu, bind_ok_iff, pyAssert_eq_ok] at hrun
    obtain ⟨a, ha, ⟨op, m1⟩, hreq, -, -, hbuild⟩ := hrun
    exact unary_laid hg hahead hsources (handle_of hhandles ha) (Model.relu_supplies hm hreq) hbuild
  | reshape input shape =>
    simp only [exec, Graph.reshape, bind_ok_iff, pyAssert_eq_ok] at hrun
    obtain ⟨a, ha, myshape, -, size, -, -, -, ⟨op, m1⟩, hreq, hbuild⟩ := hrun
    exact unary_laid hg hahead hsources (handle_of hhandles ha) (Model.reshape_supplies hm hreq)
      hbuild
  | transpose input perm shuffle =>
    simp only [exec, Graph.transpose, bind_ok_iff] at hrun
    obtain ⟨a, ha, ⟨op, m1⟩, hreq, hbuild⟩ := hrun
    exact unary_laid hg hahead hsources (handle_of hhandles ha) (Model.transpose_supplies hm hreq)
      hbuild

/-- The invariant of a session that only calls builders. -/
structure OnnxInv (s : Session) : Prop where
  sound : s.Sound
  ahead : s.Ahead
  laid : s.graph.Laid
  stocked : ∀ m, s.models[s.current]? = some m → m.Stocked
  handles : ∀ h ∈ s.handles, h.Of s.graph

theorem onnxInv_start : start.OnnxInv where
  sound := sound_start
  ahead := ahead_start
  laid := Graph.laid_new
  stocked := fun m hm => by
    cases hm
    exact Model.stocked_new 0
  handles := fun h hh => (by cases hh)

theorem step_onnxInv {call : Call} (hcall : call.Onnx) (hs : s.OnnxInv)
    (h : s.step (.build call) = .ok s') : s'.OnnxInv := by
  obtain ⟨hsound', hahead'⟩ := build_sound hs.sound (hs.ahead.fresh call) h
  simp only [step, bind_ok_iff] at h
  obtain ⟨m, hm, ⟨handle, m', g'⟩, hexec, hret⟩ := h
  have hget := model_eq_ok.mp hm
  have hfresh := hs.ahead.fresh call m hget
  have hbuilt := exec_laid hcall hs.laid (hs.stocked m hget)
    (hs.sound.models m (List.mem_of_getElem? hget))
    (fun k hk => hfresh k (Or.inr (Or.inl (Or.inl hk)))) (fun k hk => hfresh k (Or.inl hk))
    hs.handles hexec
  cases hret
  refine ⟨hsound', hahead', hbuilt.laid, fun m1 hm1 => ?_, fun h hh => ?_⟩
  · have hlt := (List.getElem?_eq_some_iff.mp hget).1
    have hset : (s.models.set s.current m')[s.current]? = some m1 := hm1
    rw [List.getElem?_set_self hlt] at hset
    cases hset
    exact hbuilt.stocked
  · rcases List.mem_append.mp hh with hh | hh
    · exact ⟨hbuilt.more _ (hs.handles h hh).1, (hs.handles h hh).2⟩
    · rw [List.mem_singleton.mp hh]
      exact hbuilt.result

/-- A run of the calls of `load_onnx`. -/
structure Loads (calls : List Call) (s : Session) : Prop where
  handlers : ∀ call ∈ calls, call.Onnx
  run : (calls.map Step.build).foldlM step start = .ok s

/-- **The graph of a run of builders** is laid out. -/
theorem Loads.inv {calls : List Call} (h : Loads calls s) : s.OnnxInv := by
  refine foldlM_keeps (fun st hst s s' hs hstep => ?_) onnxInv_start h.run
  obtain ⟨call, hcall, rfl⟩ := List.mem_map.mp hst
  exact step_onnxInv (h.handlers call hcall) hs hstep

end Session

/-! ## `get_operator_list` -/

namespace Graph

variable {g : Graph}

/-- Operators that compute something, each after those it reads. -/
structure Sorted (g : Graph) (ops : List Op) : Prop where
  nodup : ops.Nodup
  known : ∀ op ∈ ops, op ∈ g.inEdges.keys ∧ op.computes
  after : ∀ before op rest, ops = before ++ op :: rest →
    ∀ e ∈ g.ins op, e.srcOp.computes → e.srcOp ∈ before

theorem Sorted.of_append {ops more : List Op} (h : Sorted g (ops ++ more)) : Sorted g ops where
  nodup := (List.nodup_append.mp h.nodup).1
  known := fun op hop => h.known op (List.mem_append_left _ hop)
  after := fun before op rest heq => h.after before op (rest ++ more) (by rw [heq]; simp)

theorem Laid.acyclic (hl : g.Laid) : g.Acyclic := by
  refine Subrelation.wf (fun {u v} hfeeds => ?_) (measure Op.guid).wf
  obtain ⟨e, he, rfl⟩ := hfeeds
  exact hl.earlier v e he

/-- **`get_operator_list` succeeds** and lists the operators that compute something. -/
theorem Laid.getOperatorList_ok (hg : g.WellFormed) (hl : g.Laid) :
    ∃ ops g', g.getOperatorList = .ok (ops, g') ∧ Reads g g' ∧ Sorted g ops := by
  -- the sources outside the graph have preserved guids
  have hsources : ∀ v, ∀ e ∈ g.ins v, GUID_PRESERVED < e.srcOp.guid →
      e.srcOp ∈ g.inEdges.keys := by
    intro v e he hguid
    refine (hl.known v e he).resolve_right fun h => ?_
    have hpreserved : ∀ k ∈ Session.sources, k.guid ≤ GUID_PRESERVED := by decide
    exact absurd (hpreserved _ h.2) (Nat.not_le.mpr hguid)
  obtain ⟨ops, g', hreads, hok, -⟩ := getOperatorList_eq hg.toNumbered
  obtain ⟨hrun, horder⟩ := hok ⟨hl.acyclic.loopless, hsources⟩
  refine ⟨ops, g', hrun, hreads, horder.nodup, fun op hop => (horder.mem op).mp hop, ?_⟩
  intro before op rest heq e he hc
  have hop := (horder.mem op).mp (by rw [heq]; simp)
  have hkey : e.srcOp ∈ g.inEdges.keys := (hl.known op e he).resolve_right fun h => h.1 hop.2
  exact horder.after before op rest heq e he ((horder.mem _).mpr ⟨hkey, hc⟩)

end Graph

end Peps
