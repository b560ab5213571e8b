import Peps.Dbocg.Nudf
import Peps.Dbocg.OnnxGraph

/-!
# One operator of an exported graph

What a round of `export` does with an operator of a graph that `load_onnx` built, in closed form.
Names of relations tell their operators apart, and those of operators differ from those of weight
tables (`outName_injective`, `outName_ne_weight`). Reading the in-edges fails for a weight under a
`Relu`, which has no name, and for an array without rows under a convolution or a transposition;
everything else goes through (`exportOp_ok`, `readable_of_exportOp`).
-/

namespace Peps

open Lib

/-! ## Names -/

/-- `get_operator_type`, "" for a type that is not in the table. -/
def Op.label (op : Op) : String := (op.type.bind opTable).getD ""

/-- The relation of an operator. -/
def Op.outName (op : Op) : String := op.label ++ toString op.guid ++ "_fwd0"

/-- The table for a weight that an operator reads in slot `i`. -/
def Op.weightName (op : Op) (i : Nat) : String :=
  op.label ++ toString op.guid ++ "_" ++ ((inputWeightNames op.label).getD []).getD i ""

/-- The relation an edge stands for. -/
def Edge.name (e : Edge) (op : Op) : String :=
  if e.srcOp.type = some .OP_INPUT then inputFeatureMap
  else if e.srcOp.type = some .OP_WEIGHT then op.weightName e.dstIdx
  else e.srcOp.outName

theorem opTable_letters (type : OpType) :
    (opTable type).all (fun name => name.toList.all fun c => !c.isDigit) = true := by
  cases type <;> decide

theorem label_letters (op : Op) : ∀ c ∈ op.label.toList, c.isDigit = false := by
  intro c hc
  unfold Op.label at hc
  cases htype : op.type with
  | none => simp [htype] at hc
  | some type =>
    have hall := opTable_letters type
    cases hname : opTable type with
    | none => simp [htype, hname] at hc
    | some name =>
      rw [hname, Option.all_some, List.all_eq_true] at hall
      rw [htype, Option.bind_some, hname] at hc
      simpa using hall c hc

theorem toString_injective {a b : Nat} (h : (toString a).toList = (toString b).toList) : a = b := by
  rw [Nat.toString_eq_repr, Nat.toString_eq_repr, Nat.toList_repr, Nat.toList_repr] at h
  rw [← Nat.ofDigitChars_toDigits (b := 10) (n := a) (by decide) (by decide), h,
    Nat.ofDigitChars_toDigits (by decide) (by decide)]

theorem toString_digits (n : Nat) : ∀ c ∈ (toString n).toList, c.isDigit = true := by
  intro c hc
  rw [Nat.toString_eq_repr, Nat.toList_repr] at hc
  exact Nat.isDigit_of_mem_toDigits (by decide) (by decide) hc

theorem filter_isDigit_label (op : Op) :
    (op.label.toList ++ (toString op.guid).toList).filter Char.isDigit =
      (toString op.guid).toList := by
  rw [List.filter_append, List.filter_eq_nil_iff.mpr fun c hc => by simp [label_letters op c hc],
    List.filter_eq_self.mpr (toString_digits op.guid), List.nil_append]

/-- The digits between the type and the ending are the guid. -/
theorem outName_injective {a b : Op} (h : a.outName = b.outName) : a.guid = b.guid := by
  have hlists := congrArg String.toList h
  simp only [Op.outName, String.toList_append] at hlists
  rw [List.append_cancel_right_eq] at hlists
  have hfilter := congrArg (List.filter Char.isDigit) hlists
  rw [filter_isDigit_label, filter_isDigit_label] at hfilter
  exact toString_injective hfilter

-- names are told apart by their last letter
def lastLetter (name : String) : Option Char := name.toList.getLast?

theorem lastLetter_append (front back : String) (h : back.toList ≠ []) :
    lastLetter (front ++ back) = lastLetter back := by
  unfold lastLetter
  rw [String.toList_append, List.getLast?_append_of_ne_nil _ h]

theorem lastLetter_outName (op : Op) : lastLetter op.outName = some '0' := by
  unfold Op.outName
  rw [lastLetter_append _ _ (by decide)]
  decide

theorem inputWeightNames_last {type name : String} {names : List String}
    (hnames : inputWeightNames type = some names) (hname : name ∈ names) :
    name.toList ≠ [] ∧ lastLetter name ≠ some '0' := by
  have hall : ∀ n ∈ names, n.toList ≠ [] ∧ lastLetter n ≠ some '0' := by
    unfold inputWeightNames at hnames
    split at hnames <;> cases hnames <;> decide
  exact hall name hname

/-- A name `_input_tensor_name` gives to a weight. -/
theorem lastLetter_inputTensorName {e : Edge} {op : Op} {r : String}
    (hweight : e.srcOp.type = some .OP_WEIGHT) (h : inputTensorName e op = .ok r) :
    lastLetter r ≠ some '0' := by
  have htype : getOperatorType e.srcOp = .ok "Weight" := by
    obtain ⟨p, hp, hptype⟩ := Option.map_eq_some_iff.mp hweight
    unfold getOperatorType Op.body
    rw [hp]
    show lookupOr _ (opTable p.type) = _
    rw [hptype]
    rfl
  unfold inputTensorName at h
  rw [htype] at h
  have h' : (do
      let mytype ← getOperatorType op
      let names ← lookupOr .keyError (inputWeightNames mytype)
      let name ← lookupOr .indexError names[e.dstIdx]?
      return mytype ++ toString op.guid ++ "_" ++ name) = Except.ok r := h
  simp only [bind_ok_iff] at h'
  obtain ⟨mytype, -, names, hnames, name, hname, hret⟩ := h'
  cases hret
  cases hlist : inputWeightNames mytype with
  | none => simp [hlist, lookupOr] at hnames
  | some list =>
    rw [hlist] at hnames
    cases hnames
    cases hget : names[e.dstIdx]? with
    | none => simp [hget, lookupOr] at hname
    | some n =>
      rw [hget] at hname
      cases hname
      obtain ⟨hne, hlast⟩ := inputWeightNames_last hlist (List.mem_of_getElem? hget)
      rwa [lastLetter_append _ _ hne]

/-! ## Operators -/

/-- What the operators that compute something have, by type. -/
inductive OpBase.Kind (p : OpBase) : Prop where
  | conv2d (h : p.Shape .OP_CONV2D 2) {strideH strideW : Int} {padding : PaddingMode}
      {activation : ActiMode} (hparams : p.params = .conv2d strideH strideW padding activation)
      (hH : strideH ≠ 0) (hW : strideW ≠ 0) (hfour : (p.inputAt 0).numDim = 4)
  | add (h : p.Shape .OP_EW_ADD 2)
  | relu (h : p.Shape .OP_RELU 1)
  | avgpool (h : p.Shape .OP_POOL2D_AVG 2) {kernelH kernelW strideH strideW : Int}
      {padding : PaddingMode} {activation : ActiMode}
      (hparams : p.params = .pool2d kernelH kernelW strideH strideW padding activation)
  | matmul (h : p.Shape .OP_MATMUL 2)
  | reshape (h : p.Shape .OP_RESHAPE 1)
  | transpose (h : p.Shape .OP_TRANSPOSE 1)

/-- A body of a constructor is an input, a weight with an array, or of one of the kinds. -/
theorem OnnxBody.cases_kind {p : OpBase} (h : OnnxBody p) :
    p.Shape .OP_INPUT 1 ∨ (p.Shape .OP_WEIGHT 1 ∧ (p.inputAt 0).data_ptr ≠ none) ∨ p.Kind := by
  cases h with
  | input addr t => exact Or.inl ⟨rfl, rfl, _, rfl, rfl⟩
  | weight addr t hdata => exact Or.inr (Or.inl ⟨⟨rfl, rfl, _, rfl, rfl⟩, hdata⟩)
  | conv2d h =>
    obtain ⟨hshape, hparams, hH, hW, hfour⟩ := mkConv2D_shape h
    exact Or.inr (Or.inr (.conv2d hshape hparams hH hW hfour))
  | add addr t1 t2 => exact Or.inr (Or.inr (.add ⟨rfl, rfl, _, rfl, rfl⟩))
  | relu addr t inPlace => exact Or.inr (Or.inr (.relu ⟨rfl, rfl, _, rfl, rfl⟩))
  | avgpool h => exact Or.inr (Or.inr (.avgpool (mkPool2D_shape h).1 (mkPool2D_shape h).2))
  | matmul h => exact Or.inr (Or.inr (.matmul (mkMatmul_shape h)))
  | reshape h => exact Or.inr (Or.inr (.reshape (mkReshape_shape h)))
  | transpose h => exact Or.inr (Or.inr (.transpose (mkTranspose_shape h)))

/-- An operator with a body of a constructor. -/
def Op.Onnx (op : Op) : Prop := ∃ p, op.ptr = some p ∧ OnnxBody p

theorem Op.type_of_ptr {op : Op} {p : OpBase} (hp : op.ptr = some p) : op.type = some p.type := by
  rw [Op.type, hp]
  rfl

theorem getOperatorType_of_type {op : Op} {type : OpType} {name : String}
    (htype : op.type = some type) (hname : opTable type = some name) :
    getOperatorType op = .ok name ∧ op.label = name := by
  obtain ⟨p, hp, rfl⟩ := Option.map_eq_some_iff.mp htype
  refine ⟨?_, ?_⟩
  · unfold getOperatorType Op.body
    rw [hp]
    show lookupOr _ (opTable p.type) = _
    rw [hname]
    rfl
  · rw [Op.label, htype, Option.bind_some, hname]
    rfl

namespace Op

variable {op : Op}

-- the cells `get_input_edges` returns
def slots (op : Op) : Nat :=
  if op.type = some .OP_POOL2D_MAX ∨ op.type = some .OP_POOL2D_AVG then 1 else op.numInputs

/-- The rows of a weight. -/
def rows (op : Op) : Int := op.ptr.elim 0 fun p => (p.inputAt 0).dimAt 0

/-- The number of dimensions of what an operator computes is 2. -/
def flat (op : Op) : Bool := decide ((op.ptr.elim 0 fun p => p.output.numDim) = 2)

/-- What `export` can read: a weight needs a name, and rows where it is stored. -/
def readable (op : Op) (e : Edge) : Bool :=
  decide (e.srcOp.type = some .OP_WEIGHT →
    op.type ≠ some .OP_RELU ∧
      (op.type = some .OP_CONV2D ∨ op.type = some .OP_TRANSPOSE → e.srcOp.rows ≠ 0))

namespace Onnx

theorem getOperatorType (h : op.Onnx) : getOperatorType op = .ok op.label := by
  obtain ⟨p, hp, hbody⟩ := h
  have htype := Op.type_of_ptr hp
  have hname : ∃ name, opTable p.type = some name := by
    rcases hbody.cases_kind with h | ⟨h, -⟩ | h
    · exact ⟨_, by rw [h.type]; rfl⟩
    · exact ⟨_, by rw [h.type]; rfl⟩
    · cases h with
      | conv2d h => exact ⟨_, by rw [h.type]; rfl⟩
      | add h => exact ⟨_, by rw [h.type]; rfl⟩
      | relu h => exact ⟨_, by rw [h.type]; rfl⟩
      | avgpool h => exact ⟨_, by rw [h.type]; rfl⟩
      | matmul h => exact ⟨_, by rw [h.type]; rfl⟩
      | reshape h => exact ⟨_, by rw [h.type]; rfl⟩
      | transpose h => exact ⟨_, by rw [h.type]; rfl⟩
  obtain ⟨name, hname⟩ := hname
  obtain ⟨hget, hlabel⟩ := getOperatorType_of_type htype hname
  rw [hget, hlabel]

theorem outputTensorName (h : op.Onnx) : outputTensorName op 0 = .ok op.outName := by
  unfold Peps.outputTensorName
  rw [h.getOperatorType]
  show Except.ok (op.label ++ toString op.guid ++ "_fwd" ++ toString 0) = _
  rw [String.append_assoc]
  rfl

end Onnx

end Op

/-- No other type is called "Input" or "Weight". -/
theorem opTable_source (type : OpType) :
    (opTable type = some "Input" → type = .OP_INPUT) ∧
      (opTable type = some "Weight" → type = .OP_WEIGHT) := by
  cases type <;> decide

theorem label_eq_input {op : Op} : op.label = "Input" ↔ op.type = some .OP_INPUT := by
  unfold Op.label
  cases op.type with
  | none => simp
  | some type =>
    rw [Option.bind_some, Option.some.injEq]
    refine ⟨fun h => ?_, fun h => by rw [h]; rfl⟩
    cases hname : opTable type with
    | none => simp [hname] at h
    | some name =>
      rw [hname, Option.getD_some] at h
      exact (opTable_source type).1 (by rw [hname, h])

theorem label_eq_weight {op : Op} : op.label = "Weight" ↔ op.type = some .OP_WEIGHT := by
  unfold Op.label
  cases op.type with
  | none => simp
  | some type =>
    rw [Option.bind_some, Option.some.injEq]
    refine ⟨fun h => ?_, fun h => by rw [h]; rfl⟩
    cases hname : opTable type with
    | none => simp [hname] at h
    | some name =>
      rw [hname, Option.getD_some] at h
      exact (opTable_source type).2 (by rw [hname, h])

/-! ## In-edges -/

namespace Graph

variable {g : Graph} {op : Op}

/-- The in-edge of slot `i`. -/
def edgeAt (g : Graph) (op : Op) (i : Nat) : Option Edge :=
  (g.ins op).find? fun e => decide (e.dstIdx = i)

/-- What an operator reads in slot `i`. -/
def source (g : Graph) (op : Op) (i : Nat) : Option Op := (g.edgeAt op i).map Edge.srcOp

structure Slot (g : Graph) (op : Op) (i : Nat) (e : Edge) : Prop where
  edge : g.edgeAt op i = some e
  mem : e ∈ g.ins op
  dst : e.dstIdx = i
  src : e.srcIdx = 0
  key : e.srcOp ∈ g.inEdges.keys
  onnx : e.srcOp.Onnx

theorem Slot.source {i : Nat} {e : Edge} (h : g.Slot op i e) : g.source op i = some e.srcOp := by
  rw [Graph.source, h.edge]
  rfl

theorem slot_ok (hg : g.WellFormed) (hl : g.Laid) (hop : op ∈ g.inEdges.keys) (hc : op.computes)
    {i : Nat} (hi : i < op.numInputs) : ∃ e, g.Slot op i e := by
  obtain ⟨f, hf, hfi⟩ := (hg.slots op hop).one i hi
  obtain ⟨e, he⟩ : ∃ e, g.edgeAt op i = some e :=
    Option.isSome_iff_exists.mp (List.find?_isSome.mpr ⟨f, hf, decide_eq_true hfi⟩)
  have hmem := List.mem_of_find?_eq_some he
  have hkey : e.srcOp ∈ g.inEdges.keys :=
    (hl.known op e hmem).resolve_right fun h => h.1 hc
  have hdst := List.find?_some (p := fun e : Edge => decide (e.dstIdx = i)) he
  exact ⟨e, he, hmem, of_decide_eq_true hdst, hl.first op e hmem, hkey, hl.body _ hkey⟩

/-- The edges `get_input_edges` returns. -/
def readEdges (g : Graph) (op : Op) : List Edge :=
  ((g.getInputEdges op).toOption.getD []).filterMap id

/-- `get_input_edges` returns the edges of the slots. -/
theorem getInputEdges_slots (hg : g.WellFormed) (hl : g.Laid) (hop : op ∈ g.inEdges.keys)
    (hc : op.computes) :
    g.getInputEdges op = .ok ((g.readEdges op).map some) ∧ (g.readEdges op).length = op.slots ∧
      ∀ i e, (g.readEdges op)[i]? = some e → g.Slot op i e := by
  obtain ⟨cells, hrun, hcells, hlen⟩ := hg.getInputEdges_ok hop
  have harity := hg.arity op hop
  have hslots : cells.length = op.slots := hlen
  have hle : op.slots ≤ op.numInputs := by
    unfold Op.slots
    split <;> omega
  have hedge : ∀ i < op.slots, ∃ e, cells[i]? = some (some e) ∧ g.Slot op i e := by
    intro i hi
    obtain ⟨e, hslot⟩ := slot_ok hg hl hop hc (lt_of_lt_of_le hi hle)
    obtain ⟨f, hf, hfi, hget⟩ := hcells i (by omega)
    rw [(hg.slots op hop).unique f e hf hslot.mem (hfi.trans hslot.dst.symm)] at hget
    exact ⟨e, hget, hslot⟩
  have hfull : ∀ cell ∈ cells, cell.isSome = true := by
    intro cell hcell
    obtain ⟨i, hi⟩ := List.mem_iff_getElem?.mp hcell
    obtain ⟨e, he, -⟩ := hedge i (hslots ▸ (List.getElem?_eq_some_iff.mp hi).1)
    rw [he] at hi
    cases hi
    rfl
  obtain ⟨es, rfl⟩ := exists_map_some hfull
  have hes : g.readEdges op = es := by
    rw [readEdges, hrun]
    simp [Except.toOption, List.filterMap_map]
  rw [hes]
  refine ⟨hrun, by rw [← hslots, List.length_map], fun i e he => ?_⟩
  obtain ⟨f, hf, hslot⟩ := hedge i (by
    rw [← hslots, List.length_map]
    exact (List.getElem?_eq_some_iff.mp he).1)
  rw [List.getElem?_map, he] at hf
  cases hf
  exact hslot

end Graph

/-- Types, their names, and how many in-edges `export` reads. -/
def kinds : List (OpType × String × Nat) :=
  [(.OP_CONV2D, "Conv", 2), (.OP_EW_ADD, "Add", 2), (.OP_RELU, "Relu", 1),
    (.OP_POOL2D_AVG, "AveragePool", 1), (.OP_MATMUL, "MatMul", 2), (.OP_RESHAPE, "Reshape", 1),
    (.OP_TRANSPOSE, "Transpose", 1)]

structure Op.IsKind (op : Op) (type : OpType) (name : String) (n : Nat) : Prop where
  mem : (type, name, n) ∈ kinds
  type : op.type = some type
  label : op.label = name
  slots : op.slots = n
  le : n ≤ op.numInputs

theorem OpBase.Kind.isKind {op : Op} {p : OpBase} (hp : op.ptr = some p) (hk : p.Kind) :
    ∃ type name n, op.IsKind type name n := by
  have hnum : op.numInputs = p.numInputs := by
    rw [Op.numInputs, hp]
    rfl
  have hof : ∀ {type name k n}, p.Shape type k → opTable type = some name →
      (if some type = some OpType.OP_POOL2D_MAX ∨ some type = some OpType.OP_POOL2D_AVG then 1
        else k) = n → n ≤ k → (type, name, n) ∈ kinds → op.IsKind type name n := by
    intro type name k n hshape hname hslots hle hmem
    have htype : op.type = some type := by rw [Op.type_of_ptr hp, hshape.type]
    exact ⟨hmem, htype, (getOperatorType_of_type htype hname).2,
      by rw [Op.slots, htype, hnum, hshape.inputs, hslots], by rw [hnum, hshape.inputs]; exact hle⟩
  cases hk with
  | conv2d h => exact ⟨_, _, _, hof h rfl rfl (by decide) (by decide)⟩
  | add h => exact ⟨_, _, _, hof h rfl rfl (by decide) (by decide)⟩
  | relu h => exact ⟨_, _, _, hof h rfl rfl (by decide) (by decide)⟩
  | avgpool h => exact ⟨_, _, _, hof h rfl rfl (by decide) (by decide)⟩
  | matmul h => exact ⟨_, _, _, hof h rfl rfl (by decide) (by decide)⟩
  | reshape h => exact ⟨_, _, _, hof h rfl rfl (by decide) (by decide)⟩
  | transpose h => exact ⟨_, _, _, hof h rfl rfl (by decide) (by decide)⟩

theorem Op.IsKind.computes {op : Op} {type : OpType} {name : String} {n : Nat}
    (h : op.IsKind type name n) : op.computes := by
  have hall : ∀ k ∈ kinds, k.1 ≠ .OP_INPUT ∧ k.1 ≠ .OP_WEIGHT := by decide
  rw [Op.computes, h.type]
  exact ⟨fun heq => (hall _ h.mem).1 (Option.some.inj heq),
    fun heq => (hall _ h.mem).2 (Option.some.inj heq)⟩

section Reading

variable {op : Op} {p : OpBase} {e : Edge}

/-- Only a `Relu` has no names for weights. -/
theorem weightName_ok (hp : op.ptr = some p) (hk : p.Kind) :
    (op.type = some .OP_RELU ∧ inputWeightNames op.label = none) ∨
      (op.type ≠ some .OP_RELU ∧ ∃ names, inputWeightNames op.label = some names ∧
        op.slots ≤ names.length) := by
  have hall : ∀ k ∈ kinds, (k.1 = .OP_RELU ∧ inputWeightNames k.2.1 = none) ∨
      (k.1 ≠ .OP_RELU ∧ (inputWeightNames k.2.1).any (fun names => k.2.2 ≤ names.length) = true) := by
    decide
  obtain ⟨type, name, n, hkind⟩ := hk.isKind hp
  rw [hkind.type, hkind.label, hkind.slots]
  refine (hall _ hkind.mem).imp (fun h => ⟨congrArg some h.1, h.2⟩) fun h => ⟨?_, ?_⟩
  · exact fun heq => h.1 (Option.some.inj heq)
  · obtain ⟨names, hnames, hle⟩ := (Option.any_eq_true _ _).mp h.2
    exact ⟨names, hnames, of_decide_eq_true hle⟩

theorem inputTensorName_ok (hp : op.ptr = some p) (hk : p.Kind) (hop : op.Onnx)
    (hsrc : e.srcOp.Onnx) (hidx : e.srcIdx = 0) (hi : e.dstIdx < op.slots)
    (hname : e.srcOp.type = some .OP_WEIGHT → op.type ≠ some .OP_RELU) :
    inputTensorName e op = .ok (e.name op) := by
  unfold inputTensorName Edge.name
  rw [hsrc.getOperatorType]
  show (if e.srcOp.label = "Input" then _ else if e.srcOp.label = "Weight" then _ else _) = _
  simp only [label_eq_input, label_eq_weight]
  split
  · rfl
  split
  · next hweight =>
    obtain ⟨names, hnames, hlen⟩ := ((weightName_ok hp hk).resolve_left fun h =>
      hname hweight h.1).2
    rw [hop.getOperatorType]
    show (lookupOr _ (inputWeightNames op.label) >>= _) = _
    rw [hnames]
    show (lookupOr _ names[e.dstIdx]? >>= _) = _
    rw [Op.weightName, hnames, Option.getD_some, List.getD_eq_getElem?_getD,
      List.getElem?_eq_getElem (lt_of_lt_of_le hi hlen)]
    rfl
  · rw [hidx]
    exact hsrc.outputTensorName

/-- The state after an in-edge was read. -/
def ExportState.afterRead (op : Op) (s : ExportState) (e : Edge) : ExportState :=
  { s with
    output_guids := dictPop s.output_guids (e.srcOp.guid, e.srcIdx)
    weights :=
      if e.srcOp.type = some .OP_WEIGHT ∧
          (op.type = some .OP_CONV2D ∨ op.type = some .OP_TRANSPOSE) then
        Function.update s.weights (e.name op)
          (e.srcOp.ptr.bind fun q => (q.inputAt 0).data_ptr)
      else s.weights }

/-- The types whose weights are stored, by name. -/
theorem stores_iff (hp : op.ptr = some p) (hk : p.Kind) :
    (op.label = "Conv" ∨ op.label = "Transpose") ↔
      (op.type = some .OP_CONV2D ∨ op.type = some .OP_TRANSPOSE) := by
  have hall : ∀ k ∈ kinds, (k.2.1 = "Conv" ∨ k.2.1 = "Transpose") ↔
      (some k.1 = some OpType.OP_CONV2D ∨ some k.1 = some OpType.OP_TRANSPOSE) := by decide
  obtain ⟨type, name, n, hkind⟩ := hk.isKind hp
  rw [hkind.label, hkind.type]
  exact hall _ hkind.mem

/-- The array of a weight. -/
theorem getWeightValue_ok {src : Op} (hsrc : src.Onnx) (hweight : src.type = some .OP_WEIGHT) :
    ∃ data, getWeightValue src = .ok data ∧
      (src.ptr.bind fun q => (q.inputAt 0).data_ptr) = some data ∧
      flattenRows src data = if src.rows = 0 then .error .valueError else .ok data := by
  obtain ⟨q, hq, hbody⟩ := hsrc
  have htype : q.type = .OP_WEIGHT := by
    rw [Op.type_of_ptr hq] at hweight
    exact Option.some.inj hweight
  have hshape : q.Shape .OP_WEIGHT 1 ∧ (q.inputAt 0).data_ptr ≠ none := by
    rcases hbody.cases_kind with h | h | h
    · exact absurd (h.type.symm.trans htype) (by decide)
    · exact h
    · obtain ⟨type, name, n, hkind⟩ := h.isKind hq
      exact absurd hweight hkind.computes.2
  obtain ⟨hshape, hdata⟩ := hshape
  obtain ⟨data, hdata⟩ := Option.ne_none_iff_exists'.mp hdata
  obtain ⟨t, ht, -⟩ := hshape.output
  have houts : q.numOutputs = 1 := by rw [OpBase.numOutputs, ht]; rfl
  refine ⟨data, ?_, by rw [hq, Option.bind_some, hdata], ?_⟩
  · unfold getWeightValue Op.body
    rw [hq]
    show (pyAssert (q.type = .OP_WEIGHT) >>= fun _ => pyAssert (q.numInputs = 1) >>= fun _ =>
      pyAssert (q.numOutputs = 1) >>= fun _ => pyUnwrap (q.inputAt 0).data_ptr) = _
    rw [pyAssert_of htype, pyAssert_of hshape.inputs, pyAssert_of houts, hdata]
    rfl
  · unfold flattenRows Op.body Op.rows
    rw [hq]
    rfl

theorem getInputDims_ok (hp : op.ptr = some p) {i : Nat} (hi : i < p.numInputs) :
    getInputDims op i = .ok (p.inputAt i).dims := by
  unfold getInputDims Op.body
  rw [hp]
  show (pyAssert (p.numInputs > i) >>= fun _ => _) = _
  rw [pyAssert_of hi]
  rfl

variable (hp : op.ptr = some p) (hk : p.Kind) (hop : op.Onnx) (hsrc : e.srcOp.Onnx)
  (hidx : e.srcIdx = 0) (hi : e.dstIdx < op.slots)

include hp hk hop hsrc hidx hi in
/-- **An in-edge that can be read.** -/
theorem readInput_ok (hread : op.readable e = true) (s : ExportState) (inputs : List String) :
    readInput op op.label (s, inputs) (some e) = .ok (s.afterRead op e, inputs ++ [e.name op]) := by
  have hread := of_decide_eq_true hread
  have hname := inputTensorName_ok hp hk hop hsrc hidx hi fun h => (hread h).1
  have hbound : e.dstIdx < p.numInputs := by
    obtain ⟨type, name, n, hkind⟩ := hk.isKind hp
    have hle := hkind.le
    rw [← hkind.slots, Op.numInputs, hp] at hle
    exact lt_of_lt_of_le hi hle
  unfold readInput ExportState.afterRead
  show (getOperatorType e.srcOp >>= fun _ => _) = _
  rw [hsrc.getOperatorType]
  show (inputTensorName e op >>= fun _ => _) = _
  rw [hname]
  show (if e.srcOp.label = "Weight" then _ else _) = _
  simp only [label_eq_weight]
  by_cases hweight : e.srcOp.type = some .OP_WEIGHT
  · obtain ⟨data, hdata, hval, hrows⟩ := getWeightValue_ok hsrc hweight
    rw [if_pos hweight, getInputDims_ok hp hbound]
    show (getWeightValue e.srcOp >>= fun _ => _) = _
    rw [hdata]
    show (if op.label = "Conv" ∨ op.label = "Transpose" then _ else _) = _
    simp only [stores_iff hp hk]
    by_cases hstore : op.type = some .OP_CONV2D ∨ op.type = some .OP_TRANSPOSE
    · rw [if_pos hstore, if_pos ⟨hweight, hstore⟩, hrows, if_neg ((hread hweight).2 hstore), hval]
      rfl
    · rw [if_neg hstore, if_neg fun h => hstore h.2]
      rfl
  · rw [if_neg hweight, if_neg fun h => hweight h.1]
    rfl

include hp hk hop hsrc in
/-- An in-edge that was read could be. -/
theorem readable_of_readInput {s : ExportState} {inputs : List String}
    {out : ExportState × List String} (h : readInput op op.label (s, inputs) (some e) = .ok out) :
    op.readable e = true := by
  refine decide_eq_true fun hweight => ?_
  unfold readInput at h
  simp only [bind_ok_iff] at h
  obtain ⟨_, hsome, intype, hintype, in_name, hname, h⟩ := h
  cases hsome
  rw [hsrc.getOperatorType] at hintype
  cases hintype
  have hrelu : op.type ≠ some .OP_RELU := by
    intro hrelu
    have hnone := ((weightName_ok hp hk).resolve_right fun h => h.1 hrelu).2
    unfold inputTensorName at hname
    rw [hsrc.getOperatorType] at hname
    have hname' : (if e.srcOp.label = "Input" then _ else if e.srcOp.label = "Weight" then _
      else _) = Except.ok in_name := hname
    simp only [label_eq_input, label_eq_weight, hweight] at hname'
    rw [if_neg (by decide), if_pos trivial] at hname'
    simp only [bind_ok_iff, hop.getOperatorType] at hname'
    obtain ⟨mytype, hmytype, names, hnames, -⟩ := hname'
    cases hmytype
    rw [hnone] at hnames
    cases hnames
  refine ⟨hrelu, fun hstore hzero => ?_⟩
  rw [if_pos (label_eq_weight.mpr hweight)] at h
  obtain ⟨data, hdata, -, hrows⟩ := getWeightValue_ok hsrc hweight
  simp only [bind_ok_iff, hdata, if_pos ((stores_iff hp hk).mpr hstore)] at h
  obtain ⟨-, -, _, hval, _, hflat, -⟩ := h
  cases hval
  rw [hrows, if_pos hzero] at hflat
  cases hflat

end Reading

/-! ## Commands -/

-- what a command takes of an attribute
def firstAttr (attr : Except PyError (List Int)) : Int := (attr.toOption.getD []).getD 0 0

/-- The padding before the first row or column, half of the padding of the axis. -/
def sidePad (padding : PaddingMode) (extent kernel stride : Int) : Int :=
  match padding with
  | .PD_MODE_VALID => 0
  | .PD_MODE_SAME => (padExtent extent kernel stride).toOption.getD 0 / 2

theorem padExtent_ok {stride : Int} (extent kernel : Int) (h : stride ≠ 0) :
    ∃ pad, padExtent extent kernel stride = .ok pad := by
  unfold padExtent pyMod
  rw [if_neg h]
  exact ⟨_, rfl⟩

section Attributes

variable {op : Op} {p : OpBase} (hp : op.ptr = some p)

section Conv2D

variable {strideH strideW : Int} {padding : PaddingMode} {activation : ActiMode}
  (hparams : p.params = .conv2d strideH strideW padding activation)

include hparams in
theorem intParameter_conv2d :
    intParameter p .PM_KERNEL_H = .ok ((p.inputAt 1).dimAt 2) ∧
      intParameter p .PM_STRIDE_H = .ok strideH ∧ intParameter p .PM_STRIDE_W = .ok strideW ∧
      p.getIntParameter .PM_PAD = .ok (some (.padding padding)) := by
  refine ⟨?_, ?_, ?_, by simp only [OpBase.getIntParameter, hparams]⟩
  all_goals
    simp only [intParameter, OpBase.getIntParameter, hparams]
    rfl

/-- The pads of `SAME`, from the padding of the two axes. -/
theorem pads_of_extents (hop : op.ptr = some p)
    (hsame : p.params = .conv2d strideH strideW .PD_MODE_SAME activation)
    (hinputs : 0 < p.numInputs) (hfour : (p.inputAt 0).numDim = 4) {padH padW : Int}
    (hH : padExtent ((p.inputAt 0).dims.getD 2 0) ((p.inputAt 1).dimAt 2) strideH = .ok padH)
    (hW : padExtent ((p.inputAt 0).dims.getD 3 0) ((p.inputAt 1).dimAt 2) strideW = .ok padW) :
    pads op = .ok [padH / 2, padW / 2, padH - padH / 2, padW - padW / 2] := by
  obtain ⟨hkernel, hstrideH, hstrideW, hpad⟩ := intParameter_conv2d hsame
  have hlen : (p.inputAt 0).dims.length = 4 := by
    rw [Tensor.dims, List.length_map, List.length_range, hfour]
  unfold pads Op.body
  rw [hop]
  show (p.getIntParameter .PM_PAD >>= fun _ => _) = _
  rw [hpad]
  show (getInputDims op 0 >>= fun _ => _) = _
  rw [getInputDims_ok hop hinputs]
  show (pyAssert ((p.inputAt 0).dims.length = 4) >>= fun _ => _) = _
  rw [pyAssert_of hlen, hkernel, hstrideH, hstrideW]
  show (padExtent _ _ _ >>= fun _ => padExtent _ _ _ >>= fun _ => _) = _
  rw [hH, hW]
  rfl

include hp hparams

theorem kernelShape_conv2d :
    kernelShape op = .ok [(p.inputAt 1).dimAt 2, (p.inputAt 1).dimAt 2] := by
  unfold kernelShape Op.body
  rw [hp]
  show (intParameter p .PM_KERNEL_H >>= fun _ => intParameter p .PM_KERNEL_H >>= fun _ => _) = _
  rw [(intParameter_conv2d hparams).1]
  rfl

theorem strides_conv2d : strides op = .ok [strideH, strideW] := by
  obtain ⟨-, hH, hW, -⟩ := intParameter_conv2d hparams
  unfold strides Op.body
  rw [hp]
  show (intParameter p .PM_STRIDE_H >>= fun _ => intParameter p .PM_STRIDE_W >>= fun _ => _) = _
  rw [hH, hW]
  rfl

theorem pads_conv2d (hH : strideH ≠ 0) (hW : strideW ≠ 0) (hinputs : p.numInputs = 2)
    (hfour : (p.inputAt 0).numDim = 4) :
    ∃ rest, pads op = .ok
      (sidePad padding ((p.inputAt 0).dims.getD 2 0) ((p.inputAt 1).dimAt 2) strideH :: rest) := by
  cases padding with
  | PD_MODE_VALID =>
    refine ⟨[0, 0, 0], ?_⟩
    unfold pads Op.body
    rw [hp]
    show (p.getIntParameter .PM_PAD >>= fun _ => _) = _
    rw [(intParameter_conv2d hparams).2.2.2]
    rfl
  | PD_MODE_SAME =>
    obtain ⟨padH, hpadH⟩ :=
      padExtent_ok ((p.inputAt 0).dims.getD 2 0) ((p.inputAt 1).dimAt 2) hH
    obtain ⟨padW, hpadW⟩ :=
      padExtent_ok ((p.inputAt 0).dims.getD 3 0) ((p.inputAt 1).dimAt 2) hW
    have hside : sidePad .PD_MODE_SAME ((p.inputAt 0).dims.getD 2 0) ((p.inputAt 1).dimAt 2)
        strideH = padH / 2 := by
      rw [sidePad, hpadH]
      rfl
    rw [hside]
    exact ⟨_, pads_of_extents hp hparams (by omega) hfour hpadH hpadW⟩

end Conv2D

include hp in
theorem kernelShape_pool2d {kernelH kernelW strideH strideW : Int} {padding : PaddingMode}
    {activation : ActiMode}
    (hparams : p.params = .pool2d kernelH kernelW strideH strideW padding activation) :
    kernelShape op = .ok [kernelH, kernelH] := by
  have hkernel : intParameter p .PM_KERNEL_H = .ok kernelH := by
    simp only [intParameter, OpBase.getIntParameter, hparams]
    rfl
  unfold kernelShape Op.body
  rw [hp]
  show (intParameter p .PM_KERNEL_H >>= fun _ => intParameter p .PM_KERNEL_H >>= fun _ => _) = _
  rw [hkernel]
  rfl

end Attributes

namespace Graph

/-- The sum with a reshaped tensor, which `export` takes for a bias. -/
def biasAdd (g : Graph) (op : Op) : Bool :=
  decide (op.type = some .OP_EW_ADD) &&
    (g.source op 1).any fun src => decide (src.type = some .OP_RESHAPE)

/-- The operators that are entered in `skip_nodes`. -/
def skips (g : Graph) (op : Op) : Bool :=
  decide (op.type = some .OP_TRANSPOSE) || g.biasAdd op

/-- The relation that slot `i` stands for. -/
def nameAt (g : Graph) (op : Op) (i : Nat) : String :=
  (g.edgeAt op i).elim "" fun e => e.name op

/-- The command of an operator. -/
def commandOf (g : Graph) (skip_nodes : String → Option String) (op : Op) : Option Command :=
  match op.type with
  | some .OP_CONV2D =>
      some (if g.nameAt op 0 = inputFeatureMap then .kfmInit (g.nameAt op 0) (g.nameAt op 1)
        else .kfm (g.nameAt op 0) (g.nameAt op 1) (firstAttr (kernelShape op)) (firstAttr (pads op))
          (firstAttr (strides op)))
  | some .OP_RELU => some (.relu (resolve skip_nodes (g.nameAt op 0)))
  | some .OP_EW_ADD =>
      if g.biasAdd op then none
      else some (.madd (resolve skip_nodes (g.nameAt op 0)) (resolve skip_nodes (g.nameAt op 1)))
  | some .OP_MATMUL => some (.mvm (g.nameAt op 0) (resolve skip_nodes (g.nameAt op 1)))
  | some .OP_POOL2D_AVG => some (.avgpool (g.nameAt op 0) (firstAttr (kernelShape op)))
  | some .OP_RESHAPE => if op.flat then some (.unnest (g.nameAt op 0)) else none
  | _ => none

-- `skip_nodes` after an operator
def skipAfter (g : Graph) (skip_nodes : String → Option String) (op : Op) :
    String → Option String :=
  if g.skips op then Function.update skip_nodes op.outName (some (g.nameAt op 0)) else skip_nodes

variable {g : Graph} {op : Op} {p : OpBase}

theorem Slot.nameAt {i : Nat} {e : Edge} (h : g.Slot op i e) : g.nameAt op i = e.name op := by
  rw [Graph.nameAt, h.edge]
  rfl

end Graph

theorem Edge.name_of_computes {e : Edge} (h : e.srcOp.computes) (op : Op) :
    e.name op = e.srcOp.outName := by
  unfold Edge.name
  rw [if_neg h.1, if_neg h.2]

theorem kinds_startswith (rest : String) :
    ∀ k ∈ kinds, pyStartswith (k.2.1 ++ rest) "Reshape" =
      decide (some k.1 = some OpType.OP_RESHAPE) := by
  intro k hk
  unfold pyStartswith
  rw [String.toList_append]
  simp only [kinds, List.mem_cons, List.not_mem_nil, or_false] at hk
  rcases hk with rfl | rfl | rfl | rfl | rfl | rfl | rfl <;> rfl

/-- Of the names a sum reads, those of reshapes start with "Reshape". -/
theorem pyStartswith_reshape {op : Op} {e : Edge} (hadd : op.label = "Add") (hsrc : e.srcOp.Onnx) :
    pyStartswith (e.name op) "Reshape" = decide (e.srcOp.type = some .OP_RESHAPE) := by
  obtain ⟨q, hq, hbody⟩ := hsrc
  rcases hbody.cases_kind with h | ⟨h, -⟩ | h
  · unfold Edge.name
    rw [Op.type_of_ptr hq, h.type, if_pos rfl]
    decide
  · unfold Edge.name Op.weightName
    rw [Op.type_of_ptr hq, h.type, if_neg (by decide), if_pos rfl, hadd, String.append_assoc,
      String.append_assoc]
    refine (kinds_startswith _ (.OP_EW_ADD, "Add", 2) (by decide)).trans ?_
    decide
  · obtain ⟨type, name, n, hkind⟩ := h.isKind hq
    rw [Edge.name_of_computes hkind.computes, Op.outName, hkind.label, hkind.type,
      String.append_assoc]
    exact kinds_startswith _ (type, name, n) hkind.mem

section Command

variable {g : Graph} {op : Op} {p : OpBase} {inputs : List String}

/-- Only transpositions and sums are entered in `skip_nodes`. -/
theorem skipAfter_of_type {type : OpType} (htype : op.type = some type)
    (htranspose : type ≠ .OP_TRANSPOSE) (hadd : type ≠ .OP_EW_ADD)
    (skip_nodes : String → Option String) : g.skipAfter skip_nodes op = skip_nodes := by
  have hskip : g.skips op = false := by simp [Graph.skips, Graph.biasAdd, htype, htranspose, hadd]
  rw [Graph.skipAfter, hskip]
  rfl

theorem getOutputDims_ok (hp : op.ptr = some p) (hout : 0 < p.numOutputs) :
    getOutputDims op 0 = .ok p.output.dims := by
  unfold getOutputDims Op.body
  rw [hp]
  show (pyAssert (p.numOutputs > 0) >>= fun _ => _) = _
  rw [pyAssert_of hout]
  rfl

/-- **The command of an operator**, once its in-edges are read. -/
theorem exportCommand_ok (hp : op.ptr = some p) (hk : p.Kind) (hop : op.Onnx)
    (hslot : ∀ i < op.slots, ∃ e, g.Slot op i e ∧ inputs[i]? = some (e.name op))
    (skip_nodes : String → Option String) :
    exportCommand op op.label inputs skip_nodes =
      .ok (g.commandOf skip_nodes op, g.skipAfter skip_nodes op) := by
  have hslots : op.slots = if p.type = .OP_POOL2D_MAX ∨ p.type = .OP_POOL2D_AVG then 1
      else p.numInputs := by
    rw [Op.slots, Op.numInputs, Op.type_of_ptr hp, hp]
    simp
  have hlabel : ∀ {type name}, p.type = type → opTable type = some name →
      op.type = some type ∧ op.label = name := by
    intro type name htype hname
    have hsome : op.type = some type := by rw [Op.type_of_ptr hp, htype]
    exact ⟨hsome, (getOperatorType_of_type hsome hname).2⟩
  have hget : ∀ i < op.slots, inputs[i]? = some (g.nameAt op i) := by
    intro i hi
    obtain ⟨e, he, hname⟩ := hslot i hi
    rw [hname, he.nameAt]
  cases hk with
  | conv2d h hparams hH hW hfour =>
    obtain ⟨htype, hname⟩ := hlabel h.type rfl
    rw [h.type, h.inputs, if_neg (by decide)] at hslots
    obtain ⟨rest, hpads⟩ := pads_conv2d hp hparams hH hW h.inputs hfour
    rw [hname, Graph.commandOf, htype, skipAfter_of_type htype (by decide) (by decide)]
    show (kernelShape op >>= fun _ => strides op >>= fun _ => pads op >>= fun _ =>
      lookupOr _ inputs[0]? >>= fun _ => lookupOr _ inputs[1]? >>= fun _ => _) = _
    rw [hget 0 (by omega), hget 1 (by omega), kernelShape_conv2d hp hparams,
      strides_conv2d hp hparams, hpads]
    show (if _ then _ else _) = Except.ok (some (if _ then _ else _), _)
    split <;> rfl
  | add h =>
    obtain ⟨htype, hname⟩ := hlabel h.type rfl
    rw [h.type, h.inputs, if_neg (by decide)] at hslots
    obtain ⟨e, he, -⟩ := hslot 1 (by omega)
    have hbias : pyStartswith (g.nameAt op 1) "Reshape" = g.biasAdd op := by
      rw [he.nameAt, pyStartswith_reshape hname he.onnx, Graph.biasAdd, htype, he.source]
      simp
    have hskip : g.skips op = g.biasAdd op := by simp [Graph.skips, htype]
    rw [hname, Graph.commandOf, htype, Graph.skipAfter, hskip]
    show (lookupOr _ inputs[1]? >>= fun _ => lookupOr _ inputs[0]? >>= fun _ => _) = _
    rw [hget 0 (by omega), hget 1 (by omega)]
    show (if pyStartswith (g.nameAt op 1) "Reshape" = true then
      outputTensorName op 0 >>= fun _ => _ else _) = _
    rw [hbias, hop.outputTensorName]
    cases g.biasAdd op <;> rfl
  | relu h =>
    obtain ⟨htype, hname⟩ := hlabel h.type rfl
    rw [h.type, h.inputs, if_neg (by decide)] at hslots
    rw [hname, Graph.commandOf, htype, skipAfter_of_type htype (by decide) (by decide)]
    show (lookupOr _ inputs[0]? >>= fun _ => _) = _
    rw [hget 0 (by omega)]
    rfl
  | avgpool h hparams =>
    obtain ⟨htype, hname⟩ := hlabel h.type rfl
    rw [h.type, if_pos (Or.inr rfl)] at hslots
    rw [hname, Graph.commandOf, htype, skipAfter_of_type htype (by decide) (by decide)]
    show (kernelShape op >>= fun _ => lookupOr _ inputs[0]? >>= fun _ => _) = _
    rw [hget 0 (by omega), kernelShape_pool2d hp hparams]
    rfl
  | matmul h =>
    obtain ⟨htype, hname⟩ := hlabel h.type rfl
    rw [h.type, h.inputs, if_neg (by decide)] at hslots
    rw [hname, Graph.commandOf, htype, skipAfter_of_type htype (by decide) (by decide)]
    show (lookupOr _ inputs[1]? >>= fun _ => lookupOr _ inputs[0]? >>= fun _ => _) = _
    rw [hget 0 (by omega), hget 1 (by omega)]
    rfl
  | reshape h =>
    obtain ⟨htype, hname⟩ := hlabel h.type rfl
    rw [h.type, h.inputs, if_neg (by decide)] at hslots
    obtain ⟨t, ht, -⟩ := h.output
    have hdims := getOutputDims_ok hp (by rw [OpBase.numOutputs, ht]; exact Nat.one_pos)
    have hflat : op.flat = decide (p.output.dims.length = 2) := by
      rw [Op.flat, hp, Tensor.dims, List.length_map, List.length_range]
      rfl
    rw [hname, Graph.commandOf, htype, skipAfter_of_type htype (by decide) (by decide), hflat]
    show (getOutputDims op 0 >>= fun _ => _) = _
    rw [hdims]
    show (if p.output.dims.length ≠ 2 then _ else lookupOr _ inputs[0]? >>= fun _ => _) = _
    rw [hget 0 (by omega)]
    by_cases htwo : p.output.dims.length = 2
    · rw [if_neg (not_not.mpr htwo), decide_eq_true htwo]
      rfl
    · rw [if_pos htwo, decide_eq_false htwo]
      rfl
  | transpose h =>
    obtain ⟨htype, hname⟩ := hlabel h.type rfl
    rw [h.type, h.inputs, if_neg (by decide)] at hslots
    have hskip : g.skips op = true := by simp [Graph.skips, htype]
    rw [hname, Graph.commandOf, htype, Graph.skipAfter, hskip]
    show (lookupOr _ inputs[0]? >>= fun _ => outputTensorName op 0 >>= fun _ => _) = _
    rw [hget 0 (by omega), hop.outputTensorName]
    rfl

end Command

/-! ## A round -/

/-- What `export` can read of an operator. -/
def Graph.readable (g : Graph) (op : Op) : Bool := (g.readEdges op).all op.readable

/-- The state after an operator. -/
def ExportState.after (g : Graph) (s : ExportState) (op : Op) : ExportState :=
  let read := (g.readEdges op).foldl (ExportState.afterRead op) s
  { ctes := s.ctes ++ ((g.commandOf s.skip_nodes op).map (Cte.mk op.outName)).toList
    skip_nodes := g.skipAfter s.skip_nodes op
    output_guids := dictSet read.output_guids (op.guid, 0) op
    weights := read.weights }

theorem foldl_afterRead (op : Op) (es : List Edge) (s : ExportState) :
    (es.foldl (ExportState.afterRead op) s).ctes = s.ctes ∧
      (es.foldl (ExportState.afterRead op) s).skip_nodes = s.skip_nodes := by
  induction es generalizing s with
  | nil => exact ⟨rfl, rfl⟩
  | cons e es ih => exact ih (s.afterRead op e)

theorem foldl_pair {op : Op} (es : List Edge) (s : ExportState) (inputs : List String) :
    es.foldl (fun (s : ExportState × List String) e => (s.1.afterRead op e, s.2 ++ [e.name op]))
        (s, inputs) =
      (es.foldl (ExportState.afterRead op) s, inputs ++ es.map fun e => e.name op) := by
  induction es generalizing s inputs with
  | nil => simp
  | cons e es ih =>
    rw [List.foldl_cons, ih, List.foldl_cons, List.map_cons, List.append_assoc]
    rfl

theorem writeOutputs_ok {op : Op} (hop : op.Onnx) (s : ExportState) :
    (List.range 1).foldlM (writeOutput op) (s, []) =
      .ok ({ s with output_guids := dictSet s.output_guids (op.guid, 0) op }, [op.outName]) := by
  have hwrite : writeOutput op (s, []) 0 =
      .ok ({ s with output_guids := dictSet s.output_guids (op.guid, 0) op }, [op.outName]) := by
    unfold writeOutput
    rw [hop.outputTensorName]
    rfl
  show [0].foldlM (writeOutput op) (s, []) = _
  rw [List.foldlM_cons, hwrite]
  rfl

section Round

variable {g : Graph} {op : Op} (hg : g.WellFormed) (hl : g.Laid) (hop : op ∈ g.inEdges.keys)
  (hc : op.computes)

include hl hop hc in
theorem Graph.Laid.kind : ∃ p, op.ptr = some p ∧ p.Kind := by
  obtain ⟨p, hp, hbody⟩ := hl.body op hop
  refine ⟨p, hp, ?_⟩
  rw [Op.computes, Op.type_of_ptr hp] at hc
  rcases hbody.cases_kind with h | ⟨h, -⟩ | h
  · exact absurd (congrArg some h.type) hc.1
  · exact absurd (congrArg some h.type) hc.2
  · exact h

include hg hl hop hc in
/-- **A round for an operator that can be read** ends in `after`. -/
theorem exportOp_ok (hread : g.readable op = true) (s : ExportState) :
    exportOp g s op = .ok (s.after g op) := by
  obtain ⟨p, hp, hk⟩ := hl.kind hop hc
  have honnx : op.Onnx := hl.body op hop
  obtain ⟨hrun, hlen, hslot⟩ := Graph.getInputEdges_slots hg hl hop hc
  have hreads : ((g.readEdges op).map some).foldlM (readInput op op.label) (s, []) =
      .ok ((g.readEdges op).foldl (ExportState.afterRead op) s,
        (g.readEdges op).map fun e => e.name op) := by
    rw [List.foldlM_map, foldlM_eq_ok_foldl (f := fun s e => (s.1.afterRead op e, s.2 ++ [e.name op])),
      foldl_pair, List.nil_append]
    intro e he s
    obtain ⟨i, hi⟩ := List.mem_iff_getElem?.mp he
    have h := hslot i e hi
    refine readInput_ok hp hk honnx h.onnx h.src ?_ (List.all_eq_true.mp hread e he) s.1 s.2
    rw [h.dst, ← hlen]
    exact (List.getElem?_eq_some_iff.mp hi).1
  have houts : p.numOutputs = 1 := by
    obtain ⟨t, ht, -⟩ := OnnxBody.output (by
      obtain ⟨q, hq, hbody⟩ := honnx
      rw [hp] at hq
      cases hq
      exact hbody)
    rw [OpBase.numOutputs, ht]
    rfl
  have hbody : op.body = .ok p := by
    rw [Op.body, hp]
  have hcommand : exportCommand op op.label ((g.readEdges op).map fun e => e.name op) s.skip_nodes =
      .ok (g.commandOf s.skip_nodes op, g.skipAfter s.skip_nodes op) := by
    refine exportCommand_ok hp hk honnx (fun i hi => ?_) s.skip_nodes
    have he := List.getElem?_eq_getElem (hlen.symm ▸ hi)
    exact ⟨_, hslot i _ he, by rw [List.getElem?_map, he]; rfl⟩
  unfold exportOp
  rw [honnx.getOperatorType]
  show (g.getInputEdges op >>= fun _ => _) = _
  rw [hrun]
  show (((g.readEdges op).map some).foldlM (readInput op op.label) (s, []) >>= fun _ => _) = _
  rw [hreads]
  show (op.body >>= fun _ => _) = _
  rw [hbody]
  show ((List.range p.numOutputs).foldlM (writeOutput op) _ >>= fun _ => _) = _
  rw [houts, writeOutputs_ok honnx]
  obtain ⟨hctes, hskip⟩ := foldl_afterRead op (g.readEdges op) s
  show (exportCommand op op.label _ (List.foldl _ s _).skip_nodes >>= fun _ => _) = _
  rw [hskip, hcommand]
  unfold ExportState.after
  cases g.commandOf s.skip_nodes op with
  | none =>
    show Except.ok (ExportState.mk (List.foldl _ s _).ctes _ _ _) = _
    rw [hctes]
    simp
  | some command =>
    show Except.ok (ExportState.mk ((List.foldl _ s _).ctes ++ _) _ _ _) = _
    rw [hctes]
    rfl

include hg hl hop hc in
/-- A round that did not raise could read its operator. -/
theorem readable_of_exportOp {s s' : ExportState} (h : exportOp g s op = .ok s') :
    g.readable op = true := by
  obtain ⟨p, hp, hk⟩ := hl.kind hop hc
  have honnx : op.Onnx := hl.body op hop
  obtain ⟨hrun, -, hslot⟩ := Graph.getInputEdges_slots hg hl hop hc
  unfold exportOp at h
  simp only [bind_ok_iff, honnx.getOperatorType, hrun] at h
  obtain ⟨_, hlabel, _, hedges, _, hreads, -⟩ := h
  cases hlabel
  cases hedges
  rw [Graph.readable, List.all_eq_true]
  intro e he
  obtain ⟨i, hi⟩ := List.mem_iff_getElem?.mp he
  obtain ⟨s1, s2, hstep⟩ := foldlM_steps hreads (some e) (List.mem_map_of_mem he)
  exact readable_of_readInput hp hk honnx (hslot i e hi).onnx hstep

end Round

end Peps
