import Peps.Dbocg.PatternConstraints
import Peps.Dbocg.Search

/-!
# `load_graph_xfer_from_pb_file` — rules from a file

A rule of the file names its tensors by numbers: a negative `opId` stands for an external tensor,
any other for an output of an earlier operator of the same side. `create_operator_from_pb` resolves
them while it builds the operators, one after the other. Some operator types are recognised and
not built; their entry in the list is `None`.

What the loader accepts is well formed if it has built all operators, and the target side only reads
external tensors that the source side binds (`FromFile`). The runs of rules take both for granted.
-/

namespace Peps

open Lib

/-! ## The messages of `rules.proto` -/

structure PbParameter where
  key : Int
  value : Int

structure PbTensor where
  opId : Int
  tsId : Int

structure PbOperator where
  type : Int
  input : List PbTensor
  para : List PbParameter

structure PbMapOutput where
  srcOpId : Int
  dstOpId : Int
  srcTsId : Int
  dstTsId : Int

structure PbRule where
  srcOp : List PbOperator
  dstOp : List PbOperator
  mappedOutput : List PbMapOutput

/-- What loading a rule can raise. -/
inductive RuleError where
  | pattern (e : PatternError)
  | python (e : PyError)
deriving DecidableEq

namespace RuleLoader

def python {α : Type} (step : Except PyError α) : Except RuleError α :=
  step.mapError RuleError.python

def pattern {α : Type} (step : Except PatternError α) : Except RuleError α :=
  step.mapError RuleError.pattern

/-! ## Enumerations -/

/-- The members of `OpType`, in the order of their values 0 to 61. -/
def opTypes : List OpType :=
  [.OP_INPUT, .OP_WEIGHT, .OP_ANY, .OP_CONV2D, .OP_DROPOUT, .OP_LINEAR, .OP_POOL2D_MAX,
    .OP_POOL2D_AVG, .OP_RELU, .OP_SIGMOID, .OP_TANH, .OP_BATCHNORM, .OP_CONCAT, .OP_SPLIT,
    .OP_RESHAPE, .OP_TRANSPOSE, .OP_EW_ADD, .OP_EW_MUL, .OP_MATMUL, .OP_MUL, .OP_ENLARGE,
    .OP_MERGE_GCONV, .OP_CONSTANT_IMM, .OP_CONSTANT_ICONV, .OP_CONSTANT_ONE, .OP_CONSTANT_POOL,
    .OP_SQUEEZE, .OP_UNSQUEEZE, .OP_EW_SUB, .OP_EW_DIV, .OP_EW_EQUAL, .OP_EW_GREATER, .OP_EW_LESS,
    .OP_EW_MAX, .OP_EW_MIN, .OP_REDUCE_ARGMAX, .OP_REDUCE_ARGMIN, .OP_REDUCE_MAX, .OP_REDUCE_MEAN,
    .OP_REDUCE_MIN, .OP_REDUCE_PROD, .OP_REDUCE_SUM, .OP_PAD, .OP_SHAPE, .OP_SIZE, .OP_TOPK,
    .OP_WHERE, .OP_CEIL, .OP_CAST, .OP_EXP, .OP_ROUND, .OP_LOG, .OP_LOGICAL_NOT, .OP_SQRT,
    .OP_LEAKYRELU, .OP_SLICE, .OP_RESIZE, .OP_PRELU, .OP_FUSE_CONV_BATCHNORM,
    .OP_FUSE_CONV_BATCHNORM_ALPHA_VAR, .OP_FUSE_CONV_BATCHNORM_BIAS, .OP_BROADCAST_ADD]

def paddingModes : List PaddingMode := [.PD_MODE_SAME, .PD_MODE_VALID]

def actiModes : List ActiMode := [.AC_MODE_NONE, .AC_MODE_SIGMOID, .AC_MODE_RELU, .AC_MODE_TANH]

/-- `Enum(value)`, for members with the values 0, 1, …. -/
def member {α : Type} (members : List α) (value : Int) : Except RuleError α :=
  if value < 0 then .error (.python .valueError)
  else
    match members[value.toNat]? with
    | none => .error (.python .valueError)
    | some a => .ok a

/-- `PMParameter.value`. -/
def keyOf : PMParameter → Int
  | .PM_OP_TYPE => 0
  | .PM_NUM_INPUTS => 1
  | .PM_NUM_OUTPUTS => 2
  | .PM_GROUP => 3
  | .PM_KERNEL_H => 4
  | .PM_KERNEL_W => 5
  | .PM_STRIDE_H => 6
  | .PM_STRIDE_W => 7
  | .PM_PAD => 8
  | .PM_ACTI => 9
  | .PM_NUMDIM => 10
  | .PM_AXIS => 11
  | .PM_PERM => 12
  | .PM_OUTSHUFFLE => 13
  | .PM_MERGE_GCONV_COUNT => 14
  | .PM_AXES => 15
  | .PM_KEEP_DIMS => 16
  | .PM_EPSILON => 17

/-- `assert self.get_parameter_from_pb(pbOp, pm, value)`: the first parameter with the key. -/
def getParameterFromPb (pbOp : PbOperator) (pm : PMParameter) : Except RuleError Int :=
  python (pyUnwrap ((pbOp.para.find? fun p => p.key = keyOf pm).map PbParameter.value))

/-! ## Operators -/

/-- An `OpX` of a rule, with the length of its `outputs`. -/
structure XferOp where
  opx : OpX
  outputs : Nat

/-- The types whose `OpX` has one output, whatever was asked for. -/
def singleOutput : List OpType :=
  [.OP_RESHAPE, .OP_TRANSPOSE, .OP_RELU, .OP_TANH, .OP_SIGMOID, .OP_MERGE_GCONV, .OP_CONV2D,
    .OP_EW_ADD, .OP_EW_MUL, .OP_POOL2D_AVG, .OP_CONCAT, .OP_MATMUL, .OP_MUL, .OP_ENLARGE,
    .OP_BROADCAST_ADD, .OP_FUSE_CONV_BATCHNORM_ALPHA_VAR, .OP_FUSE_CONV_BATCHNORM_BIAS,
    .OP_BATCHNORM, .OP_FUSE_CONV_BATCHNORM]

/-- `OpX.__init__`: how many outputs it makes. -/
def withOutputs (opx : OpX) (numOutputs : Int) : Except RuleError XferOp := do
  let outputs ← python (if opx.type ∈ singleOutput then .ok 1
    else if opx.type = .OP_SPLIT ∧ numOutputs ≠ 1 then .ok numOutputs.toNat
    else .error .assertionError)
  python (pyAssert (outputs ≠ 0))
  return ⟨opx, outputs⟩

def createConv2d (input weight : TensorX) (strideH strideW : Int) (padding : PaddingMode)
    (activation : ActiMode) : OpX where
  type := .OP_CONV2D
  inputs := [input, weight]
  pmConstraints := [⟨.COMPARE_EQ, .PM_STRIDE_H, .int strideH⟩,
    ⟨.COMPARE_EQ, .PM_STRIDE_W, .int strideW⟩, ⟨.COMPARE_EQ, .PM_PAD, .padding padding⟩,
    ⟨.COMPARE_EQ, .PM_ACTI, .acti activation⟩]
  tnConstraints := []

def createElement (input0 input1 : TensorX) (type : OpType) : OpX := ⟨type, [input0, input1], [], []⟩

def createActivation (input : TensorX) (type : OpType) : OpX := ⟨type, [input], [], []⟩

def createSplit (input : TensorX) (axis : Int) : OpX :=
  ⟨.OP_SPLIT, [input], [⟨.COMPARE_EQ, .PM_AXIS, .int axis⟩], []⟩

/-- `xs[i]` of a list: a negative index counts from the end. -/
def position (length : Nat) (i : Int) : Except RuleError Nat :=
  if -(length : Int) ≤ i ∧ i < length then .ok (pyIndex length i)
  else .error (.python .indexError)

/-- The operator at an index, where `outputs` of it is read; `None` has none. -/
def operatorAt (ops : List (Option XferOp)) (i : Int) : Except RuleError (Nat × XferOp) := do
  let k ← position ops.length i
  match ops[k]? with
  | some (some op) => return (k, op)
  | _ => .error (.python .attributeError)

/-! ## `create_operator_from_pb` -/

/-- `mappedInputs` and the counter of `new_tensor`. -/
structure Externals where
  tensorId : Nat
  mapped : List (Int × Nat)

/-- Step 1 for one input. -/
def readInput (ops : List (Option XferOp)) (isSrcOp : Bool) (ext : Externals) (t : PbTensor) :
    Except RuleError (TensorX × Externals) :=
  if t.opId < 0 then
    match ext.mapped.lookup t.opId with
    | some idx => .ok (.ext idx, ext)
    | none => do
        python (pyAssert (isSrcOp = true))
        return (.ext ext.tensorId, ⟨ext.tensorId + 1, (t.opId, ext.tensorId) :: ext.mapped⟩)
  else do
    let (k, op) ← operatorAt ops t.opId
    let idx ← position op.outputs t.tsId
    return (.out k idx, ext)

def readInputs (ops : List (Option XferOp)) (isSrcOp : Bool) :
    List PbTensor → Externals → Except RuleError (List TensorX × Externals)
  | [], ext => .ok ([], ext)
  | t :: ts, ext => do
      let (input, ext) ← readInput ops isSrcOp ext t
      let (inputs, ext) ← readInputs ops isSrcOp ts ext
      return (input :: inputs, ext)

/-- `assert input_size == 1`, with the input. -/
def oneInput (inputs : List TensorX) : Except RuleError TensorX :=
  match inputs with
  | [a] => .ok a
  | _ => .error (.python .assertionError)

/-- `assert input_size == 2`, with the inputs. -/
def twoInputs (inputs : List TensorX) : Except RuleError (TensorX × TensorX) :=
  match inputs with
  | [a, b] => .ok (a, b)
  | _ => .error (.python .assertionError)

/-- Step 2: the operator, `none` for the types that are passed over. -/
def createOp (pbOp : PbOperator) (inputs : List TensorX) (type : OpType) :
    Except RuleError (Option XferOp) :=
  match type with
  | .OP_CONV2D => do
      let (input, weight) ← twoInputs inputs
      let strideH ← getParameterFromPb pbOp .PM_STRIDE_H
      let strideW ← getParameterFromPb pbOp .PM_STRIDE_W
      let padding ← getParameterFromPb pbOp .PM_PAD
      let activation ← getParameterFromPb pbOp .PM_ACTI
      let padding ← member paddingModes padding
      let activation ← member actiModes activation
      some <$> withOutputs (createConv2d input weight strideH strideW padding activation) 1
  | .OP_CONCAT => do
      let axis ← getParameterFromPb pbOp .PM_AXIS
      let numDim ← getParameterFromPb pbOp .PM_NUMDIM
      let opx ← pattern (createConcat axis numDim inputs.length inputs)
      some <$> withOutputs opx 1
  | .OP_EW_ADD | .OP_EW_MUL => do
      let (input0, input1) ← twoInputs inputs
      some <$> withOutputs (createElement input0 input1 type) 1
  | .OP_SPLIT => do
      let input ← oneInput inputs
      let axis ← getParameterFromPb pbOp .PM_AXIS
      let numOutputs ← getParameterFromPb pbOp .PM_NUM_OUTPUTS
      some <$> withOutputs (createSplit input axis) numOutputs
  | .OP_RELU | .OP_SIGMOID | .OP_TANH => do
      let input ← oneInput inputs
      some <$> withOutputs (createActivation input type) 1
  | .OP_MATMUL => do
      let (input, weight) ← twoInputs inputs
      let activation ← getParameterFromPb pbOp .PM_ACTI
      let activation ← member actiModes activation
      let opx ← pattern (createMatmul input weight activation)
      some <$> withOutputs opx 1
  | .OP_MUL | .OP_ENLARGE | .OP_TRANSPOSE | .OP_POOL2D_MAX | .OP_POOL2D_AVG | .OP_BATCHNORM =>
      .ok none
  | _ => .error (.python .assertionError)

/-- `create_operator_from_pb`: the side it belongs to, one operator longer. -/
def createOperatorFromPb (isSrcOp : Bool) (ops : List (Option XferOp)) (ext : Externals)
    (pbOp : PbOperator) : Except RuleError (List (Option XferOp) × Externals) := do
  python (pyAssert (pbOp.input.length < MAX_NUM_INPUTS))
  let (inputs, ext) ← readInputs ops isSrcOp pbOp.input ext
  let type ← member opTypes pbOp.type
  let op ← createOp pbOp inputs type
  return (ops ++ [op], ext)

/-! ## A rule -/

/-- A `GraphXfer` that has been loaded. -/
structure Loaded where
  srcOps : List (Option XferOp)
  dstOps : List (Option XferOp)
  mappedOutputs : List ((Nat × Nat) × (Nat × Nat))

/-- `map_output`: a second entry for an output takes the place of the first. -/
def mapOutput (mappedOutputs : List ((Nat × Nat) × (Nat × Nat))) (src dst : Nat × Nat) :
    List ((Nat × Nat) × (Nat × Nat)) :=
  (src, dst) :: mappedOutputs.filter fun entry => entry.1 ≠ src

/-- One entry of `rule.mappedOutput`. -/
def readMapOutput (srcOps dstOps : List (Option XferOp))
    (mappedOutputs : List ((Nat × Nat) × (Nat × Nat))) (m : PbMapOutput) :
    Except RuleError (List ((Nat × Nat) × (Nat × Nat))) := do
  python (pyAssert (m.srcOpId < srcOps.length))
  python (pyAssert (m.dstOpId < dstOps.length))
  let (k, src) ← operatorAt srcOps m.srcOpId
  python (pyAssert (m.srcTsId < src.outputs))
  let (j, dst) ← operatorAt dstOps m.dstOpId
  python (pyAssert (m.dstTsId < dst.outputs))
  let srcIdx ← position src.outputs m.srcTsId
  let dstIdx ← position dst.outputs m.dstTsId
  return mapOutput mappedOutputs (k, srcIdx) (j, dstIdx)

/-- The operators of one side. -/
def loadSide (isSrcOp : Bool) (pbOps : List PbOperator) (ext : Externals) :
    Except RuleError (List (Option XferOp) × Externals) :=
  pbOps.foldlM (fun st pbOp => createOperatorFromPb isSrcOp st.1 st.2 pbOp) ([], ext)

/-- The body of the loop over the rules. -/
def loadRule (rule : PbRule) : Except RuleError Loaded := do
  let (srcOps, ext) ← loadSide true rule.srcOp ⟨10, []⟩
  let (dstOps, _) ← loadSide false rule.dstOp ext
  let mappedOutputs ← rule.mappedOutput.foldlM (readMapOutput srcOps dstOps) []
  return ⟨srcOps, dstOps, mappedOutputs⟩

/-- `load_graph_xfer_from_pb_file`, from the parsed collection: its first 133 rules. -/
def loadGraphXferFromPbFile (rules : List PbRule) : Except RuleError (List Loaded) :=
  (List.range 133).mapM fun i =>
    match rules[i]? with
    | none => .error (.python .indexError)
    | some rule => loadRule rule

/-- The operators of a side, if all of them were built. -/
def allBuilt : List (Option XferOp) → Option (List OpX)
  | [] => some []
  | op :: ops => do
      let op ← op
      let opxs ← allBuilt ops
      return op.opx :: opxs

/-- The rule, if all its operators were built. -/
def Loaded.rule (x : Loaded) : Option Rule := do
  let srcOps ← allBuilt x.srcOps
  let dstOps ← allBuilt x.dstOps
  return ⟨srcOps, dstOps, x.mappedOutputs⟩

/-! ## What the steps give -/

theorem python_eq_ok {α : Type} {step : Except PyError α} {a : α} :
    python step = .ok a ↔ step = .ok a := by
  unfold python
  cases step with
  | error e => simp [Except.mapError]
  | ok b => simp [Except.mapError]

theorem pattern_eq_ok {α : Type} {step : Except PatternError α} {a : α} :
    pattern step = .ok a ↔ step = .ok a := by
  unfold pattern
  cases step with
  | error e => simp [Except.mapError]
  | ok b => simp [Except.mapError]

theorem position_lt {length : Nat} {i : Int} {k : Nat} (h : position length i = .ok k) :
    k < length := by
  unfold position at h
  split at h
  · next hrange =>
    cases h
    unfold pyIndex
    split
    · omega
    · omega
  · cases h

theorem operatorAt_ok {ops : List (Option XferOp)} {i : Int} {k : Nat} {op : XferOp}
    (h : operatorAt ops i = .ok (k, op)) : k < ops.length ∧ ops[k]? = some (some op) := by
  obtain ⟨k', hk', h⟩ := bind_ok_iff.mp h
  split at h
  · next hop =>
    cases h
    exact ⟨position_lt hk', hop⟩
  · cases h

/-- What the inputs of a new operator name, given the operators and external tensors before it. -/
structure InputsOf (isSrcOp : Bool) (count : Nat) (ext : Externals) (inputs : List TensorX)
    (ext' : Externals) : Prop where
  before : ∀ j idx, .out j idx ∈ inputs → j < count
  bound : ∀ idx, .ext idx ∈ inputs → ∃ id, (id, idx) ∈ ext'.mapped
  origin : ∀ e ∈ ext'.mapped, e ∈ ext.mapped ∨ isSrcOp = true ∧ .ext e.2 ∈ inputs
  grown : ∀ e ∈ ext.mapped, e ∈ ext'.mapped

theorem mem_of_lookup {entries : List (Int × Nat)} {id : Int} {idx : Nat}
    (h : entries.lookup id = some idx) : (id, idx) ∈ entries := by
  induction entries with
  | nil => cases h
  | cons e entries ih =>
    rw [List.lookup_cons] at h
    split at h
    · next heq =>
      cases h
      rw [eq_of_beq heq]
      exact List.mem_cons_self ..
    · exact List.mem_cons_of_mem _ (ih h)

theorem readInput_ok {ops : List (Option XferOp)} {isSrcOp : Bool} {ext ext' : Externals}
    {t : PbTensor} {input : TensorX} (h : readInput ops isSrcOp ext t = .ok (input, ext')) :
    InputsOf isSrcOp ops.length ext [input] ext' := by
  unfold readInput at h
  split at h
  · split at h
    · next idx hlookup =>
      cases h
      refine ⟨fun j i hmem => ?_, fun i hmem => ?_, fun e he => Or.inl he, fun e he => he⟩
      · cases List.mem_singleton.mp hmem
      · cases List.mem_singleton.mp hmem
        exact ⟨t.opId, mem_of_lookup hlookup⟩
    · obtain ⟨_, hsrc, h⟩ := bind_ok_iff.mp h
      cases h
      have hsrc := pyAssert_eq_ok.mp (python_eq_ok.mp hsrc)
      refine ⟨fun j i hmem => ?_, fun i hmem => ?_, fun e he => ?_,
        fun e he => List.mem_cons_of_mem _ he⟩
      · cases List.mem_singleton.mp hmem
      · cases List.mem_singleton.mp hmem
        exact ⟨t.opId, List.mem_cons_self ..⟩
      · rcases List.mem_cons.mp he with rfl | he
        · exact Or.inr ⟨hsrc, List.mem_cons_self ..⟩
        · exact Or.inl he
  · obtain ⟨⟨k, op⟩, hop, h⟩ := bind_ok_iff.mp h
    obtain ⟨idx, -, h⟩ := bind_ok_iff.mp h
    cases h
    refine ⟨fun j i hmem => ?_, fun i hmem => ?_, fun e he => Or.inl he, fun e he => he⟩
    · cases List.mem_singleton.mp hmem
      exact (operatorAt_ok hop).1
    · cases List.mem_singleton.mp hmem

theorem InputsOf.cons {isSrcOp : Bool} {count : Nat} {ext ext1 ext2 : Externals} {input : TensorX}
    {inputs : List TensorX} (h : InputsOf isSrcOp count ext [input] ext1)
    (h' : InputsOf isSrcOp count ext1 inputs ext2) :
    InputsOf isSrcOp count ext (input :: inputs) ext2 where
  before := fun j idx hmem => by
    rcases List.mem_cons.mp hmem with heq | hmem
    · exact h.before j idx (heq ▸ List.mem_cons_self ..)
    · exact h'.before j idx hmem
  bound := fun idx hmem => by
    rcases List.mem_cons.mp hmem with heq | hmem
    · obtain ⟨id, hid⟩ := h.bound idx (heq ▸ List.mem_cons_self ..)
      exact ⟨id, h'.grown _ hid⟩
    · exact h'.bound idx hmem
  origin := fun e he => by
    rcases h'.origin e he with he | ⟨hsrc, hmem⟩
    · rcases h.origin e he with he | ⟨hsrc, hmem⟩
      · exact Or.inl he
      · exact Or.inr ⟨hsrc, List.mem_cons.mpr (Or.inl (List.mem_singleton.mp hmem))⟩
    · exact Or.inr ⟨hsrc, List.mem_cons_of_mem _ hmem⟩
  grown := fun e he => h'.grown e (h.grown e he)

theorem readInputs_ok {ops : List (Option XferOp)} {isSrcOp : Bool} {ts : List PbTensor}
    {ext ext' : Externals} {inputs : List TensorX}
    (h : readInputs ops isSrcOp ts ext = .ok (inputs, ext')) :
    InputsOf isSrcOp ops.length ext inputs ext' := by
  induction ts generalizing ext inputs with
  | nil =>
    cases h
    exact ⟨fun j i hmem => absurd hmem List.not_mem_nil, fun i hmem => absurd hmem List.not_mem_nil,
      fun e he => Or.inl he, fun e he => he⟩
  | cons t ts ih =>
    obtain ⟨⟨input, ext1⟩, hfirst, h⟩ := bind_ok_iff.mp h
    obtain ⟨⟨rest, ext2⟩, hrest, h⟩ := bind_ok_iff.mp h
    cases h
    exact (readInput_ok hfirst).cons (ih hrest)

/-- The types the loader builds operators of. -/
def builtTypes : List OpType :=
  [.OP_CONV2D, .OP_CONCAT, .OP_EW_ADD, .OP_EW_MUL, .OP_SPLIT, .OP_RELU, .OP_SIGMOID, .OP_TANH,
    .OP_MATMUL]

/-- What `createOp` gives. A concatenation has the constraint with a number for a tensor. -/
structure Built (inputs : List TensorX) (opx : OpX) : Prop where
  inputs : opx.inputs = inputs
  type : opx.type ∈ builtTypes
  concat : opx.type = .OP_CONCAT → ∃ tnc ∈ opx.tnConstraints, tnc.para2 = none

theorem withOutputs_opx {opx : OpX} {numOutputs : Int} {op : XferOp}
    (h : withOutputs opx numOutputs = .ok op) : op.opx = opx := by
  obtain ⟨outputs, -, h⟩ := bind_ok_iff.mp h
  obtain ⟨-, -, h⟩ := bind_ok_iff.mp h
  cases h
  rfl

theorem some_withOutputs_ok {opx : OpX} {numOutputs : Int} {out : Option XferOp}
    (h : some <$> withOutputs opx numOutputs = .ok out) : ∃ op, out = some op ∧ op.opx = opx := by
  cases hop : withOutputs opx numOutputs with
  | error e =>
    rw [hop] at h
    cases h
  | ok op =>
    rw [hop] at h
    cases h
    exact ⟨op, rfl, withOutputs_opx hop⟩

theorem oneInput_ok {inputs : List TensorX} {a : TensorX} (h : oneInput inputs = .ok a) :
    [a] = inputs := by
  unfold oneInput at h
  split at h
  · cases h
    rfl
  · cases h

theorem twoInputs_ok {inputs : List TensorX} {a b : TensorX}
    (h : twoInputs inputs = .ok (a, b)) : [a, b] = inputs := by
  unfold twoInputs at h
  split at h
  · cases h
    rfl
  · cases h

theorem Built.plain (type : OpType) {inputs : List TensorX} {opx : OpX}
    (hinputs : opx.inputs = inputs) (htype : opx.type = type) (hmem : type ∈ builtTypes)
    (hne : type ≠ .OP_CONCAT) : Built inputs opx :=
  ⟨hinputs, htype ▸ hmem, fun hconcat => absurd (htype.symm.trans hconcat) hne⟩

theorem createConcat_built {axis numDim : Int} {n : Nat} {inputs : List TensorX} {opx : OpX}
    (h : createConcat axis numDim n inputs = .ok opx) : Built inputs opx := by
  obtain ⟨first, hfirst, h⟩ := bind_ok_iff.mp h
  obtain ⟨rest, -, h⟩ := bind_ok_iff.mp h
  cases h
  refine ⟨rfl, by simp [builtTypes], fun _ => ⟨first, List.mem_cons_self .., ?_⟩⟩
  unfold addInputConstraint at hfirst
  dsimp only at hfirst
  split at hfirst
  · cases hfirst
    rfl
  · cases hfirst

theorem createMatmul_built {a b : TensorX} {activation : ActiMode} {opx : OpX}
    (h : createMatmul a b activation = .ok opx) : Built [a, b] opx := by
  obtain ⟨inner, -, h⟩ := bind_ok_iff.mp h
  cases h
  exact Built.plain .OP_MATMUL rfl rfl (by decide) (by decide)

theorem createOp_ok {pbOp : PbOperator} {inputs : List TensorX} {type : OpType}
    {out : Option XferOp} (h : createOp pbOp inputs type = .ok out) :
    ∀ op, out = some op → Built inputs op.opx := by
  -- the cases that several types share
  have helement : ∀ kind, kind ∈ builtTypes → kind ≠ .OP_CONCAT →
      (twoInputs inputs >>= fun p => some <$> withOutputs (createElement p.1 p.2 kind) 1) = .ok out →
      ∀ op, out = some op → Built inputs op.opx := by
    intro kind hmem hne h op hop
    obtain ⟨⟨a, b⟩, hin, h⟩ := bind_ok_iff.mp h
    obtain ⟨_, rfl, hopx⟩ := some_withOutputs_ok h
    cases hop
    rw [hopx]
    exact Built.plain kind (twoInputs_ok hin) rfl hmem hne
  have hactivation : ∀ kind, kind ∈ builtTypes → kind ≠ .OP_CONCAT →
      (oneInput inputs >>= fun a => some <$> withOutputs (createActivation a kind) 1) = .ok out →
      ∀ op, out = some op → Built inputs op.opx := by
    intro kind hmem hne h op hop
    obtain ⟨a, hin, h⟩ := bind_ok_iff.mp h
    obtain ⟨_, rfl, hopx⟩ := some_withOutputs_ok h
    cases hop
    rw [hopx]
    exact Built.plain kind (oneInput_ok hin) rfl hmem hne
  unfold createOp at h
  split at h
  · intro op hop
    obtain ⟨⟨a, b⟩, hin, h⟩ := bind_ok_iff.mp h
    obtain ⟨_, -, h⟩ := bind_ok_iff.mp h
    obtain ⟨_, -, h⟩ := bind_ok_iff.mp h
    obtain ⟨_, -, h⟩ := bind_ok_iff.mp h
    obtain ⟨_, -, h⟩ := bind_ok_iff.mp h
    obtain ⟨_, -, h⟩ := bind_ok_iff.mp h
    obtain ⟨_, -, h⟩ := bind_ok_iff.mp h
    obtain ⟨_, rfl, hopx⟩ := some_withOutputs_ok h
    cases hop
    rw [hopx]
    exact Built.plain .OP_CONV2D (twoInputs_ok hin) rfl (by decide) (by decide)
  · intro op hop
    obtain ⟨_, -, h⟩ := bind_ok_iff.mp h
    obtain ⟨_, -, h⟩ := bind_ok_iff.mp h
    obtain ⟨opx, hconcat, h⟩ := bind_ok_iff.mp h
    obtain ⟨_, rfl, hopx⟩ := some_withOutputs_ok h
    cases hop
    rw [hopx]
    exact createConcat_built (pattern_eq_ok.mp hconcat)
  · exact helement _ (by decide) (by decide) h
  · exact helement _ (by decide) (by decide) h
  · intro op hop
    obtain ⟨a, hin, h⟩ := bind_ok_iff.mp h
    obtain ⟨_, -, h⟩ := bind_ok_iff.mp h
    obtain ⟨_, -, h⟩ := bind_ok_iff.mp h
    obtain ⟨_, rfl, hopx⟩ := some_withOutputs_ok h
    cases hop
    rw [hopx]
    exact Built.plain .OP_SPLIT (oneInput_ok hin) rfl (by decide) (by decide)
  · exact hactivation _ (by decide) (by decide) h
  · exact hactivation _ (by decide) (by decide) h
  · exact hactivation _ (by decide) (by decide) h
  · intro op hop
    obtain ⟨⟨a, b⟩, hin, h⟩ := bind_ok_iff.mp h
    obtain ⟨_, -, h⟩ := bind_ok_iff.mp h
    obtain ⟨_, -, h⟩ := bind_ok_iff.mp h
    obtain ⟨opx, hmatmul, h⟩ := bind_ok_iff.mp h
    obtain ⟨_, rfl, hopx⟩ := some_withOutputs_ok h
    cases hop
    rw [hopx, ← twoInputs_ok hin]
    exact createMatmul_built (pattern_eq_ok.mp hmatmul)
  all_goals
    cases h
    try exact fun op hop => (by cases hop)

/-! ## A side -/

/-- What is true of one side of a rule while it is loaded, from `ext₀` on. -/
structure Side (isSrcOp : Bool) (ext₀ : Externals) (ops : List (Option XferOp)) (ext : Externals) :
    Prop where
  before : ∀ (k : Nat) op, ops[k]? = some (some op) →
    ∀ j idx, .out j idx ∈ op.opx.inputs → j < k
  built : ∀ op, some op ∈ ops → Built op.opx.inputs op.opx
  bound : ∀ op, some op ∈ ops → ∀ idx, .ext idx ∈ op.opx.inputs → ∃ id, (id, idx) ∈ ext.mapped
  origin : ∀ e ∈ ext.mapped, e ∈ ext₀.mapped ∨
    isSrcOp = true ∧ (none ∈ ops ∨ ∃ op, some op ∈ ops ∧ .ext e.2 ∈ op.opx.inputs)

theorem Side.step {isSrcOp : Bool} {ext₀ ext ext' : Externals} {ops ops' : List (Option XferOp)}
    {pbOp : PbOperator} (hside : Side isSrcOp ext₀ ops ext)
    (h : createOperatorFromPb isSrcOp ops ext pbOp = .ok (ops', ext')) :
    Side isSrcOp ext₀ ops' ext' := by
  obtain ⟨_, -, h⟩ := bind_ok_iff.mp h
  obtain ⟨⟨inputs, ext1⟩, hread, h⟩ := bind_ok_iff.mp h
  obtain ⟨type, -, h⟩ := bind_ok_iff.mp h
  obtain ⟨out, hout, h⟩ := bind_ok_iff.mp h
  cases h
  have hinputs := readInputs_ok hread
  have hbuilt := createOp_ok hout
  have hold : ∀ op, some op ∈ ops ++ [out] → some op ∈ ops ∨ out = some op := fun op hop =>
    (List.mem_append.mp hop).imp_right fun hop => (List.mem_singleton.mp hop).symm
  refine ⟨fun k op hk j idx hmem => ?_, fun op hop => ?_, fun op hop idx hmem => ?_,
    fun e he => ?_⟩
  · rcases Nat.lt_or_ge k ops.length with hlt | hge
    · rw [List.getElem?_append_left hlt] at hk
      exact hside.before k op hk j idx hmem
    · rw [List.getElem?_append_right hge] at hk
      have hzero : k - ops.length = 0 := by
        have hlt := (List.getElem?_eq_some_iff.mp hk).1
        rw [List.length_singleton] at hlt
        omega
      rw [hzero] at hk
      rw [(hbuilt op (Option.some.inj hk)).inputs] at hmem
      exact Nat.lt_of_lt_of_le (hinputs.before j idx hmem) hge
  · rcases hold op hop with hop | hop
    · exact hside.built op hop
    · have h := hbuilt op hop
      exact ⟨rfl, h.type, h.concat⟩
  · rcases hold op hop with hop | hop
    · obtain ⟨id, hid⟩ := hside.bound op hop idx hmem
      exact ⟨id, hinputs.grown _ hid⟩
    · rw [(hbuilt op hop).inputs] at hmem
      exact hinputs.bound idx hmem
  · rcases hinputs.origin e he with he | ⟨hsrc, hmem⟩
    · refine (hside.origin e he).imp_right fun horigin => ⟨horigin.1, ?_⟩
      rcases horigin.2 with hnone | ⟨op, hop, hmem⟩
      · exact Or.inl (List.mem_append_left _ hnone)
      · exact Or.inr ⟨op, List.mem_append_left _ hop, hmem⟩
    · -- a new external tensor is an input of the operator that was just read
      refine Or.inr ⟨hsrc, ?_⟩
      cases hop : out with
      | none => exact Or.inl (List.mem_append_right _ (List.mem_singleton.mpr rfl))
      | some op =>
        refine Or.inr ⟨op, List.mem_append_right _ (List.mem_singleton.mpr rfl), ?_⟩
        rw [(hbuilt op hop).inputs]
        exact hmem

theorem loadSide_ok {isSrcOp : Bool} {pbOps : List PbOperator} {ext ext' : Externals}
    {ops : List (Option XferOp)} (h : loadSide isSrcOp pbOps ext = .ok (ops, ext')) :
    Side isSrcOp ext ops ext' := by
  have hstart : Side isSrcOp ext [] ext :=
    ⟨fun k op hk => (by cases hk), fun op hop => (by cases hop), fun op hop => (by cases hop),
      fun e he => Or.inl he⟩
  exact foldlM_keeps (P := fun st : List (Option XferOp) × Externals =>
    Side isSrcOp ext st.1 st.2) (fun pbOp _ st st' hst hstep => hst.step hstep) hstart h

/-! ## The rule -/

theorem allBuilt_eq {ops : List (Option XferOp)} {opxs : List OpX} (h : allBuilt ops = some opxs) :
    ∃ built : List XferOp, ops = built.map some ∧ opxs = built.map XferOp.opx := by
  induction ops generalizing opxs with
  | nil =>
    cases h
    exact ⟨[], rfl, rfl⟩
  | cons op ops ih =>
    obtain ⟨op, rfl, h⟩ := Option.bind_eq_some_iff.mp h
    obtain ⟨rest, hrest, h⟩ := Option.bind_eq_some_iff.mp h
    cases h
    obtain ⟨built, rfl, rfl⟩ := ih hrest
    exact ⟨op :: built, rfl, rfl⟩

/-- What a rule of the file is like. -/
structure FromFile (r : Rule) : Prop where
  wellFormed : r.WellFormed
  exts : ∀ opx ∈ r.dstOps, ∀ idx, .ext idx ∈ opx.inputs → ∃ opx' ∈ r.srcOps, .ext idx ∈ opx'.inputs
  sources : ∀ k idx d, r.mappedOutput k idx = some d → k < r.srcOps.length
  srcBuilt : ∀ opx ∈ r.srcOps, Built opx.inputs opx
  dstBuilt : ∀ opx ∈ r.dstOps, Built opx.inputs opx

theorem readMapOutput_ok {srcOps dstOps : List (Option XferOp)}
    {mapped mapped' : List ((Nat × Nat) × (Nat × Nat))} {m : PbMapOutput}
    (h : readMapOutput srcOps dstOps mapped m = .ok mapped')
    (hmapped : ∀ entry ∈ mapped, entry.1.1 < srcOps.length ∧ entry.2.1 < dstOps.length) :
    ∀ entry ∈ mapped', entry.1.1 < srcOps.length ∧ entry.2.1 < dstOps.length := by
  obtain ⟨_, -, h⟩ := bind_ok_iff.mp h
  obtain ⟨_, -, h⟩ := bind_ok_iff.mp h
  obtain ⟨⟨k, src⟩, hsrc, h⟩ := bind_ok_iff.mp h
  obtain ⟨_, -, h⟩ := bind_ok_iff.mp h
  obtain ⟨⟨j, dst⟩, hdst, h⟩ := bind_ok_iff.mp h
  obtain ⟨_, -, h⟩ := bind_ok_iff.mp h
  obtain ⟨_, -, h⟩ := bind_ok_iff.mp h
  obtain ⟨_, -, h⟩ := bind_ok_iff.mp h
  cases h
  intro entry hentry
  rcases List.mem_cons.mp hentry with rfl | hentry
  · exact ⟨(operatorAt_ok hsrc).1, (operatorAt_ok hdst).1⟩
  · exact hmapped entry (List.mem_of_mem_filter hentry)

/-- The operators of a side that was built as a whole. -/
theorem Side.opxs {isSrcOp : Bool} {ext₀ ext : Externals} {built : List XferOp}
    (h : Side isSrcOp ext₀ (built.map some) ext) :
    (∀ (k : Nat) opx, (built.map XferOp.opx)[k]? = some opx →
      ∀ j idx, .out j idx ∈ opx.inputs → j < k) ∧
    ∀ opx ∈ built.map XferOp.opx, Built opx.inputs opx ∧
      ∀ idx, .ext idx ∈ opx.inputs → ∃ id, (id, idx) ∈ ext.mapped := by
  refine ⟨fun k opx hk => ?_, fun opx hopx => ?_⟩
  · rw [List.getElem?_map] at hk
    obtain ⟨op, hop, rfl⟩ := Option.map_eq_some_iff.mp hk
    refine h.before k op ?_
    rw [List.getElem?_map, hop]
    rfl
  · obtain ⟨op, hop, rfl⟩ := List.mem_map.mp hopx
    have hmem := List.mem_map_of_mem (f := some) hop
    exact ⟨h.built op hmem, h.bound op hmem⟩

theorem fromFile_of_loadRule {pb : PbRule} {x : Loaded} {r : Rule} (h : loadRule pb = .ok x)
    (hr : x.rule = some r) : FromFile r := by
  obtain ⟨⟨srcOps, ext⟩, hsrc, h⟩ := bind_ok_iff.mp h
  obtain ⟨⟨dstOps, ext'⟩, hdst, h⟩ := bind_ok_iff.mp h
  obtain ⟨mapped, houtputs, h⟩ := bind_ok_iff.mp h
  cases h
  obtain ⟨srcOpxs, hsrcOpxs, hr⟩ := Option.bind_eq_some_iff.mp hr
  obtain ⟨dstOpxs, hdstOpxs, hr⟩ := Option.bind_eq_some_iff.mp hr
  cases hr
  obtain ⟨src, rfl, rfl⟩ := allBuilt_eq hsrcOpxs
  obtain ⟨dst, rfl, rfl⟩ := allBuilt_eq hdstOpxs
  have hsrc := loadSide_ok hsrc
  have hdst := loadSide_ok hdst
  have hmapped : ∀ entry ∈ mapped, entry.1.1 < src.length ∧ entry.2.1 < dst.length := by
    have h := foldlM_keeps (P := fun mapped : List ((Nat × Nat) × (Nat × Nat)) =>
      ∀ entry ∈ mapped, entry.1.1 < (src.map some).length ∧ entry.2.1 < (dst.map some).length)
      (fun m _ _ _ hst hstep => readMapOutput_ok hstep hst) (fun _ h => (by cases h)) houtputs
    simpa only [List.length_map] using h
  have hentry : ∀ k idx d, Rule.mappedOutput ⟨src.map XferOp.opx, dst.map XferOp.opx, mapped⟩ k idx
      = some d → k < src.length ∧ d.1 < dst.length := by
    intro k idx d hd
    obtain ⟨entry, hfind, rfl⟩ := Option.map_eq_some_iff.mp hd
    have hkey : entry.1 = (k, idx) := by simpa using List.find?_some hfind
    have hlt := hmapped entry (List.mem_of_find?_eq_some hfind)
    rwa [hkey] at hlt
  obtain ⟨hsrcBefore, hsrcOps⟩ := hsrc.opxs
  obtain ⟨hdstBefore, hdstOps⟩ := hdst.opxs
  refine ⟨⟨hsrcBefore, hdstBefore, fun k idx d hd => ?_, fun opx hopx => ?_⟩,
    fun opx hopx idx hmem => ?_, fun k idx d hd => ?_, fun opx hopx => (hsrcOps opx hopx).1,
    fun opx hopx => (hdstOps opx hopx).1⟩
  · rw [List.length_map]
    exact (hentry k idx d hd).2
  · have htype := (hsrcOps opx hopx).1.type
    exact ⟨fun heq => absurd (heq ▸ htype) (by decide), fun heq => absurd (heq ▸ htype) (by decide)⟩
  · -- the target side makes no external tensors, and the source side has no `None`
    obtain ⟨id, hid⟩ := (hdstOps opx hopx).2 idx hmem
    have hid := (hdst.origin _ hid).resolve_right fun h => (by cases h.1)
    rcases hsrc.origin _ hid with h | ⟨-, hnone | ⟨op, hop, hin⟩⟩
    · cases h
    · obtain ⟨_, -, h⟩ := List.mem_map.mp hnone
      cases h
    · obtain ⟨op', hop', heq⟩ := List.mem_map.mp hop
      cases heq
      exact ⟨op.opx, List.mem_map_of_mem hop', hin⟩
  · rw [List.length_map]
    exact (hentry k idx d hd).1

/-- The rules that were loaded, by their positions in the file. -/
theorem loadGraphXferFromPbFile_ok {rules : List PbRule} {xs : List Loaded}
    (h : loadGraphXferFromPbFile rules = .ok xs) :
    xs.length = 133 ∧
      ∀ (i : Nat) x, xs[i]? = some x → ∃ pb, rules[i]? = some pb ∧ loadRule pb = .ok x := by
  obtain ⟨hlen, hall⟩ := mapM_entries h
  rw [List.length_range] at hlen
  refine ⟨hlen, fun i x hx => ?_⟩
  obtain ⟨j, hj, hload⟩ := hall i x hx
  obtain ⟨hlt, rfl⟩ := List.getElem?_eq_some_iff.mp hj
  rw [List.getElem_range] at hload
  cases hpb : rules[i]? with
  | none =>
    rw [hpb] at hload
    cases hload
  | some pb =>
    rw [hpb] at hload
    exact ⟨pb, rfl, hload⟩

/-- **What the loader accepts is well formed**: the file has at least 133 rules and the first 133 are
loaded. Where all operators of a rule were built, their inputs name earlier ones of their side, the
mapped outputs operators of the two sides, and the target side only has external tensors of the
source side. -/
theorem loadGraphXferFromPbFile_wellFormed (rules : List PbRule) (xs : List Loaded)
    (h : loadGraphXferFromPbFile rules = .ok xs) :
    133 ≤ rules.length ∧ xs.length = 133 ∧ ∀ (i : Nat) x r, xs[i]? = some x → x.rule = some r →
      (∃ pb, rules[i]? = some pb ∧ loadRule pb = .ok x) ∧ r.WellFormed ∧
        (∀ k idx d, r.mappedOutput k idx = some d → k < r.srcOps.length) ∧
        ∀ opx ∈ r.dstOps, ∀ idx, .ext idx ∈ opx.inputs →
          ∃ opx' ∈ r.srcOps, .ext idx ∈ opx'.inputs := by
  obtain ⟨hlen, hall⟩ := loadGraphXferFromPbFile_ok h
  refine ⟨?_, hlen, fun i x r hx hr => ?_⟩
  · -- the last rule that is read is at position 132
    have hlast : xs[132]? = some xs[132] := List.getElem?_eq_getElem (by omega)
    obtain ⟨pb, hpb, -⟩ := hall 132 _ hlast
    exact (List.getElem?_eq_some_iff.mp hpb).1
  · obtain ⟨pb, hpb, hload⟩ := hall i x hx
    have hfile := fromFile_of_loadRule hload hr
    exact ⟨⟨pb, hpb, hload⟩, hfile.wellFormed, hfile.sources, hfile.exts⟩

-- `x + y` becomes `y + x`, with the source operator named from the end
def commAdd : PbRule where
  srcOp := [⟨16, [⟨-1, 0⟩, ⟨-2, 0⟩], []⟩]
  dstOp := [⟨16, [⟨-2, 0⟩, ⟨-1, 0⟩], []⟩]
  mappedOutput := [⟨-1, 0, 0, 0⟩]

theorem loadGraphXferFromPbFile_commAdd : ∃ xs x,
    loadGraphXferFromPbFile (List.replicate 133 commAdd) = .ok xs ∧ xs[132]? = some x ∧
      x.rule = some swapAdd ∧ swapAdd.WellFormed := by
  have hload : loadGraphXferFromPbFile (List.replicate 133 commAdd) = .ok _ :=
    mapM_eq_ok_map (f := fun _ => ⟨swapAdd.srcOps.map fun opx => some ⟨opx, 1⟩,
      swapAdd.dstOps.map fun opx => some ⟨opx, 1⟩, swapAdd.mappedOutputs⟩) fun i hi => by
        rw [List.getElem?_replicate_of_lt (List.mem_range.mp hi)]
        rfl
  have hlast := loadGraphXferFromPbFile_wellFormed _ _ hload
  exact ⟨_, _, hload, rfl, rfl, (hlast.2.2 132 _ swapAdd rfl rfl).2.1⟩

end RuleLoader

end Peps
