import Peps.Dbocg.Substitution

/-!
# `nudf.py` — a query for a graph

`nUDF.export` goes through the operators of a graph in topological order, all but the last, and
writes a common table expression (CTE) for most of them. It calls the relations after the operators
they come from. Operators that the query leaves out are replaced: a bias (the sum with a reshaped
vector) and a transposition are entered in `skip_nodes` under the name they would have had, and some
operators look their operands up there, once. A reshape to anything but two dimensions is left out
and entered nowhere.

The text of the query is `Exported.text`; everything that is proved about it is proved about its
parts, the CTEs with the commands they consist of. The numbers in the weight arrays are not modelled:
`weights` says which array goes to which table.
-/

namespace Peps

open Lib

/-! ## Names -/

/-- `op_table`. -/
def opTable : OpType → Option String
  | .OP_INPUT => some "Input"
  | .OP_WEIGHT => some "Weight"
  | .OP_CONV2D => some "Conv"
  | .OP_DROPOUT => some "Dropout"
  | .OP_POOL2D_MAX => some "MaxPool"
  | .OP_POOL2D_AVG => some "AveragePool"
  | .OP_RELU => some "Relu"
  | .OP_SIGMOID => some "Sigmoid"
  | .OP_TANH => some "Tanh"
  | .OP_BATCHNORM => some "BatchNormalization"
  | .OP_CONCAT => some "Concat"
  | .OP_SPLIT => some "Split"
  | .OP_RESHAPE => some "Reshape"
  | .OP_TRANSPOSE => some "Transpose"
  | .OP_EW_ADD => some "Add"
  | .OP_EW_MUL => some "Mul"
  | .OP_MATMUL => some "MatMul"
  | .OP_SQUEEZE => some "Squeeze"
  | .OP_UNSQUEEZE => some "Unsqueeze"
  | .OP_EW_SUB => some "Sub"
  | .OP_EW_DIV => some "Div"
  | .OP_EW_EQUAL => some "Equal"
  | .OP_EW_GREATER => some "Greater"
  | .OP_EW_LESS => some "Less"
  | .OP_EW_MAX => some "Max"
  | .OP_EW_MIN => some "Min"
  | .OP_REDUCE_ARGMAX => some "ArgMax"
  | .OP_REDUCE_ARGMIN => some "ArgMin"
  | .OP_REDUCE_MAX => some "ReduceMax"
  | .OP_REDUCE_MEAN => some "ReduceMean"
  | .OP_REDUCE_MIN => some "ReduceMin"
  | .OP_REDUCE_PROD => some "ReduceProd"
  | .OP_REDUCE_SUM => some "ReduceSum"
  | .OP_PAD => some "Pad"
  | .OP_SHAPE => some "Shape"
  | .OP_SIZE => some "Size"
  | .OP_TOPK => some "TopK"
  | .OP_WHERE => some "Where"
  | .OP_CEIL => some "Ceil"
  | .OP_CAST => some "Cast"
  | .OP_EXP => some "Exp"
  | .OP_ROUND => some "Round"
  | .OP_LOG => some "Log"
  | .OP_LOGICAL_NOT => some "Not"
  | .OP_SQRT => some "Sqrt"
  | .OP_SLICE => some "Slice"
  | .OP_RESIZE => some "Resize"
  | .OP_BROADCAST_ADD => some "Add"
  | _ => none

/-- `input_weight_names`. -/
def inputWeightNames : String → Option (List String)
  | "Add" => some ["input1", "input2"]
  | "AveragePool" => some ["input"]
  | "BatchNormalization" => some ["input", "scale", "bias", "mean", "var"]
  | "Concat" => some ["input1", "input2", "input3", "input4", "input5", "input6"]
  | "Conv" => some ["input", "weight", "bias"]
  | "MatMul" => some ["input", "weight"]
  | "Mul" => some ["input1", "input2"]
  | "Reshape" => some ["input", "shape"]
  | "BroadcastAdd" => some ["input1", "input2"]
  | "Transpose" => some ["input"]
  | _ => none

/-- A look-up that raises `e` when there is nothing. -/
def lookupOr {α : Type} (e : PyError) : Option α → Except PyError α
  | none => .error e
  | some a => .ok a

/-- `get_operator_type`. -/
def getOperatorType (op : Op) : Except PyError String := do
  let p ← op.body
  lookupOr .assertionError (opTable p.type)

/-- `_output_tensor_name`. -/
def outputTensorName (op : Op) (idx : Nat) : Except PyError String := do
  let op_type ← getOperatorType op
  return op_type ++ toString op.guid ++ "_fwd" ++ toString idx

def inputFeatureMap : String := "input_feature_map"

/-- `_input_tensor_name`. -/
def inputTensorName (inedge : Edge) (op : Op) : Except PyError String := do
  let intype ← getOperatorType inedge.srcOp
  if intype = "Input" then return inputFeatureMap
  else if intype = "Weight" then do
    let mytype ← getOperatorType op
    let names ← lookupOr .keyError (inputWeightNames mytype)
    let name ← lookupOr .indexError names[inedge.dstIdx]?
    return mytype ++ toString op.guid ++ "_" ++ name
  else outputTensorName inedge.srcOp inedge.srcIdx

/-! ## Attributes -/

/-- `assert op.ptr.get_int_parameter(para, value)`. -/
def intParameter (p : OpBase) (para : PMParameter) : Except PyError Int := do
  let value ← p.getIntParameter para
  let cell ← pyUnwrap value
  asInt cell

/-- `get_operator_attr(op, "kernel_shape")`; both numbers are the height. -/
def kernelShape (op : Op) : Except PyError (List Int) := do
  let p ← op.body
  let kh ← intParameter p .PM_KERNEL_H
  let kw ← intParameter p .PM_KERNEL_H
  return [kh, kw]

/-- `get_operator_attr(op, "strides")`. -/
def strides (op : Op) : Except PyError (List Int) := do
  let p ← op.body
  let sh ← intParameter p .PM_STRIDE_H
  let sw ← intParameter p .PM_STRIDE_W
  return [sh, sw]

/-- `get_input_dims`. -/
def getInputDims (op : Op) (idx : Nat) : Except PyError (List Int) := do
  let p ← op.body
  pyAssert (p.numInputs > idx)
  return (p.inputAt idx).dims

/-- `get_output_dims`. -/
def getOutputDims (op : Op) (idx : Nat) : Except PyError (List Int) := do
  let p ← op.body
  pyAssert (p.numOutputs > idx)
  return (p.outputs.getD idx Tensor.empty).dims

-- the padding of one axis, made even
def padExtent (extent kernel stride : Int) : Except PyError Int := do
  let r ← pyMod extent stride
  let pad := if r = 0 then max (kernel - stride) 0 else max (kernel - r) 0
  return if pad % 2 = 1 then pad + 1 else pad

/-- `get_operator_attr(op, "pads")`. -/
def pads (op : Op) : Except PyError (List Int) := do
  let p ← op.body
  let value ← p.getIntParameter .PM_PAD
  let cell ← pyUnwrap value
  let pm ← asPadding cell
  match pm with
  | .PD_MODE_VALID => return [0, 0, 0, 0]
  | .PD_MODE_SAME => do
      let dims ← getInputDims op 0
      pyAssert (dims.length = 4)
      let kh ← intParameter p .PM_KERNEL_H
      let kw ← intParameter p .PM_KERNEL_H
      let sh ← intParameter p .PM_STRIDE_H
      let sw ← intParameter p .PM_STRIDE_W
      let padH ← padExtent (dims.getD 2 0) kh sh
      let padW ← padExtent (dims.getD 3 0) kw sw
      return [padH / 2, padW / 2, padH - padH / 2, padW - padW / 2]

/-- `get_weight_value`, the array it names. -/
def getWeightValue (op : Op) : Except PyError Nat := do
  let p ← op.body
  pyAssert (p.type = .OP_WEIGHT)
  pyAssert (p.numInputs = 1)
  pyAssert (p.numOutputs = 1)
  pyUnwrap (p.inputAt 0).data_ptr

/-! ## Queries -/

/-- What a CTE consists of. -/
inductive Command where
  | kfmInit (input weight : String)
  | kfm (input weight : String) (kernel padding stride : Int)
  | relu (input : String)
  | madd (input1 input2 : String)
  | mvm (input weight : String)
  | avgpool (input : String) (kernel : Int)
  | unnest (input : String)
deriving DecidableEq

namespace Command

/-- The relations of the `FROM` and `JOIN` clauses. -/
def relations : Command → List String
  | kfmInit input weight => [input, weight]
  | kfm input weight _ _ _ => [input, weight]
  | relu input => [input]
  | madd input1 input2 => [input1, input2]
  | mvm input weight => [input, weight]
  | avgpool input _ => [input]
  | unnest input => [input]

/-- `exe_cmd`. -/
def text : Command → String
  | kfmInit input weight =>
      "SELECT id, kfm(W.val, I.value) AS value\n\tFROM " ++ input ++ " I, " ++ weight ++ " W"
  | kfm input weight kernel padding stride =>
      "SELECT id, kfm(W.val, im2col(I.value, kernel:=" ++ toString kernel ++ ", padding:=" ++
        toString padding ++ ", stride:=" ++ toString stride ++ ")) AS value\n\tFROM " ++ input ++
        " I, " ++ weight ++ " W"
  | relu input => "SELECT id, relu(I.value) AS value\n\tFROM " ++ input ++ " I"
  | madd input1 input2 =>
      "SELECT I1.id, madd(I1.value, I2.value) AS value\n\tFROM " ++ input1 ++
        " I1\n\tINNER JOIN " ++ input2 ++ " I2 on I1.id=I2.id"
  | mvm input weight =>
      "SELECT id, mvm(W.val, I.value) AS value\n\tFROM " ++ input ++ " I, " ++ weight ++ " W"
  | avgpool input kernel =>
      "SELECT id, avgpool(I.value, kernel:=" ++ toString kernel ++ ") AS value\n\tFROM " ++ input ++
        " I"
  | unnest input =>
      "SELECT id, array_agg(t.value) as value\n\tFROM (SELECT id, unnest(I.value) as value FROM " ++
        input ++ " I) AS t\n\tGROUP BY id"

end Command

structure Cte where
  name : String
  command : Command
deriving DecidableEq

/-- What `export` makes: the CTEs after `input_feature_map`, the relation the final `SELECT` reads,
and the arrays for the weight tables. -/
structure Exported where
  ctes : List Cte
  result : String
  weights : String → Option Nat

/-- `nudf_body`. -/
def Exported.text (q : Exported) : String :=
  "WITH\n  input_feature_map AS (\n\tSELECT id, im2col_init(c.image) AS value\n\t)" ++
    String.join (q.ctes.map fun c =>
      ",\n  " ++ c.name ++ " AS (\n\t" ++ c.command.text ++ "\n\t)") ++
    "\nSELECT l.name AS res FROM\ncifar10_labels l\nJOIN (\n\tSELECT argmax(value) AS label FROM " ++
    q.result ++ ") t\n\tON t.label = l.label"

/-! ## `export` -/

/-- The variables of the loop. -/
structure ExportState where
  ctes : List Cte
  skip_nodes : String → Option String
  output_guids : List ((Nat × Nat) × Op)
  weights : String → Option Nat

def ExportState.start : ExportState := ⟨[], fun _ => none, [], fun _ => none⟩

-- `d[k] = v` and `d.pop(k, None)` on a dictionary, whose keys stand in the order of insertion
def dictSet (d : List ((Nat × Nat) × Op)) (k : Nat × Nat) (v : Op) : List ((Nat × Nat) × Op) :=
  if d.any fun entry => entry.1 = k then d.map fun entry => if entry.1 = k then (k, v) else entry
  else d ++ [(k, v)]

def dictPop (d : List ((Nat × Nat) × Op)) (k : Nat × Nat) : List ((Nat × Nat) × Op) :=
  d.filter fun entry => entry.1 ≠ k

/-- `weight_val.reshape(weight_val.shape[0], -1)` for the array of a weight operator, which has the
dims of its tensor; numpy cannot tell how long zero rows are. -/
def flattenRows (op : Op) (weight_val : Nat) : Except PyError Nat := do
  let p ← op.body
  if (p.inputAt 0).dimAt 0 = 0 then .error .valueError else .ok weight_val

/-- One round of the loop over the in-edges. -/
def readInput (op : Op) (mytype : String) (s : ExportState × List String) (cell : Option Edge) :
    Except PyError (ExportState × List String) := do
  let e ← lookupOr .attributeError cell
  let intype ← getOperatorType e.srcOp
  let in_name ← inputTensorName e op
  let inputs := s.2 ++ [in_name]
  let s := { s.1 with output_guids := dictPop s.1.output_guids (e.srcOp.guid, e.srcIdx) }
  if intype = "Weight" then do
    let _ ← getInputDims op e.dstIdx
    let weight_val ← getWeightValue e.srcOp
    if mytype = "Conv" ∨ mytype = "Transpose" then do
      let weight_val ← flattenRows e.srcOp weight_val
      return ({ s with weights := Function.update s.weights in_name (some weight_val) }, inputs)
    else return (s, inputs)
  else return (s, inputs)

/-- One round of the loop over the outputs. -/
def writeOutput (op : Op) (s : ExportState × List String) (i : Nat) :
    Except PyError (ExportState × List String) := do
  let name ← outputTensorName op i
  return ({ s.1 with output_guids := dictSet s.1.output_guids (op.guid, i) op }, s.2 ++ [name])

/-- `skip_nodes.get(name, name)`. -/
def resolve (skip_nodes : String → Option String) (name : String) : String :=
  (skip_nodes name).getD name

/-- `name.startswith(start)`. -/
def pyStartswith (name start : String) : Bool := start.toList.isPrefixOf name.toList

/-- The command of an operator, `none` for an empty one, and `skip_nodes` after it. -/
def exportCommand (op : Op) (mytype : String) (inputs : List String)
    (skip_nodes : String → Option String) :
    Except PyError (Option Command × (String → Option String)) :=
  match mytype with
  | "Conv" => do
      let kernels ← kernelShape op
      let strides ← strides op
      let paddings ← pads op
      let input ← lookupOr .indexError inputs[0]?
      let weight ← lookupOr .indexError inputs[1]?
      if input = inputFeatureMap then return (some (.kfmInit input weight), skip_nodes)
      else return (some (.kfm input weight (kernels.getD 0 0) (paddings.getD 0 0)
        (strides.getD 0 0)), skip_nodes)
  | "Relu" => do
      let input ← lookupOr .indexError inputs[0]?
      return (some (.relu (resolve skip_nodes input)), skip_nodes)
  | "Add" => do
      let input2 ← lookupOr .indexError inputs[1]?
      let input1 ← lookupOr .indexError inputs[0]?
      if pyStartswith input2 "Reshape" then do
        let name ← outputTensorName op 0
        return (none, Function.update skip_nodes name (some input1))
      else
        return (some (.madd (resolve skip_nodes input1) (resolve skip_nodes input2)), skip_nodes)
  | "MatMul" => do
      let weight ← lookupOr .indexError inputs[1]?
      let input ← lookupOr .indexError inputs[0]?
      return (some (.mvm input (resolve skip_nodes weight)), skip_nodes)
  | "AveragePool" => do
      let kernels ← kernelShape op
      let input ← lookupOr .indexError inputs[0]?
      return (some (.avgpool input (kernels.getD 0 0)), skip_nodes)
  | "Reshape" => do
      let shape ← getOutputDims op 0
      if shape.length ≠ 2 then return (none, skip_nodes)
      let input ← lookupOr .indexError inputs[0]?
      return (some (.unnest input), skip_nodes)
  | "Transpose" => do
      let input ← lookupOr .indexError inputs[0]?
      let name ← outputTensorName op 0
      return (none, Function.update skip_nodes name (some input))
  | _ => .ok (none, skip_nodes)

/-- The body of the loop over the operators. -/
def exportOp (g : Graph) (s : ExportState) (op : Op) : Except PyError ExportState := do
  let mytype ← getOperatorType op
  let inedges ← g.getInputEdges op
  let (s, inputs) ← inedges.foldlM (readInput op mytype) (s, [])
  let p ← op.body
  let (s, outputs) ← (List.range p.numOutputs).foldlM (writeOutput op) (s, [])
  let (command, skip_nodes) ← exportCommand op mytype inputs s.skip_nodes
  match command with
  | none => return { s with skip_nodes := skip_nodes }
  | some command => do
      let name ← lookupOr .indexError outputs[0]?
      return { s with skip_nodes := skip_nodes, ctes := s.ctes ++ [⟨name, command⟩] }

/-- `nUDF.export`; deleting the last operator of an empty list raises. -/
def exportQuery (g : Graph) : Except PyError Exported := do
  let (opList, g) ← g.getOperatorList
  if opList = [] then .error .indexError
  else do
    let s ← opList.dropLast.foldlM (exportOp g) ExportState.start
    let graph_outputs ← s.output_guids.mapM fun entry => outputTensorName entry.2 entry.1.2
    let result ← lookupOr .indexError graph_outputs[0]?
    return ⟨s.ctes, result, s.weights⟩

end Peps
