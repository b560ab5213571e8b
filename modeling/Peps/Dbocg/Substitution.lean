import Peps.Dbocg.GraphOrder

/-!
# `substitution.py` — rewrite rules and the search for their matches

A rule has source and target operators. Their inputs are external tensors, which the match binds,
or outputs of operators of the same side, named here by their position in its list. `run` looks for
all ways to map the source operators to operators of a graph; at each complete one it creates the
target operators, rebuilds the graph and keeps it if it is worth it.

`match` and `unmatch` work on one shared state (`Matching`). What `run` does at a complete match
works on another (`Leaf`): the `Model`, the target operators and the candidates. The
state also records the complete matches that were reached.
-/

namespace Peps

open Lib

/-! ## Constraints -/

inductive Compare where
  | COMPARE_EQ | COMPARE_NE | COMPARE_LT | COMPARE_LE | COMPARE_GT | COMPARE_GE
deriving DecidableEq

/-- The comparisons of `pmcSwitch` and `tncSwitch`; only numbers are ordered. -/
def Compare.holds (comp : Compare) (act exp : KeyCell) : Except PyError Bool :=
  match comp, act, exp with
  | .COMPARE_EQ, a, b => .ok (decide (a = b))
  | .COMPARE_NE, a, b => .ok (decide (a ≠ b))
  | .COMPARE_LT, .int a, .int b => .ok (decide (a < b))
  | .COMPARE_LE, .int a, .int b => .ok (decide (a ≤ b))
  | .COMPARE_GT, .int a, .int b => .ok (decide (a > b))
  | .COMPARE_GE, .int a, .int b => .ok (decide (a ≥ b))
  | _, _, _ => .error .typeError

structure PMConstraint where
  comp : Compare
  para : PMParameter
  value : KeyCell
deriving DecidableEq

/-- `TNConstraint`. Its constructor never sets `singlePara`; a constraint with a number has that
number where the second tensor should stand, which no operator knows (`none`). -/
structure TNConstraint where
  comp : Compare
  para1 : TNParameter
  dim1 : DIMParameter
  para2 : Option TNParameter
  dim2 : Option DIMParameter
deriving DecidableEq

namespace OpBase

/-- `OpBase.get_int_parameter`. -/
def baseParameter (p : OpBase) : PMParameter → Option KeyCell
  | .PM_OP_TYPE => some (.opType p.type)
  | .PM_NUM_INPUTS => some (.int p.numInputs)
  | .PM_NUM_OUTPUTS => some (.int p.numOutputs)
  | _ => none

def inputAt (p : OpBase) (i : Nat) : Tensor := p.inputs.getD i Tensor.empty

/-- `get_int_parameter` of the subclass; `none` where it returns `False`. -/
def getIntParameter (p : OpBase) (para : PMParameter) : Except PyError (Option KeyCell) :=
  match p.params, para with
  | .conv2d _ _ _ _, .PM_GROUP => do
      let r ← pyMod ((p.inputAt 0).dimAt 1) ((p.inputAt 1).dimAt 1)
      pyAssert (r = 0)
      let q ← pyFloorDiv ((p.inputAt 0).dimAt 1) ((p.inputAt 1).dimAt 1)
      return some (.int q)
  | .conv2d _ _ _ _, .PM_KERNEL_H => .ok (some (.int ((p.inputAt 1).dimAt 2)))
  | .conv2d _ _ _ _, .PM_KERNEL_W => .ok (some (.int ((p.inputAt 1).dimAt 3)))
  | .conv2d strideH _ _ _, .PM_STRIDE_H => .ok (some (.int strideH))
  | .conv2d _ strideW _ _, .PM_STRIDE_W => .ok (some (.int strideW))
  | .conv2d _ _ padding _, .PM_PAD => .ok (some (.padding padding))
  | .conv2d _ _ _ activation, .PM_ACTI => .ok (some (.acti activation))
  | .pool2d kernelH _ _ _ _ _, .PM_KERNEL_H => .ok (some (.int kernelH))
  | .pool2d _ kernelW _ _ _ _, .PM_KERNEL_W => .ok (some (.int kernelW))
  | .pool2d _ _ strideH _ _ _, .PM_STRIDE_H => .ok (some (.int strideH))
  | .pool2d _ _ _ strideW _ _, .PM_STRIDE_W => .ok (some (.int strideW))
  | .pool2d _ _ _ _ padding _, .PM_PAD => .ok (some (.padding padding))
  | .pool2d _ _ _ _ _ activation, .PM_ACTI => .ok (some (.acti activation))
  | .matmul activation, .PM_ACTI => .ok (some (.acti activation))
  | .transpose _ _, .PM_NUMDIM => .ok (some (.int p.output.numDim))
  | .transpose permIdx _, .PM_PERM => .ok (some (.int permIdx))
  | .transpose _ shuffle, .PM_OUTSHUFFLE => .ok (some (.int shuffle.toNat))
  | _, para => .ok (p.baseParameter para)

/-- `get_input_parameter`; every input after the first is looked up as input 1, and every
dimension after the first as dimension 1. -/
def getInputParameter (p : OpBase) (tnp : Option TNParameter) (dim : Option DIMParameter) :
    Option Int :=
  let inputIdx : Option Nat :=
    match tnp with
    | some .IN_0 => some 0
    | some .IN_1 | some .IN_2 | some .IN_3 | some .IN_4 | some .IN_5 => some 1
    | _ => none
  match inputIdx with
  | none => none
  | some i =>
      if p.numInputs ≤ i then none
      else
        match dim with
        | none => none
        | some .DIM_ND => some (p.inputAt i).numDim
        | some .DIM_0 => if (p.inputAt i).numDim ≤ 0 then none else some ((p.inputAt i).dimAt 0)
        | some _ => if (p.inputAt i).numDim ≤ 1 then none else some ((p.inputAt i).dimAt 1)

/-- `outputs[i]`; the list has `MAX_NUM_OUTPUTS` cells. -/
def outputAt (p : OpBase) (i : Nat) : Except PyError Tensor :=
  if i < MAX_NUM_OUTPUTS then .ok (p.outputs.getD i Tensor.empty) else .error .indexError

end OpBase

/-- `assert value is not None`, keeping the value. -/
def pyUnwrap {α : Type} (x : Option α) : Except PyError α :=
  match x with
  | none => .error .assertionError
  | some a => .ok a

/-- `op.ptr`, where an attribute of it is read. -/
def Op.body (op : Op) : Except PyError OpBase :=
  match op.ptr with
  | none => .error .attributeError
  | some p => .ok p

/-- A loop that returns `False` at the first test that fails. -/
def allM {α : Type} (test : α → Except PyError Bool) : List α → Except PyError Bool
  | [] => .ok true
  | x :: xs => do
      let ok ← test x
      if ok then allM test xs else .ok false

def checkPmConstraint (op : Op) (pmc : PMConstraint) : Except PyError Bool := do
  let p ← op.body
  let value ← p.getIntParameter pmc.para
  let act ← pyUnwrap value
  pmc.comp.holds act pmc.value

/-- `check_tnConstraints`. -/
def checkTnConstraint (op : Op) (tnc : TNConstraint) : Except PyError Bool := do
  let p ← op.body
  let act ← pyUnwrap (p.getInputParameter (some tnc.para1) (some tnc.dim1))
  let exp ← pyUnwrap (p.getInputParameter tnc.para2 tnc.dim2)
  tnc.comp.holds (.int act) (.int exp)

/-! ## Rules -/

/-- `TensorX`: an external tensor, or output `idx` of operator `op` of the rule's side. -/
inductive TensorX where
  | ext (idx : Nat)
  | out (op idx : Nat)
deriving DecidableEq

structure OpX where
  type : OpType
  inputs : List TensorX
  pmConstraints : List PMConstraint
  tnConstraints : List TNConstraint
deriving DecidableEq

/-- The rule part of `GraphXfer`. `mappedOutputs` maps outputs of source operators to outputs of
target operators. -/
structure Rule where
  srcOps : List OpX
  dstOps : List OpX
  mappedOutputs : List ((Nat × Nat) × (Nat × Nat))

/-- The part of `GraphXfer` that `match` and `unmatch` change. -/
structure Matching where
  mapOp : Nat → Op
  mappedOps : SortedMap Op.guid Nat
  mappedInputs : Nat → Option (List (Op × Nat))

namespace Matching

/-- A new `GraphXfer`. -/
def start : Matching := ⟨fun _ => Op.invalid, SortedMap.empty, fun _ => none⟩

end Matching

/-! ## `can_match`, `match`, `unmatch` -/

/-- `self.mappedInputs[idx][0]`. -/
def firstBinding (bindings : List (Op × Nat)) : Except PyError (Op × Nat) :=
  match bindings with
  | [] => .error .indexError
  | b :: _ => .ok b

/-- The in-edges of `op` in slot `i`, as bindings. -/
def slotSources (g : Graph) (op : Op) (i : Nat) : List (Op × Nat) :=
  ((g.ins op).filter fun e => e.dstIdx = i).map fun e => (e.srcOp, e.srcIdx)

/-- The loop over the inputs of `can_match`; `bound` is `newMapInputs`. `run` only asks about
operators that are keys of `inEdges`, so no look-up creates an entry. -/
def inputsMatch (s : Matching) (g : Graph) (op : Op) :
    List (TensorX × Nat) → (Nat → Option (Op × Nat)) → Except PyError Bool
  | [], _ => .ok true
  | (.ext idx, i) :: rest, bound =>
      match s.mappedInputs idx with
      | some bindings => do
          let b ← firstBinding bindings
          if g.hasEdge b.1 op b.2 i then inputsMatch s g op rest bound else .ok false
      | none =>
        match bound idx with
        | some b => if g.hasEdge b.1 op b.2 i then inputsMatch s g op rest bound else .ok false
        | none =>
            match (slotSources g op i).getLast? with
            | some b => inputsMatch s g op rest (Function.update bound idx (some b))
            | none => inputsMatch s g op rest bound
  | (.out k idx, i) :: rest, bound => do
      pyAssert ((s.mapOp k).ptr ≠ none)
      if g.hasEdge (s.mapOp k) op idx i then inputsMatch s g op rest bound else .ok false

/-- `can_match`. -/
def canMatch (s : Matching) (g : Graph) (srcOp : OpX) (op : Op) : Except PyError Bool := do
  let p ← op.body
  if srcOp.type ≠ p.type then return false
  if srcOp.inputs.length ≠ p.numInputs then return false
  let pmcs ← allM (checkPmConstraint op) srcOp.pmConstraints
  if pmcs = false then return false
  let inputs ← inputsMatch s g op srcOp.inputs.zipIdx fun _ => none
  if inputs = false then return false
  allM (checkTnConstraint op) srcOp.tnConstraints

/-- `self.mappedInputs[idx].append(…)` for one input; a missing key starts with an empty list,
and is not created when there is nothing to append. -/
def appendBindings (inputs : Nat → Option (List (Op × Nat))) (idx : Nat)
    (sources : List (Op × Nat)) : Nat → Option (List (Op × Nat)) :=
  if sources = [] then inputs
  else Function.update inputs idx (some ((inputs idx).getD [] ++ sources))

def bindInputs (g : Graph) (op : Op) (inputs : Nat → Option (List (Op × Nat))) :
    List (TensorX × Nat) → Nat → Option (List (Op × Nat))
  | [] => inputs
  | (.ext idx, i) :: rest => bindInputs g op (appendBindings inputs idx (slotSources g op i)) rest
  | (.out _ _, _) :: rest => bindInputs g op inputs rest

/-- `match(srcOp, op, graph)`, for the source operator at position `depth`. -/
def matchOp (s : Matching) (g : Graph) (depth : Nat) (srcOp : OpX) (op : Op) :
    Except PyError Matching :=
  if h : ∀ k ∈ s.mappedOps.keys, k.guid ≠ op.guid then
    .ok { mapOp := Function.update s.mapOp depth op
          mappedOps := s.mappedOps.insertNew op depth h
          mappedInputs := bindInputs g op s.mappedInputs srcOp.inputs.zipIdx }
  else .error .typeError

def unbindInputs (inputs : Nat → Option (List (Op × Nat))) :
    List TensorX → Except PyError (Nat → Option (List (Op × Nat)))
  | [] => .ok inputs
  | .ext idx :: rest =>
      -- `del self.mappedInputs[idx]` drops the bindings of every operator
      match inputs idx with
      | none => .error .keyError
      | some _ => unbindInputs (Function.update inputs idx none) rest
  | .out _ _ :: rest => unbindInputs inputs rest

/-- `unmatch(srcOp, op, graph)`. -/
def unmatchOp (s : Matching) (depth : Nat) (srcOp : OpX) (op : Op) : Except PyError Matching := do
  let mappedInputs ← unbindInputs s.mappedInputs srcOp.inputs
  if op ∈ s.mappedOps.keys then
    .ok { mapOp := Function.update s.mapOp depth Op.invalid
          mappedOps := s.mappedOps.erase op
          mappedInputs }
  else .error .keyError

/-! ## A complete match -/

/-- `to_tensor`, of an input of a target operator. -/
def toTensor (s : Matching) (dstMap : Nat → Op) : TensorX → Except PyError Tensor
  | .out k idx => do
      let p ← pyUnwrap (dstMap k).ptr
      p.outputAt idx
  | .ext idx => do
      let bindings ← pyUnwrap (s.mappedInputs idx)
      let b ← firstBinding bindings
      let p ← b.1.body
      p.outputAt b.2

/-- `get_pm_constraint`, asserted by every caller. -/
def getPmConstraint (opx : OpX) (para : PMParameter) : Except PyError KeyCell := do
  let pmc ← pyUnwrap
    (opx.pmConstraints.find? fun pmc => pmc.comp = .COMPARE_EQ ∧ pmc.para = para)
  return pmc.value

-- the parameters of a convolution are numbers and members of the two enumerations
def asInt : KeyCell → Except PyError Int
  | .int v => .ok v
  | _ => .error .typeError

def asPadding : KeyCell → Except PyError PaddingMode
  | .padding v => .ok v
  | _ => .error .typeError

def asActi : KeyCell → Except PyError ActiMode
  | .acti v => .ok v
  | _ => .error .typeError

/-- The two operands of a target operator with two inputs. -/
def operands (s : Matching) (dstMap : Nat → Op) (opx : OpX) : Except PyError (Tensor × Tensor) :=
  match opx.inputs with
  | [x, y] => do
      let t1 ← toTensor s dstMap x
      let t2 ← toTensor s dstMap y
      return (t1, t2)
  | _ => .error .assertionError

/-- The operator `create_new_operator` asks its `Model` for. Nothing is created for a `CONCAT`. -/
def newOperator (s : Matching) (dstMap : Nat → Op) (m : Model) (opx : OpX) :
    Except PyError (Op × Model) :=
  match opx.type with
  | .OP_CONV2D => do
      let (input, weight) ← operands s dstMap opx
      let strideH ← getPmConstraint opx .PM_STRIDE_H
      let strideW ← getPmConstraint opx .PM_STRIDE_W
      let padding ← getPmConstraint opx .PM_PAD
      let activation ← getPmConstraint opx .PM_ACTI
      let strideH ← asInt strideH
      let strideW ← asInt strideW
      let padding ← asPadding padding
      let activation ← asActi activation
      m.getOrCreateConv2d input weight strideH strideW padding activation
  | .OP_EW_ADD => do
      let (t1, t2) ← operands s dstMap opx
      m.getOrCreateElement .OP_EW_ADD t1 t2
  | .OP_EW_MUL => do
      let (t1, t2) ← operands s dstMap opx
      m.getOrCreateElement .OP_EW_MUL t1 t2
  | .OP_CONCAT => do
      let _ ← opx.inputs.mapM (toTensor s dstMap)
      let _ ← getPmConstraint opx .PM_AXIS
      return (Op.invalid, m)
  | _ => .error .notImplementedError

/-- `create_new_operator` for the target operator at position `k`. -/
def createNewOperator (s : Matching) (dstMap : Nat → Op) (m : Model) (k : Nat) (opx : OpX) :
    Except PyError (Bool × (Nat → Op) × Model) := do
  let (op, m) ← newOperator s dstMap m opx
  if op = Op.invalid then return (false, dstMap, m)
  let ok ← allM (checkTnConstraint op) opx.tnConstraints
  if ok then return (true, Function.update dstMap k op, m) else return (false, dstMap, m)

/-- The loop over the target operators, up to the first that is not created. -/
def createTargets (s : Matching) : List (OpX × Nat) → (Nat → Op) → Model →
    Except PyError (Bool × (Nat → Op) × Model)
  | [], dstMap, m => .ok (true, dstMap, m)
  | (opx, k) :: rest, dstMap, m => do
      let (ok, dstMap, m) ← createNewOperator s dstMap m k opx
      if ok then createTargets s rest dstMap m else return (false, dstMap, m)

/-- The value of `mappedOutputs` at output `idx` of source operator `k`. -/
def Rule.mappedOutput (x : Rule) (k idx : Nat) : Option (Nat × Nat) :=
  (x.mappedOutputs.find? fun entry => entry.1 = (k, idx)).map Prod.snd

/-- Every output that an operator outside the match reads is mapped. -/
def outputsMapped (x : Rule) (s : Matching) (g : Graph) : Except PyError Bool :=
  allM (fun entry : Op × Nat => do
    let (outList, _) ← g.outEdgesOf entry.1
    return outList.all fun e =>
      decide (e.dstOp ∈ s.mappedOps.keys) || (x.mappedOutput entry.2 e.srcIdx).isSome)
    s.mappedOps.entries

/-- Step 2 of `create_new_graph`: an edge into an operator outside the match. -/
def rewireEdge (x : Rule) (s : Matching) (dstMap : Nat → Op) (e : Edge) : Except PyError Edge :=
  match s.mappedOps.get? e.srcOp with
  | none => .ok e
  | some k => do
      let dst ← pyUnwrap (x.mappedOutput k e.srcIdx)
      return ⟨dstMap dst.1, e.dstOp, dst.2, e.dstIdx⟩

/-- Step 3: the edge into input `i` of a target operator. -/
def targetEdge (s : Matching) (dstMap : Nat → Op) (k : Nat) (input : TensorX × Nat) :
    Except PyError Edge :=
  match input with
  | (.ext idx, i) => do
      let bindings ← pyUnwrap (s.mappedInputs idx)
      let b ← firstBinding bindings
      return ⟨b.1, dstMap k, b.2, i⟩
  | (.out j idx, i) => .ok ⟨dstMap j, dstMap k, idx, i⟩

/-- The edges into operators outside the match. -/
def outsideEdges (s : Matching) (g : Graph) : List Edge :=
  (g.inEdges.entries.filter fun entry => entry.1 ∉ s.mappedOps.keys).flatMap fun entry =>
    entry.2.edges

/-- `create_new_graph`. -/
def createNewGraph (x : Rule) (s : Matching) (dstMap : Nat → Op) (g : Graph) :
    Except PyError Graph := do
  let kept ← (outsideEdges s g).mapM (rewireEdge x s dstMap)
  let added ← (x.dstOps.zipIdx.flatMap fun (opx, k) =>
    opx.inputs.zipIdx.map fun input => (k, input)).mapM fun (k, input) =>
      targetEdge s dstMap k input
  Graph.new.addEdges (kept ++ added)

/-- One edge of `check_correctness`. -/
def edgeCorrect (g : Graph) (e : Edge) : Except PyError Unit := do
  pyAssert (g.hasEdge e.srcOp e.dstOp e.srcIdx e.dstIdx = true)
  match e.srcOp.ptr with
  | none => return ()
  | some p => do
      let src ← p.outputAt e.srcIdx
      let q ← e.dstOp.body
      if MAX_NUM_INPUTS ≤ e.dstIdx then .error .indexError
      else do
        let dst := q.inputAt e.dstIdx
        pyAssert (src.numDim = dst.numDim)
        pyAssert (∀ i < src.numDim, src.dimAt (i : Nat) = dst.dimAt (i : Nat) ∨
          (p.type = .OP_CONV2D ∧ i = 0) ∨
          (Model.broadcastable src dst = true ∧ q.type = .OP_EW_ADD))

/-- `check_correctness`. -/
def checkCorrectness (g : Graph) : Except PyError Unit :=
  g.outEdges.entries.forM fun entry => entry.2.edges.forM (edgeCorrect g)

/-- What a complete match works on. -/
structure Leaf where
  model : Model
  dstMap : Nat → Op
  candidates : List Graph
  hashmap : List Nat

/-- The numbers `run` is given or takes from the interpreter: whether a graph is cheap and small
enough to be kept, and its `hash`. -/
structure RunEnv where
  worthKeeping : Graph → Bool
  hash : Graph → Nat

/-- `run` at `depth >= len(self.srcOps)`. -/
def completeMatch (env : RunEnv) (x : Rule) (g : Graph) (s : Matching) (leaf : Leaf) :
    Except PyError Leaf := do
  let (created, dstMap, model) ← createTargets s x.dstOps.zipIdx leaf.dstMap leaf.model
  let leaf := { leaf with dstMap := dstMap, model := model }
  if created = false then return leaf
  let mapped ← outputsMapped x s g
  if mapped = false then return leaf
  let newGraph ← createNewGraph x s dstMap g
  let (loop, newGraph) ← newGraph.hasLoop
  if loop then return leaf
  checkCorrectness newGraph
  if env.worthKeeping newGraph = true ∧ env.hash newGraph ∉ leaf.hashmap then
    return { leaf with candidates := newGraph :: leaf.candidates
                       hashmap := env.hash newGraph :: leaf.hashmap }
  return leaf

/-! ## `run` -/

structure Search where
  matching : Matching
  leaf : Leaf
  /-- The complete matches reached so far. -/
  reached : List Matching

/-- `run(depth, …)`; `rest` are the source operators from position `depth` on. -/
def run (env : RunEnv) (x : Rule) (g : Graph) : List OpX → Nat → Search → Except PyError Search
  | [], _, st => do
      let leaf ← completeMatch env x g st.matching st.leaf
      return { st with leaf := leaf, reached := st.reached ++ [st.matching] }
  | srcOp :: rest, depth, st =>
      g.inEdges.keys.foldlM (fun st op => do
        let ok ← canMatch st.matching g srcOp op
        if ok = true ∧ op ∉ st.matching.mappedOps.keys then do
          let matching ← matchOp st.matching g depth srcOp op
          let st ← run env x g rest (depth + 1) { st with matching := matching }
          let matching ← unmatchOp st.matching depth srcOp op
          return { st with matching := matching }
        else return st) st

end Peps
