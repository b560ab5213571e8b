import Peps.Lib.Kahn
import Peps.Lib.SortedMap
import Peps.Dbocg.Model

/-!
# `graph.py` — computation graphs

A `Graph` keeps its edges twice, under the operator they lead to (`inEdges`) and under the one
they come from (`outEdges`). Both maps are sorted by operator, and reading a missing operator
creates it with an empty edge set. Operators compare by guid; two different operators with one
guid do not compare (`ptr < ptr` raises `TypeError`), so neither can be put into a sorted
container that holds the other.

The `Model` a graph numbers its operators with is an object of its own, shared with the rewrite
rules; it is passed beside the graph here. Costs and the substitution history are left out.
-/

namespace Peps

open Lib

/-! ## Edges -/

structure Edge where
  srcOp : Op
  dstOp : Op
  srcIdx : Nat
  dstIdx : Nat
deriving DecidableEq

/-- `Op.__lt__` raises on these two. -/
def Op.clashes (a b : Op) : Bool := decide (a.guid = b.guid ∧ a ≠ b)

/-- `Edge.__lt__` raises: it compares the sources, and the destinations of equal sources. -/
def Edge.clashes (e f : Edge) : Bool :=
  e.srcOp.clashes f.srcOp || (decide (e.srcOp = f.srcOp) && e.dstOp.clashes f.dstOp)

/-- `Edge.__lt__` on edges that compare. -/
def Edge.before (e f : Edge) : Bool :=
  if e.srcOp ≠ f.srcOp then decide (e.srcOp.guid < f.srcOp.guid)
  else if e.dstOp ≠ f.dstOp then decide (e.dstOp.guid < f.dstOp.guid)
  else if e.srcIdx ≠ f.srcIdx then decide (e.srcIdx < f.srcIdx)
  else decide (e.dstIdx < f.dstIdx)

/-- `SortedSet(key=Edge)`. -/
structure EdgeSet where
  edges : List Edge
  hnodup : edges.Nodup
deriving DecidableEq

namespace EdgeSet

def empty : EdgeSet := ⟨[], List.nodup_nil⟩

def add (s : EdgeSet) (e : Edge) : Except PyError EdgeSet :=
  if h : e ∈ s.edges then .ok s
  else if s.edges.any e.clashes then .error .typeError
  else .ok ⟨insertBy Edge.before e s.edges,
    (insertBy_perm Edge.before e s.edges).nodup_iff.mpr (List.nodup_cons.mpr ⟨h, s.hnodup⟩)⟩

def remove (s : EdgeSet) (e : Edge) : Except PyError EdgeSet :=
  if e ∈ s.edges then .ok ⟨s.edges.erase e, s.hnodup.erase e⟩ else .error .keyError

end EdgeSet

/-! ## `OpMap` -/

abbrev OpMap := SortedMap Op.guid EdgeSet

namespace OpMap

/-- The edges under an operator, none if it is missing. -/
def edges (m : OpMap) (op : Op) : List Edge := (m.get? op).elim [] EdgeSet.edges

/-- `self[op]`: a missing operator is entered. -/
def touch (m : OpMap) (op : Op) : Except PyError OpMap :=
  if op ∈ m.keys then .ok m
  else if h : ∀ k ∈ m.keys, k.guid ≠ op.guid then .ok (m.insertNew op EdgeSet.empty h)
  else .error .typeError

/-- `self[op].add(e)`. -/
def addTo (m : OpMap) (op : Op) (e : Edge) : Except PyError OpMap := do
  let m ← m.touch op
  let set ← ((m.get? op).getD EdgeSet.empty).add e
  .ok (m.set op set)

/-- `self[op].remove(e)`. -/
def removeFrom (m : OpMap) (op : Op) (e : Edge) : Except PyError OpMap := do
  let m ← m.touch op
  let set ← ((m.get? op).getD EdgeSet.empty).remove e
  .ok (m.set op set)

end OpMap

/-! ## `Graph` -/

structure Graph where
  inEdges : OpMap
  outEdges : OpMap
deriving DecidableEq

namespace Graph

/-- `Graph()`. -/
def new : Graph := ⟨SortedMap.empty, SortedMap.empty⟩

/-- `inEdges[op]`, without the entry that reading may create. -/
def ins (g : Graph) (op : Op) : List Edge := OpMap.edges g.inEdges op

/-- `outEdges[op]`, without the entry that reading may create. -/
def outs (g : Graph) (op : Op) : List Edge := OpMap.edges g.outEdges op

/-- `add_edge`; its assertion compares a number with a member of `OpType` and always holds. -/
def addEdge (g : Graph) (srcOp dstOp : Op) (srcIdx dstIdx : Nat) : Except PyError Graph := do
  let inEdges ← OpMap.touch g.inEdges dstOp
  let outEdges ← OpMap.touch g.outEdges srcOp
  let edge : Edge := ⟨srcOp, dstOp, srcIdx, dstIdx⟩
  let inEdges ← OpMap.addTo inEdges dstOp edge
  let outEdges ← OpMap.addTo outEdges srcOp edge
  .ok ⟨inEdges, outEdges⟩

/-- `has_edge`. -/
def hasEdge (g : Graph) (srcOp dstOp : Op) (srcIdx dstIdx : Nat) : Bool :=
  decide (⟨srcOp, dstOp, srcIdx, dstIdx⟩ ∈ g.ins dstOp)

/-- Read `inEdges[op]`. -/
def inEdgesOf (g : Graph) (op : Op) : Except PyError (List Edge × Graph) := do
  let inEdges ← OpMap.touch g.inEdges op
  .ok (OpMap.edges inEdges op, { g with inEdges := inEdges })

/-- Read `outEdges[op]`. -/
def outEdgesOf (g : Graph) (op : Op) : Except PyError (List Edge × Graph) := do
  let outEdges ← OpMap.touch g.outEdges op
  .ok (OpMap.edges outEdges op, { g with outEdges := outEdges })

/-- `remove_edge`. -/
def removeEdge (g : Graph) (e : Edge) : Except PyError Graph := do
  pyAssert (e.srcOp ∈ g.outEdges.keys)
  pyAssert (e.dstOp ∈ g.inEdges.keys)
  let outEdges ← OpMap.removeFrom g.outEdges e.srcOp e
  let inEdges ← OpMap.removeFrom g.inEdges e.dstOp e
  .ok ⟨inEdges, outEdges⟩

/-- `remove_node`. -/
def removeNode (g : Graph) (oldOp : Op) : Except PyError Graph := do
  pyAssert (oldOp ∈ g.outEdges.keys)
  let (outList, g) ← g.outEdgesOf oldOp
  pyAssert (outList.length = 0)
  let (inList, g) ← g.inEdgesOf oldOp
  let g ← inList.foldlM removeEdge g
  let (inList, g) ← g.inEdgesOf oldOp
  pyAssert (inList.length = 0)
  .ok ⟨g.inEdges.erase oldOp, g.outEdges.erase oldOp⟩

end Graph

/-! ## The builders -/

/-- A `Tensor` with the operator it is an output of. -/
structure Handle where
  tensor : Tensor
  op : Op
deriving DecidableEq

namespace Handle

/-- `t = copy.deepcopy(op.ptr.outputs[0]); t.op = op`. -/
def ofOp (op : Op) : Handle := ⟨op.ptr.elim Tensor.empty OpBase.output, op⟩

end Handle

namespace Graph

/-- `Tensor(len(dims), dims, guid, data)` with the operator it names as its source: without
dimensions it is `Tensor()`, whose operator is `Op()`. -/
def sourceTensor (dims : List Int) (guid : Nat) (data : Option Nat) : Except PyError Handle := do
  if dims = [] then return ⟨Tensor.empty, Op.invalid⟩
  let tensor ← Tensor.ofDims dims data
  return ⟨tensor, ⟨guid, none⟩⟩

/-- The edges of a new operator: input `i` comes from the `i`-th handle. -/
def attach (g : Graph) (op : Op) (inputs : List Handle) : Except PyError Graph :=
  inputs.zipIdx.foldlM (fun g input => g.addEdge input.1.op op input.1.tensor.idx input.2) g

/-- The end of every builder. -/
def build (g : Graph) (inputs : List Handle) (op : Op) (m : Model) :
    Except PyError (Handle × Model × Graph) := do
  let g ← g.attach op inputs
  .ok (Handle.ofOp op, m, g)

section Builders

variable (m : Model) (g : Graph)

/-- `new_input`. -/
def newInput (dims : List Int) : Except PyError (Handle × Model × Graph) := do
  pyAssert (dims.length < 16)
  let source ← sourceTensor dims GUID_INPUT none
  let (op, m) := m.createInput source.tensor
  g.build [source] op m

/-- `new_weight`. -/
def newWeight (dims : List Int) (data : Option Nat) : Except PyError (Handle × Model × Graph) := do
  pyAssert (dims.length < 16)
  let source ← sourceTensor dims GUID_WEIGHT data
  let (op, m) ← m.createWeight source.tensor
  g.build [source] op m

/-- `conv2d`. -/
def conv2d (input weight : Handle) (strideH strideW : Int) (padding : PaddingMode)
    (activation : ActiMode) : Except PyError (Handle × Model × Graph) := do
  let (op, m) ← m.getOrCreateConv2d input.tensor weight.tensor strideH strideW padding activation
  pyAssert (op ≠ Op.invalid)
  g.build [input, weight] op m

/-- `element`. -/
def element (type : OpType) (t1 t2 : Handle) : Except PyError (Handle × Model × Graph) := do
  pyAssert (Model.broadcastable t1.tensor t2.tensor = true)
  let (op, m) ← m.getOrCreateElement type t1.tensor t2.tensor
  g.build [t1, t2] op m

/-- `matmul`. -/
def matmul (input weight : Handle) (acti : ActiMode) :
    Except PyError (Handle × Model × Graph) := do
  let (op, m) ← m.getOrCreateMatmul input.tensor weight.tensor acti
  pyAssert (op ≠ Op.invalid)
  g.build [input, weight] op m

/-- `pool2d_avg`; `data` names the array of equal weights it makes. -/
def pool2dAvg (input : Handle) (kernelH kernelW strideH strideW : Int) (padding : PaddingMode)
    (activation : ActiMode) (data : Nat) : Except PyError (Handle × Model × Graph) := do
  let (weight, m, g) ← newWeight m g [input.tensor.dimAt 1, 1, kernelH, kernelW] (some data)
  let (op, m) ← m.getOrCreatePool2d input.tensor weight.tensor .OP_POOL2D_AVG kernelH kernelW
    strideH strideW padding activation
  g.build [input, weight] op m

/-- `relu`. -/
def relu (input : Handle) (inPlace : Bool) : Except PyError (Handle × Model × Graph) := do
  let (op, m) ← m.getOrCreateActivation input.tensor .OP_RELU inPlace
  pyAssert (op ≠ Op.invalid)
  g.build [input] op m

/-- The zeros of a shape stand for the dimensions of the input; `dim` has `MAX_DIM` cells. -/
def copyDims (input : Tensor) (shape : List Int) : Except PyError (List Int) :=
  shape.zipIdx.mapM fun (d, i) =>
    if d ≠ 0 then .ok d
    else if i < MAX_DIM then .ok (input.dimAt i)
    else .error .indexError

-- what the dimensions that are given leave of the volume
def leftover (volume : Int) (shape : List Int) : Except PyError Int :=
  shape.foldlM (fun size d =>
    if d = -1 then .ok size
    else do
      let r ← pyMod size d
      pyAssert (r = 0)
      pyFloorDiv size d) volume

-- the first `-1` gets what is left, any further one gets 1
def fillOpen : List Int → Int → List Int × Int
  | [], size => ([], size)
  | d :: ds, size =>
      if d = -1 then
        let (ds, size') := fillOpen ds 1
        (size :: ds, size')
      else
        let (ds, size') := fillOpen ds size
        (d :: ds, size')

/-- `reshape`. -/
def reshape (input : Handle) (shape : List Int) : Except PyError (Handle × Model × Graph) := do
  let myshape ← copyDims input.tensor shape
  let size ← leftover input.tensor.volume myshape
  let (myshape, size) := fillOpen myshape size
  pyAssert (size = 1)
  let (op, m) ← m.getOrCreateReshape input.tensor myshape
  g.build [input] op m

/-- `transpose`. -/
def transpose (input : Handle) (perm : List Int) (shuffle : Bool) :
    Except PyError (Handle × Model × Graph) := do
  let (op, m) ← m.getOrCreateTranspose input.tensor perm shuffle
  g.build [input] op m

end Builders

/-! ## Orders -/

/-- The in-edges an operator waits for, those from the operators `counted` asks for. -/
def openEdges (g : Graph) (counted : Op → Bool) (op : Op) : Nat :=
  (g.ins op).countP fun e => counted e.srcOp

-- the operators an out-edge leads to
def succs (g : Graph) (op : Op) : Except PyError (List Op × Graph) := do
  let (outList, g) ← g.outEdgesOf op
  .ok (outList.map Edge.dstOp, g)

/-- The loop `has_loop`, `get_operator_list` and `preprocess_weights` share. -/
def schedule (g : Graph) (counted : Op → Bool) : Except PyError (List Op × Graph) :=
  let keys := g.inEdges.keys
  kahn .keyError .endless succs keys.length g
    (fun op => if op ∈ keys then some (g.openEdges counted op : Int) else none)
    (keys.filter fun op => g.openEdges counted op = 0) []

def beyondPreserved (op : Op) : Bool := decide (GUID_PRESERVED < op.guid)

/-- `has_loop`. -/
def hasLoop (g : Graph) : Except PyError (Bool × Graph) := do
  let (opList, g) ← g.schedule beyondPreserved
  .ok (decide (opList.length < g.inEdges.keys.length), g)

/-- `op.ptr.type`. -/
def typeOf (op : Op) : Except PyError OpType :=
  match op.ptr with
  | none => .error .attributeError
  | some p => .ok p.type

-- the operators that compute something
def computing : List Op → Except PyError (List Op)
  | [] => .ok []
  | op :: ops => do
      let type ← typeOf op
      let rest ← computing ops
      .ok (if type = .OP_INPUT ∨ type = .OP_WEIGHT then rest else op :: rest)

/-- `get_operator_list`. -/
def getOperatorList (g : Graph) : Except PyError (List Op × Graph) := do
  let (opList, g) ← g.schedule beyondPreserved
  let ops ← computing opList
  pyAssert (opList.length = g.inEdges.keys.length)
  .ok (ops, g)

-- `inEdges[e.dstIdx] = e`
def fillCell (cells : List (Option Edge)) (e : Edge) : Except PyError (List (Option Edge)) :=
  if e.dstIdx < cells.length then .ok (cells.set e.dstIdx (some e)) else .error .indexError

/-- `get_input_edges`: one cell for each in-edge, filled by slot. -/
def getInputEdges (g : Graph) (op : Op) : Except PyError (List (Option Edge)) := do
  pyAssert (op ∈ g.inEdges.keys)
  let cells ← (g.ins op).foldlM fillCell (List.replicate (g.ins op).length none)
  let type ← typeOf op
  if type = .OP_POOL2D_MAX ∨ type = .OP_POOL2D_AVG then
    pyAssert (cells.length = 1 ∨ cells.length = 2)
    -- the second input of a pooling operator is left out
    return if cells.length = 2 then cells.dropLast else cells
  return cells

/-! ## `preprocess_weights` -/

-- step 1, and the copies `create_new_graph` makes
def addEdges (g : Graph) (es : List Edge) : Except PyError Graph :=
  es.foldlM (fun g e => g.addEdge e.srcOp e.dstOp e.srcIdx e.dstIdx) g

/-- Every edge, in the order of `inEdges.items()`. -/
def allEdges (g : Graph) : List Edge := g.inEdges.entries.flatMap fun entry => entry.2.edges

-- the operators of the edges are looked at up to the first that is not a weight
def scanInputs : List Edge → Except PyError Unit
  | [] => .ok ()
  | e :: es => do
      let type ← typeOf e.srcOp
      if type = .OP_WEIGHT then scanInputs es else .ok ()

def scanEntry (entry : Op × EdgeSet) : Except PyError Unit := do
  let type ← typeOf entry.1
  if type = .OP_INPUT ∨ type = .OP_WEIGHT ∨ type = .OP_TRANSPOSE then .ok ()
  else scanInputs entry.2.edges

/-- Step 2, which reads the types and changes nothing. -/
def scanWeights (g : Graph) : Except PyError Unit := g.inEdges.entries.forM scanEntry

/-- The first operator that only weights lead to and that nothing reads. -/
def findIsolated (weightOps : List Op) : List Op → Graph → Except PyError (Option Op × Graph)
  | [], g => .ok (none, g)
  | op :: ops, g =>
      if op ∈ weightOps then do
        let (outList, g) ← g.outEdgesOf op
        if outList.length = 0 then .ok (some op, g) else findIsolated weightOps ops g
      else findIsolated weightOps ops g

/-- The removal loop; every round but the last takes one operator out. -/
def removeIsolated (weightOps : List Op) : Nat → Graph → Except PyError Graph
  | 0, _ => .error .endless
  | fuel + 1, g => do
      let (found, g) ← findIsolated weightOps g.inEdges.keys g
      match found with
      | none => .ok g
      | some op => do
          let g ← g.removeNode op
          removeIsolated weightOps fuel g

/-- `preprocess_weights`. -/
def preprocessWeights (g : Graph) : Except PyError Graph := do
  let newGraph ← Graph.new.addEdges g.allEdges
  newGraph.scanWeights
  let (weightOps, newGraph) ← newGraph.schedule fun op => decide (op.guid ≠ GUID_WEIGHT)
  removeIsolated weightOps (newGraph.inEdges.keys.length + 1) newGraph

end Graph

end Peps
