import Peps.Dbocg.Tensor

/-!
# `op.py` — operator bodies and operators

An `OpBase` object is what an operator's `ptr` refers to. Python compares it by identity,
so it carries its identity in `addr`: the `Model` that built it and the guid of the request
it was built for. The subclasses differ only in the parameters they store, which are the
constructors of `OpParams`; each `__init__` is a function here, in the exception monad where
the source asserts.
-/

namespace Peps

/-- The attributes a subclass of `OpBase` adds. -/
inductive OpParams where
  | none
  | activation (inPlace : Bool)
  | conv2d (strideH strideW : Int) (padding : PaddingMode) (activation : ActiMode)
  | pool2d (kernelH kernelW strideH strideW : Int) (padding : PaddingMode)
      (activation : ActiMode)
  | matmul (activation : ActiMode)
  | transpose (permIdx : Int) (shuffle : Bool)
deriving DecidableEq

structure OpBase where
  addr : Nat × Nat
  type : OpType
  params : OpParams
  inputs : List Tensor
  outputs : List Tensor
deriving DecidableEq

namespace OpBase

def numInputs (p : OpBase) : Nat := p.inputs.length
def numOutputs (p : OpBase) : Nat := p.outputs.length

/-- `self.outputs[0]`. -/
def output (p : OpBase) : Tensor := p.outputs.getD 0 Tensor.empty

end OpBase

/-! ## The constructors -/

/-- `NoOp(_input, type)`: input and weight operators hand their tensor through. -/
def mkNoOp (addr : Nat × Nat) (input : Tensor) (type : OpType) : OpBase :=
  { addr, type, params := .none, inputs := [input], outputs := [{ input with idx := 0 }] }

/-- `Activation(_input, _type, _inPlace)`. -/
def mkActivation (addr : Nat × Nat) (input : Tensor) (type : OpType) (inPlace : Bool) :
    OpBase :=
  { addr, type, params := .activation inPlace, inputs := [input],
    outputs := [{ input with idx := 0 }] }

/-- The output extent of one axis of a convolution or pooling window. -/
def windowExtent (padding : PaddingMode) (extent kernel stride : Int) : Except PyError Int :=
  match padding with
  | .PD_MODE_SAME => pyFloorDiv (extent + stride - 1) stride
  | .PD_MODE_VALID => do
      let q ← pyFloorDiv (extent - kernel) stride
      return q + 1

/-- The 4-D row-major output tensor `Conv2D` and `Pool2D` fill in cell by cell. -/
def output4d (d0 d1 d2 d3 : Int) (s0 s1 s2 s3 : SplitInfo) : Tensor where
  numDim := 4
  dim := #v[d0, d1, d2, d3, 0, 0, 0, 0]
  stride := #v[1 * d3 * d2 * d1, 1 * d3 * d2, 1 * d3, 1, 0, 0, 0, 0]
  split := #v[s0, s1, s2, s3, SplitInfo.noSplit, SplitInfo.noSplit, SplitInfo.noSplit,
    SplitInfo.noSplit]
  idx := 0
  data_ptr := none
  hdim := by decide

/-- `Conv2D(_input, _weight, …)`. The source computes `groups` with `/`; the quotient is
exact because the division test has passed, so it is the integer quotient. -/
def mkConv2D (addr : Nat × Nat) (input weight : Tensor) (strideH strideW : Int)
    (padding : PaddingMode) (activation : ActiMode) : Except PyError OpBase := do
  pyAssert (input.numDim = 4)
  pyAssert (weight.numDim = 4)
  let r ← pyMod (input.dimAt 1) (weight.dimAt 1)
  pyAssert (r = 0)
  let groups ← pyFloorDiv (input.dimAt 1) (weight.dimAt 1)
  let r ← pyMod (weight.dimAt 0) groups
  pyAssert (r = 0)
  let outputH ← windowExtent padding (input.dimAt 2) (weight.dimAt 2) strideH
  let outputW ← windowExtent padding (input.dimAt 3) (weight.dimAt 3) strideW
  -- splits of H and W are refused: `Conv2DKey` does not record them
  pyAssert (input.splitAt 2 = SplitInfo.noSplit)
  pyAssert (input.splitAt 3 = SplitInfo.noSplit)
  return { addr, type := .OP_CONV2D, params := .conv2d strideH strideW padding activation,
           inputs := [input, weight],
           outputs := [output4d (input.dimAt 0) (weight.dimAt 0) outputH outputW
             (input.splitAt 0) (input.splitAt 0) (input.splitAt 2) (input.splitAt 3)] }

/-- `Pool2D(_input, _weight, _type, …)`. -/
def mkPool2D (addr : Nat × Nat) (input weight : Tensor) (type : OpType)
    (kernelH kernelW strideH strideW : Int) (padding : PaddingMode) (activation : ActiMode) :
    Except PyError OpBase := do
  pyAssert (type = .OP_POOL2D_AVG ∨ type = .OP_POOL2D_MAX)
  pyAssert (input.numDim = 4)
  let outputH ← windowExtent padding (input.dimAt 2) kernelH strideH
  let outputW ← windowExtent padding (input.dimAt 3) kernelW strideW
  return { addr, type,
           params := .pool2d kernelH kernelW strideH strideW padding activation,
           inputs := [input, weight],
           outputs := [output4d (input.dimAt 0) (input.dimAt 1) outputH outputW
             (input.splitAt 0) (input.splitAt 1) SplitInfo.noSplit SplitInfo.noSplit] }

/-- The loop state of `Element.__init__`: the output tensor's lists and `total`. -/
structure ElementLoop where
  dim : Vector Int MAX_DIM
  stride : Vector Int MAX_DIM
  split : Vector SplitInfo MAX_DIM
  total : Int

/-- The split `Element.__init__` leaves on one axis. -/
def elementSplit (t1 t2 : Tensor) (i1 i2 : Int) : SplitInfo :=
  if 0 ≤ i1 ∧ 1 < t1.dimAt i1 then
    if 0 ≤ i2 ∧ 1 < t2.dimAt i2 then (t1.splitAt i1).combine (t2.splitAt i2)
    else t1.splitAt i1
  else if 0 ≤ i2 ∧ 1 < t2.dimAt i2 then t2.splitAt i2
  else SplitInfo.noSplit

/-- One round of the loop over the right-aligned axes. -/
def elementRound (t1 t2 : Tensor) (numDim : Nat) (s : ElementLoop) (i : Nat) : ElementLoop :=
  let t1_idx : Int := t1.numDim - 1 - i
  let t2_idx : Int := t2.numDim - 1 - i
  let out_idx : Int := numDim - 1 - i
  let dim1 := if t1_idx < 0 then 1 else t1.dimAt t1_idx
  let dim2 := if t2_idx < 0 then 1 else t2.dimAt t2_idx
  { dim := pySet s.dim out_idx (max dim1 dim2)
    stride := pySet s.stride out_idx s.total
    split := pySet s.split out_idx (elementSplit t1 t2 t1_idx t2_idx)
    total := s.total * max dim1 dim2 }

def elementLoop (t1 t2 : Tensor) : ElementLoop :=
  (List.range (max t1.numDim t2.numDim)).foldl
    (elementRound t1 t2 (max t1.numDim t2.numDim))
    { dim := Tensor.empty.dim, stride := Tensor.empty.stride, split := Tensor.empty.split,
      total := 1 }

/-- `Element(type, _t1, _t2)`. -/
def mkElement (addr : Nat × Nat) (type : OpType) (t1 t2 : Tensor) : OpBase :=
  { addr, type, params := .none, inputs := [t1, t2],
    outputs := [{ numDim := max t1.numDim t2.numDim
                  dim := (elementLoop t1 t2).dim
                  stride := (elementLoop t1 t2).stride
                  split := (elementLoop t1 t2).split
                  idx := 0
                  data_ptr := Option.none
                  hdim := max_le t1.hdim t2.hdim }] }

/-- The dims `Matmul` gives its output. -/
def matmulDim (input weight : Tensor) : Vector Int MAX_DIM :=
  pySet ((List.range (input.numDim - 1)).foldl (fun d (i : Nat) => pySet d i (input.dimAt i))
    Tensor.empty.dim) (input.numDim - 1) (weight.dimAt (input.numDim - 1))

/-- The strides `Matmul` gives its output, with the final `size`. -/
def matmulStride (numDim : Nat) (dim : Vector Int MAX_DIM) : Vector Int MAX_DIM × Int :=
  (List.range (numDim - 2)).foldr
    (fun (i : Nat) (s, size) => (pySet s i size, size * pyGet dim i 0))
    (pySet (pySet Tensor.empty.stride (numDim - 1) 1) (numDim - 2)
        (pyGet dim (numDim - 1) 0),
      pyGet dim (numDim - 2) 0 * pyGet dim (numDim - 1) 0)

/-- The splits `Matmul` gives its output. -/
def matmulSplit (input weight : Tensor) : Vector SplitInfo MAX_DIM :=
  let batch := (List.range (input.numDim - 2)).foldl
    (fun s (i : Nat) => pySet s i
      (if input.splitAt i = weight.splitAt i then input.splitAt i else SplitInfo.noSplit))
    Tensor.empty.split
  pySet (pySet batch (input.numDim - 2) (input.splitAt (input.numDim - 2)))
    (input.numDim - 1) (weight.splitAt (input.numDim - 1))

/-- The output tensor of `Matmul`. -/
def matmulOutput (input weight : Tensor) : Tensor where
  numDim := input.numDim
  dim := matmulDim input weight
  stride := (matmulStride input.numDim (matmulDim input weight)).1
  split := matmulSplit input weight
  idx := 0
  data_ptr := none
  hdim := input.hdim

/-- `Matmul(_input, _weight, _activation)`. -/
def mkMatmul (addr : Nat × Nat) (input weight : Tensor) (activation : ActiMode) :
    Except PyError OpBase := do
  pyAssert (input.numDim = weight.numDim)
  pyAssert (∀ i < input.numDim - 2, input.dimAt (i : Nat) = weight.dimAt (i : Nat))
  pyAssert (input.dimAt (input.numDim - 1) = weight.dimAt (input.numDim - 2))
  pyAssert ((matmulStride input.numDim (matmulDim input weight)).2 =
    (matmulOutput input weight).volume)
  return { addr, type := .OP_MATMUL, params := .matmul activation, inputs := [input, weight],
           outputs := [matmulOutput input weight] }

/-- `Reshape(_input, _shape)`; storing a ninth dimension runs off the list. -/
def mkReshape (addr : Nat × Nat) (input : Tensor) (shape : List Int) :
    Except PyError OpBase :=
  if h : shape.length ≤ MAX_DIM then do
    pyAssert (input.volume = (Tensor.fillRowMajor shape).2.2)
    return { addr, type := .OP_RESHAPE, params := .none, inputs := [input],
             outputs := [{ numDim := shape.length
                           dim := (Tensor.fillRowMajor shape).1
                           stride := (Tensor.fillRowMajor shape).2.1
                           split := Tensor.empty.split
                           idx := 0
                           data_ptr := Option.none
                           hdim := h }] }
  else .error .indexError

/-- `permutation_to_index(perm)` of `utils.py`. -/
def permutationToIndex (perm : List Int) : Except PyError Int := do
  pyAssert (∀ p ∈ perm, 0 ≤ p ∧ p < perm.length)
  pyAssert perm.Nodup
  return perm.foldl (fun idx p => idx * perm.length + p) 0

/-- `Transpose(_input, _perm, _shuffle)`; only shuffled transposes are built. -/
def mkTranspose (addr : Nat × Nat) (input : Tensor) (perm : List Int) (shuffle : Bool) :
    Except PyError OpBase := do
  pyAssert (shuffle = true)
  let permIdx ← permutationToIndex perm
  pyAssert (input.numDim = perm.length)
  let shape := perm.map input.dimAt
  let out : Tensor :=
    { numDim := input.numDim
      dim := (Tensor.fillRowMajor shape).1
      stride := (Tensor.fillRowMajor shape).2.1
      split := (List.range perm.length).foldl
        (fun s (i : Nat) => pySet s i (input.splitAt (perm.getD i 0))) Tensor.empty.split
      idx := 0
      data_ptr := Option.none
      hdim := input.hdim }
  pyAssert ((Tensor.fillRowMajor shape).2.2 = out.volume)
  return { addr, type := .OP_TRANSPOSE, params := .transpose permIdx shuffle,
           inputs := [input], outputs := [out] }

/-! ## `Op` -/

/-- An operator of a graph: a guid and the body it points to. `Op.INVALID_OP`, and the
sources of input and weight operators, point to nothing. -/
structure Op where
  guid : Nat
  ptr : Option OpBase
deriving DecidableEq

namespace Op

/-- `Op()`, the value of `Op.INVALID_OP`. -/
def invalid : Op := ⟨GUID_INVALID, none⟩

instance : Inhabited Op := ⟨invalid⟩

/-- `op.ptr.type`. -/
def type (op : Op) : Option OpType := op.ptr.map OpBase.type

/-- `op.ptr.numInputs`. -/
def numInputs (op : Op) : Nat := op.ptr.elim 0 OpBase.numInputs

end Op

end Peps
