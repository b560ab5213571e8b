import Peps.Lib.Grids
import Peps.Dbocg.NudfScope
import Peps.Dbocg.RewriteSound

/-!
# What a graph and its query compute

A query answers for one image at a time, so a value is the array of one image: its rows are the
channels, its columns the pixels row by row; what has one dimension is a single row. A weight is
the matrix that `export` makes of its array, with the first dimension for rows.

`Network.meaning` is what the operators of a graph compute, with the heights and widths, paddings,
strides and activations of their parameters. `Command.eval` is what the calls of a query compute;
`im2col` and `avgpool` take an array for square images, and arguments that `export` does not pass
are the defaults of the SQL declarations.
-/

namespace Peps

open Lib

variable {R : Type} [Field R] [LinearOrder R]

/-! ## The query -/

/-- `im2col(value, kernel, padding, stride)`. -/
def im2colCall (x : Grid R) (kernel padding stride : Int) : Grid R :=
  x.patches (.square x.side kernel padding stride)

/-- `im2col_init(image)`. -/
def im2colInit (image : Grid R) : Grid R := im2colCall image 3 1 1

/-- `avgpool(value, kernel, padding, stride)`. -/
def avgpoolCall (x : Grid R) (kernel padding stride : Int) : Grid R :=
  x.average (.square x.side kernel padding stride)

/-- What a command makes of the relations it reads. -/
def Command.eval (env : String → Grid R) : Command → Grid R
  | kfmInit input weight => (env weight).productTransposed (env input)
  | kfm input weight kernel padding stride =>
      (env weight).productTransposed (im2colCall (env input) kernel padding stride)
  | relu input => (env input).map (max 0)
  | madd input1 input2 => (env input1).sum (env input2)
  | mvm input weight => (env weight).matrixVector (env input)
  | avgpool input kernel => avgpoolCall (env input) kernel 0 2
  | unnest input => (env input).flatten

/-! ## The graph -/

/-- What a graph leaves open: the numbers in the arrays of its weights, the activations that are no
arithmetic, and the operators that `load_onnx` does not ask for. -/
structure Network (R : Type) [Field R] where
  weights : Nat → Grid R
  sigmoid : R → R
  tanh : R → R
  other : OpBase → List (Grid R) → Grid R

/-- The windows over an input tensor. -/
def Tensor.window (t : Tensor) (kernelH kernelW strideH strideW : Int) (padding : PaddingMode) :
    Grid.Window :=
  ⟨t.dimAt 2, t.dimAt 3, kernelH, kernelW, sidePad padding (t.dimAt 2) kernelH strideH,
    sidePad padding (t.dimAt 3) kernelW strideW, strideH, strideW⟩

/-- The windows of a convolution. -/
def OpBase.convWindow (p : OpBase) (strideH strideW : Int) (padding : PaddingMode) : Grid.Window :=
  (p.inputAt 0).window ((p.inputAt 1).dimAt 2) ((p.inputAt 1).dimAt 3) strideH strideW padding

/-- The rows and columns of a tensor. -/
def Tensor.layout (t : Tensor) : Nat × Nat :=
  match t.dims.map Int.toNat with
  | [] => (1, 1)
  | [n] => (1, n)
  | [_, channels, height, width] => (channels, height * width)
  | rows :: rest => (rows, rest.prod)

namespace Network

def activate (N : Network R) : ActiMode → R → R
  | .AC_MODE_NONE => id
  | .AC_MODE_SIGMOID => N.sigmoid
  | .AC_MODE_RELU => max 0
  | .AC_MODE_TANH => N.tanh

/-- What the body of an operator computes from its inputs. -/
def apply (N : Network R) (image : Grid R) (p : OpBase) (inputs : List (Grid R)) : Grid R :=
  let x := inputs.getD 0 default
  let y := inputs.getD 1 default
  match p.type with
  | .OP_INPUT => image
  | .OP_WEIGHT => (p.inputAt 0).data_ptr.elim default N.weights
  | .OP_CONV2D =>
      match p.params with
      | .conv2d strideH strideW padding activation =>
          (y.productTransposed (x.patches (p.convWindow strideH strideW padding))).map
            (N.activate activation)
      | _ => N.other p inputs
  | .OP_EW_ADD => x.broadcastSum y
  | .OP_RELU => x.map (max 0)
  | .OP_POOL2D_AVG =>
      match p.params with
      | .pool2d kernelH kernelW strideH strideW padding activation =>
          (x.average ((p.inputAt 0).window kernelH kernelW strideH strideW padding)).map
            (N.activate activation)
      | _ => N.other p inputs
  | .OP_MATMUL =>
      match p.params with
      | .matmul activation => (x.product y).map (N.activate activation)
      | _ => N.other p inputs
  | .OP_RESHAPE => x.reshape p.output.layout.1 p.output.layout.2
  | .OP_TRANSPOSE =>
      match p.params with
      | .transpose permIdx _ =>
          if (permutationToIndex [1, 0]).toOption = some permIdx ∧ (p.inputAt 0).numDim = 2 then
            x.transpose
          else N.other p inputs
      | _ => N.other p inputs
  | _ => N.other p inputs

/-- The operators of a graph on an image. -/
def meaning (N : Network R) (image : Grid R) : Meaning (Grid R) where
  apply := fun p inputs _ => N.apply image p inputs
  given := fun _ _ => default

end Network

/-! ## Relations and values -/

/-- The relations after some CTEs. -/
def evalCtes (tables : String → Grid R) (ctes : List Cte) : String → Grid R :=
  evaluate Cte.name (fun c env => c.command.eval env) tables ctes

namespace Exported

/-- The relations a query finds: the columns of the image, and the tables of the weights. -/
def tables (q : Exported) (N : Network R) (image : Grid R) (r : String) : Grid R :=
  if r = inputFeatureMap then im2colInit image else (q.weights r).elim default N.weights

def relation (q : Exported) (N : Network R) (image : Grid R) : String → Grid R :=
  evalCtes (q.tables N image) q.ctes

end Exported

namespace Graph

/-- The operators that depend on an input. -/
inductive Dependent (g : Graph) : Op → Prop where
  | input {op : Op} (h : op.type = some .OP_INPUT) : Dependent g op
  | read {op : Op} {e : Edge} (he : e ∈ g.ins op) (h : Dependent g e.srcOp) : Dependent g op

/-- The operators that depend on an input and are not read. -/
structure IsSink (g : Graph) (op : Op) : Prop where
  known : op ∈ g.inEdges.keys
  dependent : g.Dependent op
  unread : ∀ v ∈ g.inEdges.keys, ∀ e ∈ g.ins v, e.srcOp ≠ op

/-- On the values of the graph, the call for an operator computes what the operator does. Nothing
may be left out between the two: no activation inside the operator, no sum with a bias that it would
read. The images that it looks at are squares of the size of their tensor, with one kernel, padding
and stride for both axes, and these are the arguments of the call. -/
inductive Plain (g : Graph) (val : Op → Nat → Grid R) (op : Op) : Prop where
  | conv2d {p : OpBase} {strideH strideW : Int} {padding : PaddingMode} {src weight : Op}
      (hp : op.ptr = some p) (htype : p.type = .OP_CONV2D)
      (hparams : p.params = .conv2d strideH strideW padding .AC_MODE_NONE)
      (hsrc : g.source op 0 = some src) (hweight : g.source op 1 = some weight)
      (hstored : weight.type = some .OP_WEIGHT)
      (hsquare : p.convWindow strideH strideW padding =
        .square (val src 0).side ((p.inputAt 1).dimAt 2)
          (sidePad padding ((p.inputAt 0).dimAt 2) ((p.inputAt 1).dimAt 2) strideH) strideH)
      (hinit : src.type = some .OP_INPUT →
        p.convWindow strideH strideW padding = .square (val src 0).side 3 1 1)
  | add {a b : Op} (htype : op.type = some .OP_EW_ADD)
      (ha : g.source op 0 = some a) (hb : g.source op 1 = some b)
      (hac : a.computes ∧ g.skips a = false) (hbc : b.computes ∧ g.skips b = false)
      (hrows : (val a 0).rows = (val b 0).rows) (hcols : (val a 0).cols = (val b 0).cols)
  | relu {src : Op} (htype : op.type = some .OP_RELU) (hsrc : g.source op 0 = some src)
      (hc : src.computes ∧ g.skips src = false)
  | avgpool {p : OpBase} {kernelH kernelW strideH strideW : Int} {padding : PaddingMode} {src : Op}
      (hp : op.ptr = some p) (htype : p.type = .OP_POOL2D_AVG)
      (hparams : p.params = .pool2d kernelH kernelW strideH strideW padding .AC_MODE_NONE)
      (hsrc : g.source op 0 = some src) (hc : src.computes)
      (hsquare : (p.inputAt 0).window kernelH kernelW strideH strideW padding =
        .square (val src 0).side kernelH 0 2)
  | matmul {p q : OpBase} {src t weight : Op} {permIdx : Int} {shuffle : Bool}
      (hp : op.ptr = some p) (htype : p.type = .OP_MATMUL)
      (hparams : p.params = .matmul .AC_MODE_NONE)
      (hsrc : g.source op 0 = some src) (hc : src.computes) (hrow : (val src 0).rows = 1)
      (ht : g.source op 1 = some t) (hq : t.ptr = some q) (hqtype : q.type = .OP_TRANSPOSE)
      (hqparams : q.params = .transpose permIdx shuffle)
      (hperm : (permutationToIndex [1, 0]).toOption = some permIdx)
      (hmatrix : (q.inputAt 0).numDim = 2)
      (hweight : g.source t 0 = some weight) (hstored : weight.type = some .OP_WEIGHT)
  | reshape {p : OpBase} {src : Op} (hp : op.ptr = some p) (htype : p.type = .OP_RESHAPE)
      (hsrc : g.source op 0 = some src) (hc : src.computes)
      (hrow : p.output.layout = (1, (val src 0).rows * (val src 0).cols))

end Graph

end Peps
