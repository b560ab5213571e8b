import Peps.Lib.HashCons
import Peps.Dbocg.Op

/-!
# `model.py` — keys and the operator tables of a `Model`

A `Model` hands out guids and hash-conses operator bodies: `get_or_create_*` builds the key
of its arguments, returns the body stored under it or builds and stores a new one, and wraps
it in an operator with the next guid.

The tables are `SortedDict`s. A look-up is a dictionary look-up (`KeyCompare.__eq__`); an
insertion also places the key among the present ones with `KeyCompare.__lt__`, which compares
the first cell of the two keys and nothing else. Two integers compare; two different
`OpType` members do not, and the insertion then raises `TypeError` before anything is
stored.
-/

namespace Peps

open Lib

abbrev Key := List KeyCell
abbrev OpTable := List (Key × OpBase)

/-! ## Keys -/

/-- `[0] * KEY_LENGTH`, with the leading parameter cells filled in. -/
def keyCells (lead : List KeyCell) (length : Nat) : Key :=
  lead ++ List.replicate (length - lead.length) (.int 0)

/-- The key of a binary operator: both operands are serialised at the same index. -/
def binaryKey (lead : List KeyCell) (length : Nat) (t1 t2 : Tensor) : Key :=
  t2.serialize (t1.serialize (keyCells lead length) lead.length) lead.length

/-- The key of a unary operator. -/
def unaryKey (lead : List KeyCell) (length : Nat) (t : Tensor) : Key :=
  t.serialize (keyCells lead length) lead.length

/-- `ActivationKey`. -/
def activationKey (input : Tensor) (type : OpType) (inPlace : Bool) : Key :=
  unaryKey [.opType type, .int inPlace.toNat] (Tensor.MAX_KEY_LENGTH + 2) input

/-- `ElementKey`. -/
def elementKey (t1 t2 : Tensor) (type : OpType) : Key :=
  binaryKey [.opType type] (Tensor.MAX_KEY_LENGTH * 2 + 1) t1 t2

/-- `Conv2DKey`, with the assertions its constructor makes. -/
def conv2DKey (input weight : Tensor) (strideH strideW : Int) (padding : PaddingMode)
    (activation : ActiMode) : Except PyError Key := do
  let r ← pyMod (input.dimAt 1) (weight.dimAt 1)
  pyAssert (r = 0)
  let groups ← pyFloorDiv (input.dimAt 1) (weight.dimAt 1)
  let r ← pyMod (weight.dimAt 0) groups
  pyAssert (r = 0)
  return binaryKey [.int strideH, .int strideW, .padding padding, .acti activation]
    (Tensor.MAX_KEY_LENGTH * 2 + 4) input weight

/-- `MatmulKey`; its `assert` is the caller's own first test. -/
def matmulKey (input weight : Tensor) (mode : ActiMode) : Except PyError Key := do
  pyAssert (input.numDim = weight.numDim)
  return binaryKey [.int mode.value] (Tensor.MAX_KEY_LENGTH * 2 + 1) input weight

/-- `Pool2DKey`. -/
def pool2DKey (input : Tensor) (type : OpType) (kernelH kernelW strideH strideW : Int)
    (padding : PaddingMode) (activation : ActiMode) : Key :=
  unaryKey [.int kernelH, .int kernelW, .int strideH, .int strideW, .padding padding,
    .acti activation, .opType type] (Tensor.MAX_KEY_LENGTH + 7) input

/-- `ReshapeKey`; a ninth dimension still fits the key, so no bound is tested here. -/
def reshapeKey (input : Tensor) (shape : List Int) : Key :=
  input.serialize
    (writeAt (List.replicate (Tensor.MAX_KEY_LENGTH + MAX_DIM + 1) (KeyCell.int 0)) 0
      (.int shape.length :: shape.map .int)) (1 + shape.length)

/-- The parameter cells stand at the front of a key. -/
theorem getElem?_binaryKey_lead (lead : List KeyCell) (length : Nat) (t1 t2 : Tensor) {j : Nat}
    (hj : j < lead.length) : (binaryKey lead length t1 t2)[j]? = lead[j]? := by
  rw [binaryKey, Tensor.getElem?_serialize_lt _ _ hj, Tensor.getElem?_serialize_lt _ _ hj,
    keyCells, List.getElem?_append_left hj]

theorem take_binaryKey (lead : List KeyCell) (length : Nat) (t1 t2 : Tensor) :
    (binaryKey lead length t1 t2).take lead.length = lead := by
  refine List.ext_getElem? fun j => ?_
  rcases Nat.lt_or_ge j lead.length with hj | hj
  · rw [List.getElem?_take_of_lt hj, getElem?_binaryKey_lead _ _ _ _ hj]
  · rw [List.getElem?_eq_none (by simp; omega), List.getElem?_eq_none hj]

/-! ## Tables -/

/-- Whether `KeyCompare.__lt__` can order two keys: their first cells are equal or are both
integers. -/
def KeyCell.comparable : KeyCell → KeyCell → Bool
  | .int _, .int _ => true
  | a, b => a == b

def keysComparable (k k' : Key) : Bool :=
  match k, k' with
  | c :: _, c' :: _ => c.comparable c'
  | _, _ => true

/-- `table[key] = op` on a `SortedDict`. -/
def sortedInsert (table : OpTable) (key : Key) (p : OpBase) : Except PyError OpTable :=
  if table.all (fun entry => keysComparable key entry.1) then .ok ((key, p) :: table)
  else .error .typeError

/-- The look-up every `get_or_create_*` makes, with the body built on a miss. -/
def lookupOrBuild (table : OpTable) (key : Key) (build : Except PyError OpBase) :
    Except PyError (OpBase × OpTable) :=
  match lookupKey table key with
  | some p => .ok (p, table)
  | none => do
      let p ← build
      let table' ← sortedInsert table key p
      return (p, table')

theorem lookupOrBuild_cases {table table' : OpTable} {key : Key} {build : Except PyError OpBase}
    {p : OpBase} (h : lookupOrBuild table key build = .ok (p, table')) :
    (lookupKey table key = some p ∧ table' = table) ∨
      (build = .ok p ∧ table' = (key, p) :: table) := by
  unfold lookupOrBuild at h
  split at h
  · next q hq =>
    cases h
    exact .inl ⟨hq, rfl⟩
  · simp only [bind_ok_iff] at h
    obtain ⟨q, hbuild, t, hinsert, hret⟩ := h
    cases hret
    unfold sortedInsert at hinsert
    split at hinsert
    · cases hinsert
      exact .inr ⟨hbuild, rfl⟩
    · cases hinsert

/-! ## `Model` -/

/-- `tag` tells the `Model` objects of one interpreter apart. -/
structure Model where
  tag : Nat
  global_unique_id : Nat
  conv2d : OpTable
  element : OpTable
  reshape : OpTable
  activation : OpTable
  pool2d : OpTable
  matmul : OpTable

namespace Model

/-- `Model()`. -/
def new (tag : Nat) : Model :=
  { tag, global_unique_id := 100, conv2d := [], element := [], reshape := [],
    activation := [], pool2d := [], matmul := [] }

/-- The identity a body built by this request gets. -/
def nextAddr (m : Model) : Nat × Nat := (m.tag, m.global_unique_id)

/-- `ret = Op(); ret.ptr = p; ret.guid = self.global_unique_id; … += 1`. -/
def wrap (m : Model) (p : OpBase) : Op × Model :=
  (⟨m.global_unique_id, some p⟩, { m with global_unique_id := m.global_unique_id + 1 })

/-- `create_input`. -/
def createInput (m : Model) (input : Tensor) : Op × Model :=
  m.wrap (mkNoOp m.nextAddr input .OP_INPUT)

/-- `create_weight`. -/
def createWeight (m : Model) (weight : Tensor) : Except PyError (Op × Model) :=
  if weight.data_ptr = none then .error .notImplementedError
  else .ok (m.wrap (mkNoOp m.nextAddr weight .OP_WEIGHT))

/-- `broadcastable`: right-aligned dims are equal or one of them is 1. -/
def broadcastable (t1 t2 : Tensor) : Bool :=
  (List.range (min t1.numDim t2.numDim)).all fun (d : Nat) =>
    !(decide (t1.dimAt (t1.numDim - 1 - d) ≠ 1) && decide (t2.dimAt (t2.numDim - 1 - d) ≠ 1)
      && decide (t1.dimAt (t1.numDim - 1 - d) ≠ t2.dimAt (t2.numDim - 1 - d)))

/-- `get_or_create_element`. -/
def getOrCreateElement (m : Model) (type : OpType) (t1 t2 : Tensor) :
    Except PyError (Op × Model) := do
  if broadcastable t1 t2 = false then
    return (Op.invalid, m)
  let (p, table) ← lookupOrBuild m.element (elementKey t1 t2 type)
    (.ok (mkElement m.nextAddr type t1 t2))
  return { m with element := table }.wrap p

/-- `get_or_create_conv2d`. -/
def getOrCreateConv2d (m : Model) (input weight : Tensor) (strideH strideW : Int)
    (padding : PaddingMode) (activation : ActiMode) : Except PyError (Op × Model) := do
  let r ← pyMod (input.dimAt 1) (weight.dimAt 1)
  if r ≠ 0 then
    return (Op.invalid, m)
  let key ← conv2DKey input weight strideH strideW padding activation
  let (p, table) ← lookupOrBuild m.conv2d key
    (mkConv2D m.nextAddr input weight strideH strideW padding activation)
  return { m with conv2d := table }.wrap p

/-- `get_or_create_pool2d`. -/
def getOrCreatePool2d (m : Model) (input weight : Tensor) (type : OpType)
    (kernelH kernelW strideH strideW : Int) (padding : PaddingMode) (activation : ActiMode) :
    Except PyError (Op × Model) := do
  let (p, table) ← lookupOrBuild m.pool2d
    (pool2DKey input type kernelH kernelW strideH strideW padding activation)
    (mkPool2D m.nextAddr input weight type kernelH kernelW strideH strideW padding activation)
  return { m with pool2d := table }.wrap p

/-- `get_or_create_activation`. -/
def getOrCreateActivation (m : Model) (input : Tensor) (type : OpType) (inPlace : Bool) :
    Except PyError (Op × Model) := do
  let (p, table) ← lookupOrBuild m.activation (activationKey input type inPlace)
    (.ok (mkActivation m.nextAddr input type inPlace))
  return { m with activation := table }.wrap p

/-- The three tests `get_or_create_matmul` makes before it looks at its table. -/
def matmulCompatible (input weight : Tensor) : Bool :=
  decide (input.numDim = weight.numDim) &&
    decide (∀ i < input.numDim - 2, input.dimAt (i : Nat) = weight.dimAt (i : Nat)) &&
      decide (input.dimAt (input.numDim - 1) = weight.dimAt (weight.numDim - 2))

/-- `get_or_create_matmul`. -/
def getOrCreateMatmul (m : Model) (input weight : Tensor) (acti : ActiMode) :
    Except PyError (Op × Model) := do
  if matmulCompatible input weight = false then
    return (Op.invalid, m)
  let key ← matmulKey input weight acti
  let (p, table) ← lookupOrBuild m.matmul key (mkMatmul m.nextAddr input weight acti)
  return { m with matmul := table }.wrap p

/-- `get_or_create_reshape`. -/
def getOrCreateReshape (m : Model) (input : Tensor) (shape : List Int) :
    Except PyError (Op × Model) := do
  let (p, table) ← lookupOrBuild m.reshape (reshapeKey input shape)
    (mkReshape m.nextAddr input shape)
  return { m with reshape := table }.wrap p

/-- `get_or_create_transpose`: the key is built (its assertions are those of
`permutation_to_index`) but nothing is ever stored under it, so every call builds anew. -/
def getOrCreateTranspose (m : Model) (input : Tensor) (perm : List Int) (shuffle : Bool) :
    Except PyError (Op × Model) := do
  let _ ← permutationToIndex perm
  let p ← mkTranspose m.nextAddr input perm shuffle
  return m.wrap p

end Model

end Peps
