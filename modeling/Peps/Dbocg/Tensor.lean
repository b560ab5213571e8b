import Mathlib.Data.Vector.Basic
import Peps.Lib.Cells
import Peps.Dbocg.Const

/-!
# `tensor.py` — split infos, tensors and their serialisation

A `Tensor` of the source is a handle: a shape (`numDim`, and `dim`, `stride` and `split`
lists of `MAX_DIM` cells), the output index `idx`, the data it may carry, and the operator
it comes from. The operator is kept apart here (`TensorHandle` in `Graph`): no function
that reads a tensor stored inside an operator ever looks at its `op` field.

A `SplitInfo` is the list of its first `num` positions: the cells of `pos` past `num` are
never read. Split infos are values; the source shares them between tensors and `combine`
clears one in place, which no shape, stride or parameter depends on.
-/

namespace Peps

open Lib

/-! ## Python subscripts -/

/-- The cell of a list of length `n` that subscript `i` selects: negative subscripts count
from the end. -/
def pyIndex (n : Nat) (i : Int) : Nat := if i < 0 then (i + n).toNat else i.toNat

def pyGet {α : Type} {n : Nat} (v : Vector α n) (i : Int) (fallback : α) : α :=
  v.toList.getD (pyIndex n i) fallback

def pySet {α : Type} {n : Nat} (v : Vector α n) (i : Int) (x : α) : Vector α n :=
  v.setIfInBounds (pyIndex n i) x

/-! ## `SplitInfo` -/

structure SplitInfo where
  pos : List Int
  hlen : pos.length ≤ MAX_NUM_SPLITS
deriving DecidableEq

namespace SplitInfo

def num (s : SplitInfo) : Nat := s.pos.length

/-- `SplitInfo.NO_SPLIT`. -/
def noSplit : SplitInfo := ⟨[], Nat.zero_le _⟩

/-- `combine`: keep the positions only when both operands have the same ones. -/
def combine (s next : SplitInfo) : SplitInfo :=
  if s.num ≠ next.num then noSplit
  else if s.pos = next.pos then s
  else noSplit

end SplitInfo

/-- One cell of a key array: the integers `serialize` writes, and the enumeration members
the key constructors put beside them. An `Enum` member equals no integer. -/
inductive KeyCell where
  | int (n : Int)
  | opType (t : OpType)
  | padding (p : PaddingMode)
  | acti (a : ActiMode)
deriving DecidableEq

/-- `SplitInfo.serialize`: the count, then the positions. -/
def SplitInfo.serialize (s : SplitInfo) (keys : List KeyCell) (idx : Nat) : List KeyCell :=
  writeAt keys idx (.int s.num :: s.pos.map .int)

/-! ## `Tensor` -/

structure Tensor where
  numDim : Nat
  dim : Vector Int MAX_DIM
  stride : Vector Int MAX_DIM
  split : Vector SplitInfo MAX_DIM
  idx : Nat
  data_ptr : Option Nat
  hdim : numDim ≤ MAX_DIM
deriving DecidableEq

namespace Tensor

def MAX_KEY_LENGTH : Nat := (MAX_NUM_SPLITS + 2) * MAX_DIM + 2
def MAGIC_NUMBER : Int := 23333

/-- `Tensor()`. -/
def empty : Tensor where
  numDim := 0
  dim := Vector.replicate MAX_DIM 0
  stride := Vector.replicate MAX_DIM 0
  split := Vector.replicate MAX_DIM SplitInfo.noSplit
  idx := 0
  data_ptr := none
  hdim := Nat.zero_le _

instance : Inhabited Tensor := ⟨empty⟩

/-- `self.dim[i]`. -/
def dimAt (t : Tensor) (i : Int) : Int := pyGet t.dim i 0

/-- `self.stride[i]`. -/
def strideAt (t : Tensor) (i : Int) : Int := pyGet t.stride i 0

/-- `self.split[i]`. -/
def splitAt (t : Tensor) (i : Int) : SplitInfo := pyGet t.split i SplitInfo.noSplit

def dims (t : Tensor) : List Int := (List.range t.numDim).map fun (i : Nat) => t.dimAt i

/-- `volume`. -/
def volume (t : Tensor) : Int :=
  (List.range t.numDim).foldl (fun ret (i : Nat) => ret * t.dimAt i) 1

/-- The dims and strides `Tensor(ndim, dims, …)` fills in, last dimension first. -/
def fillRowMajor (dims : List Int) :
    Vector Int MAX_DIM × Vector Int MAX_DIM × Int :=
  (List.range dims.length).foldr
    (fun (i : Nat) (d, s, count) =>
      (pySet d i (dims.getD i 0), pySet s i count, count * dims.getD i 0))
    (Vector.replicate MAX_DIM 0, Vector.replicate MAX_DIM 0, 1)

/-- `Tensor(ndim, dims, guid, data)` for a non-empty shape: `assert ndim <= MAX_DIM`, then
row-major strides and no splits. -/
def ofDims (dims : List Int) (data : Option Nat) : Except PyError Tensor :=
  if h : dims.length ≤ MAX_DIM then
    .ok { numDim := dims.length
          dim := (fillRowMajor dims).1
          stride := (fillRowMajor dims).2.1
          split := Vector.replicate MAX_DIM SplitInfo.noSplit
          idx := 0
          data_ptr := data
          hdim := h }
  else .error .assertionError

/-- The header cells of `serialize`: the magic number, `numDim`, the dims, the strides. -/
def header (t : Tensor) : List KeyCell :=
  .int MAGIC_NUMBER :: .int t.numDim ::
    ((List.range t.numDim).map (fun (i : Nat) => KeyCell.int (t.dimAt i)) ++
      (List.range t.numDim).map (fun (i : Nat) => KeyCell.int (t.strideAt i)))

/-- `serialize`. The index is advanced over the header and then handed unchanged to every
split info, so each of them writes over the one before. -/
def serialize (t : Tensor) (keys : List KeyCell) (idx : Nat) : List KeyCell :=
  (List.range t.numDim).foldl
    (fun ks (i : Nat) => (t.splitAt i).serialize ks (idx + 2 + 2 * t.numDim))
    (writeAt keys idx t.header)

/-- `has_same_shape_stride_split`. -/
def hasSameShapeStrideSplit (t u : Tensor) : Bool :=
  decide (t.numDim = u.numDim) &&
    (List.range t.numDim).all fun (i : Nat) =>
      decide (t.dimAt i = u.dimAt i) && decide (t.strideAt i = u.strideAt i) &&
        decide (t.splitAt i = u.splitAt i)

end Tensor

/-! ## What a serialised tensor leaves in the key -/

namespace Tensor

@[simp] theorem length_header (t : Tensor) : t.header.length = 2 + 2 * t.numDim := by
  simp [header]
  omega

/-- The splits never touch a cell below their index. -/
theorem getElem?_splits_lt (t : Tensor) (is : List Nat) (keys : List KeyCell) {idx j : Nat}
    (h : j < idx) :
    (is.foldl (fun ks (i : Nat) => (t.splitAt i).serialize ks idx) keys)[j]? = keys[j]? := by
  induction is generalizing keys with
  | nil => rfl
  | cons i is ih => rw [List.foldl_cons, ih, SplitInfo.serialize, getElem?_writeAt_lt _ _ h]

@[simp] theorem length_serialize (t : Tensor) (keys : List KeyCell) (idx : Nat) :
    (t.serialize keys idx).length = keys.length := by
  show ((List.range t.numDim).foldl (fun ks (i : Nat) => writeAt ks (idx + 2 + 2 * t.numDim)
    (KeyCell.int (t.splitAt i).num :: (t.splitAt i).pos.map KeyCell.int)) _).length = _
  rw [length_foldl_writeAt, length_writeAt]

/-- Cells before the index survive. -/
theorem getElem?_serialize_lt (t : Tensor) (keys : List KeyCell) {idx j : Nat} (h : j < idx) :
    (t.serialize keys idx)[j]? = keys[j]? := by
  rw [serialize, getElem?_splits_lt _ _ _ (by omega), getElem?_writeAt_lt _ _ h]

/-- The header stands where it was written: the splits come after it. -/
theorem getElem?_serialize_header (t : Tensor) (keys : List KeyCell) (idx : Nat) {k : Nat}
    (hk : k < 2 + 2 * t.numDim) (hin : idx + k < keys.length) :
    (t.serialize keys idx)[idx + k]? = t.header[k]? := by
  rw [serialize, getElem?_splits_lt _ _ _ (by omega),
    getElem?_writeAt_mid _ _ (by simpa using hk) hin]

/-- Two tensors whose serialisations agree have the same rank, dims and strides, whatever
the key arrays held before. -/
theorem shape_eq_of_serialize_eq {t u : Tensor} {keys keys' : List KeyCell} {idx : Nat}
    (hlen : idx + 2 + 2 * MAX_DIM ≤ keys.length) (hlen' : keys'.length = keys.length)
    (h : t.serialize keys idx = u.serialize keys' idx) :
    t.numDim = u.numDim ∧
      ∀ i < t.numDim, t.dimAt (i : Nat) = u.dimAt (i : Nat) ∧
        t.strideAt (i : Nat) = u.strideAt (i : Nat) := by
  have ht := t.hdim
  have hu := u.hdim
  have hcell : ∀ k, k < 2 + 2 * t.numDim → k < 2 + 2 * u.numDim →
      t.header[k]? = u.header[k]? := by
    intro k hkt hku
    rw [← getElem?_serialize_header t keys idx hkt (by omega),
      ← getElem?_serialize_header u keys' idx hku (by omega), h]
  have hnum : t.numDim = u.numDim := by
    have h1 := hcell 1 (by omega) (by omega)
    simp only [header, List.getElem?_cons_succ, List.getElem?_cons_zero, Option.some.injEq,
      KeyCell.int.injEq] at h1
    exact_mod_cast h1
  refine ⟨hnum, fun i hi => ⟨?_, ?_⟩⟩
  · have hc := hcell (i + 2) (by omega) (by omega)
    have hiu : i < u.numDim := by omega
    simpa [header, hi, hiu, List.getElem?_append_left] using hc
  · have hc := hcell (t.numDim + i + 2) (by omega) (by omega)
    have hiu : i < u.numDim := by omega
    have hsplit : ∀ (v : Tensor), v.numDim = t.numDim →
        v.header[t.numDim + i + 2]? = some (.int (v.strideAt (i : Nat))) := by
      intro v hv
      simp [header, hv, hi]
    rw [hsplit t rfl, hsplit u hnum.symm] at hc
    simpa using hc

/-- What `has_same_shape_stride_split` gives on the dimensions both tensors have. -/
theorem hasSameShapeStrideSplit_iff (t u : Tensor) :
    t.hasSameShapeStrideSplit u = true ↔
      t.numDim = u.numDim ∧ ∀ i < t.numDim, t.dimAt (i : Nat) = u.dimAt (i : Nat) ∧
        t.strideAt (i : Nat) = u.strideAt (i : Nat) ∧
        t.splitAt (i : Nat) = u.splitAt (i : Nat) := by
  simp [hasSameShapeStrideSplit, and_assoc]

end Tensor

end Peps
