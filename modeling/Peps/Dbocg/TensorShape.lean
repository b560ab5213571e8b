import Peps.Lib.Shapes
import Peps.Dbocg.Op

/-!
# Tensors and their shapes

What stands in the lists of a tensor, as a shape: its dims, its volume, and the row-major strides
that the constructors fill in from the last dimension on.
-/

namespace Peps

open Lib

/-! ## Subscripts -/

theorem pyIndex_natCast (n i : Nat) : pyIndex n (i : Nat) = i := by
  rw [pyIndex, if_neg (by omega), Int.toNat_natCast]

theorem pyGet_natCast {α : Type} {n : Nat} (v : Vector α n) {i : Nat} (hi : i < n) (x : α) :
    pyGet v (i : Nat) x = v[i] := by
  rw [pyGet, pyIndex_natCast, List.getD_eq_getElem?_getD,
    List.getElem?_eq_getElem (by simpa using hi), Option.getD_some, Vector.getElem_toList]

theorem pyGet_pySet {α : Type} {n : Nat} (v : Vector α n) (x fallback : α) {i j : Nat}
    (hj : j < n) :
    pyGet (pySet v (i : Nat) x) (j : Nat) fallback =
      if i = j then x else pyGet v (j : Nat) fallback := by
  rw [pyGet_natCast _ hj, pyGet_natCast _ hj, pySet, pyIndex_natCast,
    Vector.getElem_setIfInBounds hj]

namespace Tensor

variable {t : Tensor}

@[simp] theorem length_dims (t : Tensor) : t.dims.length = t.numDim := by simp [dims]

theorem getElem?_dims {i : Nat} (hi : i < t.numDim) : t.dims[i]? = some (t.dimAt (i : Nat)) := by
  simp [dims, hi]

theorem dimAt_of_getElem? {i : Nat} {d : Int} (h : t.dims[i]? = some d) :
    t.dimAt (i : Nat) = d := by
  have hi : i < t.numDim := by
    rw [← length_dims]
    exact (List.getElem?_eq_some_iff.mp h).1
  rw [getElem?_dims hi] at h
  exact Option.some.inj h

def strides (t : Tensor) : List Int := (List.range t.numDim).map fun (i : Nat) => t.strideAt i

theorem volume_eq (t : Tensor) : t.volume = Shape.volume t.dims := by
  have hfold : ∀ n, (List.range n).foldl (fun ret (i : Nat) => ret * t.dimAt i) 1 =
      Shape.volume ((List.range n).map fun (i : Nat) => t.dimAt i) := by
    intro n
    induction n with
    | zero => rfl
    | succ n ih =>
      rw [List.range_succ, List.foldl_append, List.map_append, Shape.volume_append, ← ih]
      simp [Shape.volume]
  exact hfold t.numDim

/-! ## Row-major layouts -/

/-- What the loop of the constructors has done down to dimension `k`. -/
structure FilledFrom (dims : List Int) (k : Nat)
    (s : Vector Int MAX_DIM × Vector Int MAX_DIM × Int) : Prop where
  dim : ∀ i, k ≤ i → i < dims.length → pyGet s.1 (i : Nat) 0 = dims.getD i 0
  stride : ∀ i, k ≤ i → i < dims.length →
    pyGet s.2.1 (i : Nat) 0 = Shape.volume (dims.drop (i + 1))
  count : s.2.2 = Shape.volume (dims.drop k)

theorem filledFrom_fillRowMajor {dims : List Int} (h : dims.length ≤ MAX_DIM) :
    FilledFrom dims 0 (fillRowMajor dims) := by
  -- the loop runs down from the last dimension; `s` is what it has done above `k`
  have hrounds : ∀ (k : Nat) (s : Vector Int MAX_DIM × Vector Int MAX_DIM × Int),
      k ≤ dims.length → FilledFrom dims k s →
      FilledFrom dims 0 ((List.range k).foldr
        (fun (i : Nat) s =>
          (pySet s.1 i (dims.getD i 0), pySet s.2.1 i s.2.2, s.2.2 * dims.getD i 0)) s) := by
    intro k
    induction k with
    | zero => exact fun s _ hs => hs
    | succ k ih =>
      intro s hk hs
      rw [List.range_succ, List.foldr_append, List.foldr_cons, List.foldr_nil]
      have hdrop : dims.drop k = dims.getD k 0 :: dims.drop (k + 1) := by
        rw [List.getD_eq_getElem?_getD, List.getElem?_eq_getElem (by omega), Option.getD_some,
          List.drop_eq_getElem_cons (by omega)]
      refine ih _ (by omega) ⟨fun i hi hlen => ?_, fun i hi hlen => ?_, ?_⟩
      · rw [pyGet_pySet _ _ _ (by omega)]
        split
        · next heq => rw [heq]
        · exact hs.dim i (by omega) hlen
      · rw [pyGet_pySet _ _ _ (by omega)]
        split
        · next heq => rw [← heq, hs.count]
        · exact hs.stride i (by omega) hlen
      · rw [hs.count, hdrop, Shape.volume, mul_comm]
  refine hrounds dims.length _ le_rfl ⟨fun i hi hlen => ?_, fun i hi hlen => ?_, ?_⟩
  · omega
  · omega
  · rw [List.drop_length]
    rfl

theorem fillRowMajor_volume {dims : List Int} (h : dims.length ≤ MAX_DIM) :
    (fillRowMajor dims).2.2 = Shape.volume dims := (filledFrom_fillRowMajor h).count

/-- A tensor that was filled in from a list of dims. -/
theorem layout_of_fillRowMajor {dims : List Int} (h : dims.length ≤ MAX_DIM)
    (hn : t.numDim = dims.length) (hd : t.dim = (fillRowMajor dims).1)
    (hs : t.stride = (fillRowMajor dims).2.1) :
    t.dims = dims ∧ t.strides = Shape.rowMajor dims := by
  have hfilled := filledFrom_fillRowMajor h
  refine ⟨List.ext_getElem? fun i => ?_, List.ext_getElem? fun i => ?_⟩
  · by_cases hi : i < dims.length
    · have hcell := hfilled.dim i (by omega) hi
      rw [getElem?_dims (by omega), dimAt, hd, hcell, List.getD_eq_getElem?_getD,
        List.getElem?_eq_getElem hi, Option.getD_some]
    · rw [List.getElem?_eq_none (by rw [length_dims]; omega), List.getElem?_eq_none (by omega)]
  · by_cases hi : i < dims.length
    · have hcell := hfilled.stride i (by omega) hi
      rw [Shape.getElem?_rowMajor _ hi, strides, List.getElem?_map,
        List.getElem?_range (by omega), Option.map_some, strideAt, hs, hcell]
    · rw [List.getElem?_eq_none (by simp [strides]; omega),
        List.getElem?_eq_none (by simp; omega)]

end Tensor

/-- The output of an operator has this shape, without gaps. -/
def HasShape (p : OpBase) (shape : List Int) : Prop :=
  p.output.dims = shape ∧ p.output.strides = Shape.rowMajor shape

/-- `Tensor(len(dims), dims, …)`, for at most eight dims. -/
def tensorOf (dims : List Int) : Tensor := (Tensor.ofDims dims none).toOption.getD Tensor.empty

/-- What `Reshape.__init__` does. -/
theorem mkReshape_ok_iff (addr : Nat × Nat) {input : Tensor} {shape : List Int}
    (h : shape.length ≤ MAX_DIM) :
    (∃ p, mkReshape addr input shape = .ok p) ↔ Shape.volume shape = input.volume := by
  unfold mkReshape
  rw [dif_pos h, Tensor.fillRowMajor_volume h]
  simp only [bind_ok_iff, pyAssert_eq_ok, exists_const]
  constructor
  · rintro ⟨p, hvol, -⟩
    exact hvol.symm
  · exact fun hvol => ⟨_, hvol.symm, rfl⟩

theorem mkReshape_hasShape {addr : Nat × Nat} {input : Tensor} {shape : List Int} {p : OpBase}
    (h : mkReshape addr input shape = .ok p) : HasShape p shape := by
  unfold mkReshape at h
  split at h
  · next hlen =>
    simp only [bind_ok_iff, pyAssert_eq_ok, exists_const] at h
    obtain ⟨-, hp⟩ := h
    cases hp
    exact Tensor.layout_of_fillRowMajor hlen rfl rfl rfl
  · cases h

end Peps
