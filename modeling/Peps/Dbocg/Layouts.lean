import Peps.Dbocg.Broadcast
import Peps.Dbocg.Reshape
import Peps.Dbocg.Session

/-!
# Row-major layouts

Every constructor of an operator fills in the strides of its output by a loop of its own. All of them
leave a row-major layout (`Tensor.Laid`), the operators that the tables of a `Model` share included, and
so does every history of builder calls (`laid_of_builds`).

`Matmul` addresses the last two dimensions. A tensor of one dimension has no last but one: its
subscript is -1 there, the last cell of the list, which is unused and zero. So two such tensors pass
the tests when the first has dim 0, and the size that is then compared with the volume is zero
(`mkMatmul_asserts_iff`).
-/

namespace Peps

open Lib

namespace Tensor

/-! ## `default_layout` -/

/-- One round of the loop of `default_layout`; `none` when it has returned. -/
def layoutRound (t : Tensor) (i : Nat) (cnt : Option Int) : Option Int :=
  cnt.bind fun cnt => if t.strideAt i ≠ cnt then none else some (cnt * t.dimAt i)

/-- `default_layout`. -/
def defaultLayout (t : Tensor) : Bool :=
  ((List.range t.numDim).foldr t.layoutRound (some 1)).isSome

variable {t : Tensor}

theorem drop_dims {k : Nat} (hk : k < t.numDim) :
    t.dims.drop k = t.dimAt (k : Nat) :: t.dims.drop (k + 1) := by
  have hlt : k < t.dims.length := by rw [length_dims]; exact hk
  have hget : t.dims[k] = t.dimAt (k : Nat) := by
    have hsome := getElem?_dims hk
    rw [List.getElem?_eq_getElem hlt] at hsome
    exact Option.some.inj hsome
  rw [List.drop_eq_getElem_cons hlt, hget]

/-- The loop, from dimension `k` down: `cnt` is the product of the dims above. -/
theorem layoutRound_run {k : Nat} (hk : k ≤ t.numDim) :
    ((List.range k).foldr t.layoutRound (some (Shape.volume (t.dims.drop k)))).isSome ↔
      ∀ i < k, t.strideAt (i : Nat) = Shape.volume (t.dims.drop (i + 1)) := by
  induction k with
  | zero => exact iff_of_true rfl fun i hi => absurd hi (Nat.not_lt_zero i)
  | succ k ih =>
    have hnone : ∀ l : List Nat, l.foldr t.layoutRound none = none := by
      intro l
      induction l with
      | nil => rfl
      | cons i l ih => rw [List.foldr_cons, ih]; rfl
    rw [List.range_succ, List.foldr_append, List.foldr_cons, List.foldr_nil]
    show ((List.range k).foldr t.layoutRound
      (if t.strideAt (k : Nat) ≠ Shape.volume (t.dims.drop (k + 1)) then none
       else some (Shape.volume (t.dims.drop (k + 1)) * t.dimAt (k : Nat)))).isSome ↔ _
    by_cases hstride : t.strideAt (k : Nat) = Shape.volume (t.dims.drop (k + 1))
    · have hvol : Shape.volume (t.dims.drop (k + 1)) * t.dimAt (k : Nat) =
          Shape.volume (t.dims.drop k) := by
        rw [drop_dims (Nat.lt_of_succ_le hk), Shape.volume, mul_comm]
      rw [if_neg (not_not.mpr hstride), hvol, ih (by omega)]
      constructor
      · intro h i hi
        by_cases hlast : i = k
        · rw [hlast]
          exact hstride
        · exact h i (by omega)
      · exact fun h i hi => h i (by omega)
    · rw [if_pos hstride, hnone]
      exact iff_of_false (by simp) fun h => hstride (h k (Nat.lt_succ_self k))

/-- `default_layout` returns `True` when every stride is the product of the dims after it. -/
theorem defaultLayout_iff_strides (t : Tensor) :
    t.defaultLayout = true ↔
      ∀ i < t.numDim, t.strideAt (i : Nat) = Shape.volume (t.dims.drop (i + 1)) := by
  have hrun := layoutRound_run (t := t) le_rfl
  have hend : t.dims.drop t.numDim = [] := by rw [← length_dims]; exact List.drop_length ..
  rw [hend] at hrun
  exact hrun

/-- **`default_layout`** is the row-major layout. -/
theorem defaultLayout_iff (t : Tensor) :
    t.defaultLayout = true ↔ t.strides = Shape.rowMajor t.dims := by
  refine (defaultLayout_iff_strides t).trans ⟨fun h => ?_, fun h i hi => ?_⟩
  · refine List.ext_getElem? fun i => ?_
    by_cases hi : i < t.numDim
    · rw [Shape.getElem?_rowMajor _ (by rw [length_dims]; exact hi), ← h i hi, strides,
        List.getElem?_map, List.getElem?_range hi]
      rfl
    · rw [List.getElem?_eq_none (by simp [strides]; omega),
        List.getElem?_eq_none (by simp; omega)]
  · have hcell := congrArg (·[i]?) h
    simp only [strides] at hcell
    rw [Shape.getElem?_rowMajor _ (by rw [length_dims]; exact hi), List.getElem?_map,
      List.getElem?_range hi] at hcell
    exact Option.some.inj hcell

/-! ## The constructors -/

/-- A tensor of at least one dimension in a row-major layout, with zeros in the unused cells. -/
structure Laid (t : Tensor) : Prop where
  numDim : 1 ≤ t.numDim
  layout : t.strides = Shape.rowMajor t.dims
  unused : ∀ i : Nat, t.numDim ≤ i → i < MAX_DIM → t.dimAt i = 0

/-- Only `numDim`, `dim` and `stride` count. -/
theorem Laid.congr {t' : Tensor} (h : t.Laid) (hnum : t'.numDim = t.numDim) (hdim : t'.dim = t.dim)
    (hstride : t'.stride = t.stride) : t'.Laid := by
  have hdims : t'.dims = t.dims := by simp only [dims, dimAt, hnum, hdim]
  have hstrides : t'.strides = t.strides := by simp only [strides, strideAt, hnum, hstride]
  refine ⟨hnum ▸ h.numDim, by rw [hstrides, hdims]; exact h.layout, fun i hi hlt => ?_⟩
  rw [dimAt, hdim]
  exact h.unused i (hnum ▸ hi) hlt

/-- The loop of the constructors writes to the dimensions of the shape only. -/
theorem fillRowMajor_unused {dims : List Int} {i : Nat} (hlen : dims.length ≤ i) (hi : i < MAX_DIM) :
    pyGet (fillRowMajor dims).1 (i : Nat) 0 = 0 := by
  have hrounds : ∀ (k : Nat) (s : Vector Int MAX_DIM × Vector Int MAX_DIM × Int), k ≤ i →
      pyGet s.1 (i : Nat) 0 = 0 →
      pyGet ((List.range k).foldr (fun (i : Nat) s =>
        (pySet s.1 i (dims.getD i 0), pySet s.2.1 i s.2.2, s.2.2 * dims.getD i 0)) s).1 (i : Nat) 0 =
          0 := by
    intro k
    induction k with
    | zero => exact fun s _ hs => hs
    | succ k ih =>
      intro s hk hs
      rw [List.range_succ, List.foldr_append, List.foldr_cons, List.foldr_nil]
      refine ih _ (by omega) ?_
      rw [pyGet_pySet _ _ _ hi, if_neg (by omega)]
      exact hs
  refine hrounds dims.length _ hlen ?_
  rw [pyGet_natCast _ hi, Vector.getElem_replicate]

/-- A tensor filled in from a shape that is not empty. -/
theorem Laid.of_fillRowMajor {dims : List Int} (h : dims.length ≤ MAX_DIM) (hne : dims ≠ [])
    (hn : t.numDim = dims.length) (hd : t.dim = (fillRowMajor dims).1)
    (hs : t.stride = (fillRowMajor dims).2.1) : t.Laid := by
  obtain ⟨hdims, hstrides⟩ := layout_of_fillRowMajor h hn hd hs
  refine ⟨?_, by rw [hstrides, hdims], fun i hi hlt => ?_⟩
  · rw [hn]
    exact List.length_pos_of_ne_nil hne
  · rw [dimAt, hd]
    exact fillRowMajor_unused (hn ▸ hi) hlt

theorem Laid.of_ofDims {dims : List Int} {data : Option Nat} (hne : dims ≠ [])
    (h : ofDims dims data = .ok t) : t.Laid := by
  unfold ofDims at h
  split at h
  · next hlen =>
    cases h
    exact Laid.of_fillRowMajor hlen hne rfl rfl rfl
  · cases h

end Tensor

/-- The body has one output, and it is laid out row by row. -/
def OpBase.Laid (p : OpBase) : Prop := ∃ t, p.outputs = [t] ∧ t.Laid

theorem OpBase.Laid.output {p : OpBase} (h : p.Laid) : p.output.Laid := by
  obtain ⟨t, hout, ht⟩ := h
  rw [OpBase.output, hout]
  exact ht

section Constructors

variable {addr : Nat × Nat} {input weight : Tensor} {p : OpBase}

theorem mkNoOp_laid (h : input.Laid) (type : OpType) : (mkNoOp addr input type).Laid :=
  ⟨_, rfl, h.congr rfl rfl rfl⟩

theorem mkActivation_laid (h : input.Laid) (type : OpType) (inPlace : Bool) :
    (mkActivation addr input type inPlace).Laid :=
  ⟨_, rfl, h.congr rfl rfl rfl⟩

/-- The four strides that `Conv2D` and `Pool2D` write out. -/
theorem output4d_laid (d0 d1 d2 d3 : Int) (s0 s1 s2 s3 : SplitInfo) :
    (output4d d0 d1 d2 d3 s0 s1 s2 s3).Laid := by
  refine ⟨show 1 ≤ 4 by decide, ?_, fun i hi hlt => ?_⟩
  · show [1 * d3 * d2 * d1, 1 * d3 * d2, 1 * d3, 1] =
      [d1 * (d2 * (d3 * 1)), d2 * (d3 * 1), d3 * 1, 1]
    refine List.cons_eq_cons.mpr ⟨by ring, List.cons_eq_cons.mpr ⟨by ring, ?_⟩⟩
    rw [one_mul, mul_one]
  · have hnum : (output4d d0 d1 d2 d3 s0 s1 s2 s3).numDim = 4 := rfl
    rw [hnum] at hi
    obtain rfl | rfl | rfl | rfl : i = 4 ∨ i = 5 ∨ i = 6 ∨ i = 7 := by
      simp only [MAX_DIM] at hlt
      omega
    all_goals rfl

theorem mkConv2D_laid {strideH strideW : Int} {padding : PaddingMode} {activation : ActiMode}
    (h : mkConv2D addr input weight strideH strideW padding activation = .ok p) : p.Laid := by
  simp only [mkConv2D, bind_ok_iff] at h
  obtain ⟨_, _, _, _, _, _, _, _, _, _, _, _, _, _, _, _, _, _, _, _, _, _, hp⟩ := h
  cases hp
  exact ⟨_, rfl, output4d_laid ..⟩

theorem mkPool2D_laid {type : OpType} {kernelH kernelW strideH strideW : Int} {padding : PaddingMode}
    {activation : ActiMode}
    (h : mkPool2D addr input weight type kernelH kernelW strideH strideW padding activation = .ok p) :
    p.Laid := by
  simp only [mkPool2D, bind_ok_iff] at h
  obtain ⟨_, _, _, _, _, _, _, _, hp⟩ := h
  cases hp
  exact ⟨_, rfl, output4d_laid ..⟩

/-- The loop of `Element` writes to the dimensions of its output only. -/
theorem elementLoop_unused (t1 t2 : Tensor) {i : Nat} (hle : max t1.numDim t2.numDim ≤ i)
    (hi : i < MAX_DIM) : pyGet (elementLoop t1 t2).dim (i : Nat) 0 = 0 := by
  have hrounds : ∀ k ≤ max t1.numDim t2.numDim, pyGet ((List.range k).foldl
      (elementRound t1 t2 (max t1.numDim t2.numDim))
      { dim := Tensor.empty.dim, stride := Tensor.empty.stride, split := Tensor.empty.split,
        total := 1 }).dim (i : Nat) 0 = 0 := by
    intro k hk
    induction k with
    | zero =>
      rw [pyGet_natCast _ hi]
      exact Vector.getElem_replicate ..
    | succ k ih =>
      have hout : ((max t1.numDim t2.numDim : Nat) : Int) - 1 - k =
          ((max t1.numDim t2.numDim - 1 - k : Nat) : Int) := by omega
      rw [List.range_succ, List.foldl_append, List.foldl_cons, List.foldl_nil]
      simp only [elementRound, hout]
      rw [pyGet_pySet _ _ _ hi, if_neg (by omega)]
      exact ih (by omega)
  exact hrounds _ le_rfl

theorem mkElement_laid {t1 t2 : Tensor} (h1 : t1.Laid) (type : OpType) :
    (mkElement addr type t1 t2).Laid := by
  obtain ⟨hdims, hstrides⟩ := mkElement_layout addr type t1 t2
  refine ⟨(mkElement addr type t1 t2).output, rfl, h1.numDim.trans (le_max_left _ _), ?_,
    fun i hi hlt => elementLoop_unused t1 t2 hi hlt⟩
  rw [hstrides, hdims]

theorem mkReshape_laid {shape : List Int} (hne : shape ≠ []) (h : mkReshape addr input shape = .ok p) :
    p.Laid := by
  unfold mkReshape at h
  split at h
  · next hlen =>
    simp only [bind_ok_iff, pyAssert_eq_ok, exists_const] at h
    obtain ⟨-, hp⟩ := h
    cases hp
    exact ⟨_, rfl, Tensor.Laid.of_fillRowMajor hlen hne rfl rfl rfl⟩
  · cases h

theorem mkTranspose_laid {perm : List Int} {shuffle : Bool} (hinput : input.Laid)
    (h : mkTranspose addr input perm shuffle = .ok p) : p.Laid := by
  simp only [mkTranspose, bind_ok_iff, pyAssert_eq_ok] at h
  obtain ⟨_, _, permIdx, _, _, hnum, _, _, hp⟩ := h
  cases hp
  have hlen : (perm.map input.dimAt).length = input.numDim := by rw [List.length_map, hnum]
  have hle : (perm.map input.dimAt).length ≤ MAX_DIM := by
    rw [hlen]
    exact input.hdim
  refine ⟨_, rfl, Tensor.Laid.of_fillRowMajor hle ?_ hlen.symm rfl rfl⟩
  · intro hnil
    have := hinput.numDim
    rw [← hlen, hnil] at this
    exact absurd this (by decide)

end Constructors

/-! ## `Matmul` -/

section Matmul

variable {input weight : Tensor}

/-- The dims of the output: the input's, and the weight's last one. -/
theorem pyGet_matmulDim (hn : 1 ≤ input.numDim) {i : Nat} (hi : i < MAX_DIM) :
    pyGet (matmulDim input weight) (i : Nat) 0 =
      if i = input.numDim - 1 then weight.dimAt ((input.numDim - 1 : Nat) : Int)
      else if i < input.numDim - 1 then input.dimAt (i : Nat) else 0 := by
  have hcopy : ∀ k, pyGet ((List.range k).foldl (fun d (j : Nat) => pySet d j (input.dimAt j))
      Tensor.empty.dim) (i : Nat) 0 = if i < k then input.dimAt (i : Nat) else 0 := by
    intro k
    induction k with
    | zero =>
      rw [if_neg (Nat.not_lt_zero i), pyGet_natCast _ hi]
      exact Vector.getElem_replicate ..
    | succ k ih =>
      rw [List.range_succ, List.foldl_append, List.foldl_cons, List.foldl_nil, pyGet_pySet _ _ _ hi, ih]
      by_cases hik : k = i
      · rw [if_pos hik, if_pos (by omega), hik]
      · rw [if_neg hik]
        by_cases hlt : i < k
        · rw [if_pos hlt, if_pos (by omega)]
        · rw [if_neg hlt, if_neg (by omega)]
  have hlast : (input.numDim : Int) - 1 = ((input.numDim - 1 : Nat) : Int) := by omega
  rw [matmulDim, hlast, pyGet_pySet _ _ _ hi, hcopy]
  by_cases heq : input.numDim - 1 = i
  · rw [if_pos heq, if_pos heq.symm]
  · rw [if_neg heq, if_neg (Ne.symm heq)]

/-- What the loop over the strides has done down to dimension `k`. -/
structure StridesFrom (t : Tensor) (k : Nat) (s : Vector Int MAX_DIM × Int) : Prop where
  stride : ∀ i, k ≤ i → i < t.numDim → pyGet s.1 (i : Nat) 0 = Shape.volume (t.dims.drop (i + 1))
  size : s.2 = Shape.volume (t.dims.drop k)

/-- **The rounds** below two dimensions that are done. -/
theorem StridesFrom.run {t : Tensor} {k : Nat} {s : Vector Int MAX_DIM × Int} (hk : k ≤ t.numDim)
    (h : StridesFrom t k s) :
    StridesFrom t 0 ((List.range k).foldr
      (fun (i : Nat) s => (pySet s.1 i s.2, s.2 * pyGet t.dim i 0)) s) := by
  induction k generalizing s with
  | zero => exact h
  | succ k ih =>
    rw [List.range_succ, List.foldr_append, List.foldr_cons, List.foldr_nil]
    refine ih (by omega) ⟨fun i hki hi => ?_, ?_⟩
    · rw [pyGet_pySet _ _ _ (lt_of_lt_of_le hi t.hdim)]
      split
      · next heq => rw [← heq, h.size]
      · exact h.stride i (by omega) hi
    · rw [h.size, Tensor.drop_dims (Nat.lt_of_succ_le hk), Shape.volume, mul_comm]
      rfl

/-- From two dimensions on, `Matmul` fills in the row-major strides, and its size is the volume. -/
theorem matmulStride_of_two_le (hn : 2 ≤ input.numDim) :
    StridesFrom (matmulOutput input weight) 0 (matmulStride input.numDim (matmulDim input weight)) := by
  obtain ⟨n, hn'⟩ : ∃ n, input.numDim = n + 2 := ⟨input.numDim - 2, by omega⟩
  have hnum : (matmulOutput input weight).numDim = n + 2 := hn'
  have hle : n + 2 ≤ MAX_DIM := hn' ▸ input.hdim
  have hdrop2 : (matmulOutput input weight).dims.drop (n + 2) = [] := by
    refine List.drop_eq_nil_of_le ?_
    rw [Tensor.length_dims, hnum]
  have hdrop1 := Tensor.drop_dims (t := matmulOutput input weight) (k := n + 1) (by omega)
  have hdrop0 := Tensor.drop_dims (t := matmulOutput input weight) (k := n) (by omega)
  rw [hdrop2] at hdrop1
  rw [hdrop1] at hdrop0
  have hlast : (input.numDim : Int) - 1 = ((n + 1 : Nat) : Int) := by omega
  have hprev : (input.numDim : Int) - 2 = (n : Nat) := by omega
  rw [matmulStride, hlast, hprev, show input.numDim - 2 = n by omega]
  refine StridesFrom.run (by omega) ⟨fun i hi hlt => ?_, ?_⟩
  · -- the two strides that are written before the loop
    rw [pyGet_pySet _ _ _ (by omega), pyGet_pySet _ _ _ (by omega)]
    obtain rfl | rfl : i = n ∨ i = n + 1 := by omega
    · rw [if_pos rfl, hdrop1, Shape.volume, Shape.volume, mul_one]
      rfl
    · rw [if_neg (by omega), if_pos rfl, hdrop2, Shape.volume]
  · rw [hdrop0, Shape.volume, Shape.volume, Shape.volume, mul_one]
    rfl

/-- With one dimension the size is a product with the unused last cell. -/
theorem matmulStride_one (hn : input.numDim = 1) :
    (matmulStride input.numDim (matmulDim input weight)).2 = 0 ∧
      pyGet (matmulStride input.numDim (matmulDim input weight)).1 ((0 : Nat) : Int) 0 = 1 := by
  have hcell : pyGet (matmulDim input weight) (-1) 0 = 0 := by
    have hunused := @pyGet_matmulDim input weight hn.ge 7 (by decide)
    rw [hn, if_neg (by decide), if_neg (by decide)] at hunused
    exact hunused
  rw [hn]
  constructor
  · show pyGet (matmulDim input weight) (((1 : Nat) : Int) - 2) 0 * _ = 0
    rw [show (((1 : Nat) : Int) - 2) = -1 by decide, hcell, zero_mul]
  · show pyGet (pySet (pySet Tensor.empty.stride ((0 : Nat) : Int) 1) ((1 : Nat) - 2) _) _ 0 = 1
    have hindex : ∀ (v : Vector Int MAX_DIM) (x : Int),
        pySet v (((1 : Nat) : Int) - 2) x = pySet v ((7 : Nat) : Int) x := fun v x => rfl
    rw [hindex, pyGet_pySet _ _ _ (by decide), if_neg (by decide), pyGet_pySet _ _ _ (by decide),
      if_pos rfl]

theorem matmulOutput_laid (hn : 1 ≤ input.numDim) : (matmulOutput input weight).Laid := by
  refine ⟨hn, ?_, fun i hi hlt => ?_⟩
  · rw [← Tensor.defaultLayout_iff, Tensor.defaultLayout]
    have hend : (matmulOutput input weight).dims.drop (matmulOutput input weight).numDim = [] := by
      rw [← Tensor.length_dims]
      exact List.drop_length ..
    have hrun := Tensor.layoutRound_run (t := matmulOutput input weight) le_rfl
    rw [hend] at hrun
    refine hrun.mpr fun i hi => ?_
    rcases Nat.lt_or_ge input.numDim 2 with hone | htwo
    · have hn1 : input.numDim = 1 := by omega
      have hi' : i < input.numDim := hi
      obtain rfl : i = 0 := by omega
      refine (matmulStride_one hn1).2.trans ?_
      have hnil : (matmulOutput input weight).dims.drop (0 + 1) = [] := by
        refine List.drop_eq_nil_of_le ?_
        rw [Tensor.length_dims]
        exact hn1.le
      rw [hnil, Shape.volume]
    · exact (matmulStride_of_two_le htwo).stride i (Nat.zero_le i) hi
  · show pyGet (matmulDim input weight) (i : Nat) 0 = 0
    have hi' : input.numDim ≤ i := hi
    rw [pyGet_matmulDim hn hlt, if_neg (by omega), if_neg (by omega)]

/-- **When the size is the volume**: always from two dimensions on, and with one dimension only if the
weight has dim 0. -/
theorem matmulSize_iff (hn : 1 ≤ input.numDim) :
    (matmulStride input.numDim (matmulDim input weight)).2 = (matmulOutput input weight).volume ↔
      (input.numDim = 1 → weight.dimAt 0 = 0) := by
  rcases Nat.lt_or_ge input.numDim 2 with hone | htwo
  · have hn1 : input.numDim = 1 := by omega
    have hdims : (matmulOutput input weight).dims = [weight.dimAt 0] := by
      have hcell := @pyGet_matmulDim input weight hn 0 (by decide)
      rw [hn1, if_pos rfl] at hcell
      rw [Tensor.dims, show (matmulOutput input weight).numDim = 1 from hn1]
      exact congrArg (fun d => [d]) hcell
    rw [(matmulStride_one hn1).1, Tensor.volume_eq, hdims, Shape.volume, Shape.volume, mul_one]
    exact ⟨fun h _ => h.symm, fun h => (h hn1).symm⟩
  · have hsize := (@matmulStride_of_two_le input weight htwo).size
    rw [List.drop_zero, ← Tensor.volume_eq] at hsize
    exact iff_of_true hsize fun h => absurd h (by omega)

/-- The tests of the builder are the assertions at the top of `Matmul`. -/
theorem asserts_of_compatible (hcompat : Model.matmulCompatible input weight = true) :
    input.numDim = weight.numDim ∧
      (∀ i < input.numDim - 2, input.dimAt (i : Nat) = weight.dimAt (i : Nat)) ∧
      input.dimAt ((input.numDim : Int) - 1) = weight.dimAt ((input.numDim : Int) - 2) := by
  simp only [Model.matmulCompatible, Bool.and_eq_true, decide_eq_true_eq] at hcompat
  obtain ⟨⟨hnum, hbatch⟩, hinner⟩ := hcompat
  refine ⟨hnum, hbatch, ?_⟩
  rw [hnum] at hinner ⊢
  exact hinner

/-- **`Matmul`** of compatible tensors of at least two dimensions. -/
theorem mkMatmul_ok (hcompat : Model.matmulCompatible input weight = true) (htwo : 2 ≤ input.numDim)
    (addr : Nat × Nat) (acti : ActiMode) :
    mkMatmul addr input weight acti =
      .ok { addr, type := .OP_MATMUL, params := .matmul acti, inputs := [input, weight]
            outputs := [matmulOutput input weight] } := by
  obtain ⟨hnum, hbatch, hinner⟩ := asserts_of_compatible hcompat
  have hsize : (matmulStride input.numDim (matmulDim input weight)).2 =
      (matmulOutput input weight).volume :=
    (matmulSize_iff (Nat.le_of_succ_le htwo)).mpr fun hone => absurd hone (by omega)
  rw [mkMatmul, pyAssert_of hnum, pyAssert_of hbatch, pyAssert_of hinner, pyAssert_of hsize]
  rfl

/-- The size assertion of `Matmul`, once the tests of the builder have passed. -/
theorem mkMatmul_asserts_iff (hinput : input.Laid) (hweight : weight.Laid)
    (hcompat : Model.matmulCompatible input weight = true) (addr : Nat × Nat) (acti : ActiMode) :
    mkMatmul addr input weight acti ≠ .error .assertionError ↔
      ¬ (input.numDim = 1 ∧ weight.numDim = 1 ∧ input.dimAt 0 = 0 ∧ weight.dimAt 0 ≠ 0) := by
  obtain ⟨hnum, hbatch, hinner⟩ := asserts_of_compatible hcompat
  have hasserts : mkMatmul addr input weight acti ≠ .error .assertionError ↔
      (matmulStride input.numDim (matmulDim input weight)).2 = (matmulOutput input weight).volume := by
    rw [mkMatmul, pyAssert_of hnum, pyAssert_of hbatch, pyAssert_of hinner]
    by_cases hsize : (matmulStride input.numDim (matmulDim input weight)).2 =
        (matmulOutput input weight).volume
    · rw [pyAssert_of hsize]
      exact iff_of_true (fun h => by cases h) hsize
    · rw [show pyAssert ((matmulStride input.numDim (matmulDim input weight)).2 =
        (matmulOutput input weight).volume) = .error .assertionError from if_neg hsize]
      exact iff_of_false (fun h => h rfl) hsize
  rw [hasserts, matmulSize_iff hinput.numDim]
  constructor
  · rintro h ⟨hone, -, -, hne⟩
    exact hne (h hone)
  · intro h hone
    by_contra hne
    -- the weight's last but one dimension is the last, unused cell
    have hzero : input.dimAt 0 = 0 := by
      have hcell := hweight.unused 7 (by omega) (by decide)
      rw [hone] at hinner
      exact hinner.trans hcell
    exact h ⟨hone, hnum ▸ hone, hzero, hne⟩

end Matmul

/-! ## `Reshape` and `Transpose` -/

section Sizes

variable {input : Tensor} {addr : Nat × Nat}

/-- What the passes of `Graph.reshape` leave has the volume of the input. -/
theorem fillOpen_of_leftover {shape : List Int} {volume r : Int}
    (hleft : Graph.leftover volume shape = .ok r) (hone : (Graph.fillOpen shape r).2 = 1) :
    Shape.volume (Graph.fillOpen shape r).1 = volume := by
  obtain ⟨-, hvol⟩ := Graph.leftover_ok_iff.mp hleft
  by_cases hopen : -1 ∈ shape
  · rw [((Graph.fillOpen_volume shape r).1 hopen).1, hvol]
  · obtain ⟨hsame, hsize⟩ := (Graph.fillOpen_volume shape r).2 hopen
    rw [hsize] at hone
    rw [hone, mul_one, Graph.givenVolume, List.filter_eq_self.mpr] at hvol
    · rw [hsame, hvol]
    · intro x hx
      rw [decide_eq_true_eq]
      exact fun heq => hopen (heq ▸ hx)

theorem Graph.copyDims_ne_nil {shape myshape : List Int} (hne : shape ≠ [])
    (h : Graph.copyDims input shape = .ok myshape) : myshape ≠ [] := by
  obtain ⟨d, shape, rfl⟩ := List.exists_cons_of_ne_nil hne
  obtain ⟨hmem, hall⟩ := mapM_ok h
  obtain ⟨d', hd'⟩ := hall (d, 0) (List.mem_cons_self ..)
  exact List.ne_nil_of_mem ((hmem d').mpr ⟨(d, 0), List.mem_cons_self .., hd'⟩)

/-- The size assertion of `Reshape`, once the tests of the builder have passed. -/
theorem mkReshape_asserts {myshape : List Int} {r : Int}
    (hleft : Graph.leftover input.volume myshape = .ok r) (hone : (Graph.fillOpen myshape r).2 = 1) :
    mkReshape addr input (Graph.fillOpen myshape r).1 ≠ .error .assertionError := by
  intro herr
  by_cases hlen : (Graph.fillOpen myshape r).1.length ≤ MAX_DIM
  · obtain ⟨p, hp⟩ := (mkReshape_ok_iff addr hlen).mpr (fillOpen_of_leftover hleft hone)
    rw [hp] at herr
    cases herr
  · -- a ninth dimension runs off the list before the sizes are compared
    rw [mkReshape, dif_neg hlen] at herr
    cases herr

/-- **`Transpose`** on a permutation of the input's rank. -/
theorem mkTranspose_ok {perm : List Int} {permIdx : Int} (addr : Nat × Nat)
    (hperm : permutationToIndex perm = .ok permIdx) (hnum : input.numDim = perm.length) :
    ∃ p, mkTranspose addr input perm true = .ok p ∧ p.type = .OP_TRANSPOSE ∧
      p.params = .transpose permIdx true ∧ p.inputs = [input] ∧
      p.output.dims = perm.map input.dimAt := by
  have hlen : (perm.map input.dimAt).length ≤ MAX_DIM := by
    rw [List.length_map, ← hnum]
    exact input.hdim
  obtain ⟨t, ht⟩ : ∃ t : Tensor, t = { numDim := input.numDim
                                       dim := (Tensor.fillRowMajor (perm.map input.dimAt)).1
                                       stride := (Tensor.fillRowMajor (perm.map input.dimAt)).2.1
                                       split := (List.range perm.length).foldl
                                         (fun s (i : Nat) => pySet s i (input.splitAt (perm.getD i 0)))
                                         Tensor.empty.split
                                       idx := 0
                                       data_ptr := Option.none
                                       hdim := input.hdim } := ⟨_, rfl⟩
  have hdims : t.dims = perm.map input.dimAt := by
    refine (Tensor.layout_of_fillRowMajor hlen ?_ (by rw [ht]) (by rw [ht])).1
    rw [ht, List.length_map]
    exact hnum
  have hsize : (Tensor.fillRowMajor (perm.map input.dimAt)).2.2 = t.volume := by
    rw [Tensor.fillRowMajor_volume hlen, Tensor.volume_eq, hdims]
  refine ⟨{ addr, type := .OP_TRANSPOSE, params := .transpose permIdx true, inputs := [input]
            outputs := [t] }, ?_, rfl, rfl, rfl, hdims⟩
  rw [mkTranspose, pyAssert_of rfl, hperm, pyAssert_of hnum]
  rw [ht] at hsize ⊢
  change (pyAssert _ >>= _) = _
  rw [pyAssert_of hsize]
  rfl

/-- The size assertion of `Transpose`, once its permutation has been accepted. -/
theorem mkTranspose_asserts {perm : List Int} {permIdx : Int}
    (hperm : permutationToIndex perm = .ok permIdx) (hnum : input.numDim = perm.length) :
    mkTranspose addr input perm true ≠ .error .assertionError := by
  obtain ⟨p, hp, -⟩ := mkTranspose_ok addr hperm hnum
  rw [hp]
  exact fun herr => by cases herr

end Sizes

/-! ## The tables of a `Model` -/

def Op.Laid (op : Op) : Prop := ∀ p, op.ptr = some p → p.Laid

namespace Model

/-- All bodies that the tables share are laid out row by row. -/
structure Laid (m : Model) : Prop where
  conv2d : ∀ entry ∈ m.conv2d, entry.2.Laid
  element : ∀ entry ∈ m.element, entry.2.Laid
  reshape : ∀ entry ∈ m.reshape, entry.2.Laid
  activation : ∀ entry ∈ m.activation, entry.2.Laid
  pool2d : ∀ entry ∈ m.pool2d, entry.2.Laid
  matmul : ∀ entry ∈ m.matmul, entry.2.Laid

theorem laid_new (tag : Nat) : (Model.new tag).Laid :=
  ⟨fun _ h => (by cases h), fun _ h => (by cases h), fun _ h => (by cases h), fun _ h => (by cases h),
    fun _ h => (by cases h), fun _ h => (by cases h)⟩

/-- The request was answered with a body that is laid out row by row. -/
def Delivers (op : Op) (m' : Model) : Prop := (∃ p, op.ptr = some p ∧ p.Laid) ∧ m'.Laid

variable {m m' : Model} {op : Op} {input weight : Tensor}

theorem delivers_wrap {m1 : Model} {p : OpBase} (h : m1.wrap p = (op, m')) (hm : m1.Laid)
    (hp : p.Laid) : Delivers op m' := by
  cases h
  exact ⟨⟨p, rfl, hp⟩, hm.conv2d, hm.element, hm.reshape, hm.activation, hm.pool2d, hm.matmul⟩

/-- A body out of a table, or a new one that joins it. -/
theorem lookupOrBuild_laid {table table' : OpTable} {key : Key} {build : Except PyError OpBase}
    {p : OpBase} (htable : ∀ entry ∈ table, entry.2.Laid) (hbuild : ∀ q, build = .ok q → q.Laid)
    (h : lookupOrBuild table key build = .ok (p, table')) :
    p.Laid ∧ ∀ entry ∈ table', entry.2.Laid :=
  lookupOrBuild_sound (P := fun _ p => p.Laid) htable hbuild h

theorem createWeight_delivers (hm : m.Laid) (hweight : weight.Laid)
    (h : m.createWeight weight = .ok (op, m')) : Delivers op m' := by
  unfold createWeight at h
  split at h
  · cases h
  · rw [Except.ok.injEq] at h
    exact delivers_wrap h hm (mkNoOp_laid hweight _)

theorem conv2d_delivers {strideH strideW : Int} {padding : PaddingMode} {activation : ActiMode}
    (hm : m.Laid)
    (h : m.getOrCreateConv2d input weight strideH strideW padding activation = .ok (op, m'))
    (hvalid : op ≠ Op.invalid) : Delivers op m' := by
  simp only [getOrCreateConv2d, bind_ok_iff] at h
  obtain ⟨r, -, h⟩ := h
  split at h
  · cases h
    exact absurd rfl hvalid
  · simp only [bind_ok_iff] at h
    obtain ⟨key, -, ⟨p, table⟩, hlook, hret⟩ := h
    obtain ⟨hp, htable⟩ := lookupOrBuild_laid hm.conv2d (fun q hq => mkConv2D_laid hq) hlook
    exact delivers_wrap (Except.ok.inj hret)
      ⟨htable, hm.element, hm.reshape, hm.activation, hm.pool2d, hm.matmul⟩ hp

theorem element_delivers {type : OpType} {t1 t2 : Tensor} (hm : m.Laid) (h1 : t1.Laid)
    (hbroad : broadcastable t1 t2 = true) (h : m.getOrCreateElement type t1 t2 = .ok (op, m')) :
    Delivers op m' := by
  simp only [getOrCreateElement, hbroad, Bool.true_eq_false, if_false, bind_ok_iff] at h
  obtain ⟨⟨p, table⟩, hlook, hret⟩ := h
  obtain ⟨hp, htable⟩ := lookupOrBuild_laid hm.element (fun q hq => by
    cases hq
    exact mkElement_laid h1 type) hlook
  exact delivers_wrap (Except.ok.inj hret)
    ⟨hm.conv2d, htable, hm.reshape, hm.activation, hm.pool2d, hm.matmul⟩ hp

theorem matmul_delivers {acti : ActiMode} (hm : m.Laid) (hinput : input.Laid)
    (h : m.getOrCreateMatmul input weight acti = .ok (op, m')) (hvalid : op ≠ Op.invalid) :
    Delivers op m' := by
  simp only [getOrCreateMatmul] at h
  split at h
  · cases h
    exact absurd rfl hvalid
  · simp only [bind_ok_iff] at h
    obtain ⟨key, -, ⟨p, table⟩, hlook, hret⟩ := h
    obtain ⟨hp, htable⟩ := lookupOrBuild_laid hm.matmul (fun q hq => by
      simp only [mkMatmul, bind_ok_iff] at hq
      obtain ⟨_, _, _, _, _, _, _, _, hq⟩ := hq
      cases hq
      exact ⟨_, rfl, matmulOutput_laid hinput.numDim⟩) hlook
    exact delivers_wrap (Except.ok.inj hret)
      ⟨hm.conv2d, hm.element, hm.reshape, hm.activation, hm.pool2d, htable⟩ hp

theorem pool2d_delivers {type : OpType} {kernelH kernelW strideH strideW : Int}
    {padding : PaddingMode} {activation : ActiMode} (hm : m.Laid)
    (h : m.getOrCreatePool2d input weight type kernelH kernelW strideH strideW padding activation =
      .ok (op, m')) : Delivers op m' := by
  simp only [getOrCreatePool2d, bind_ok_iff] at h
  obtain ⟨⟨p, table⟩, hlook, hret⟩ := h
  obtain ⟨hp, htable⟩ := lookupOrBuild_laid hm.pool2d (fun q hq => mkPool2D_laid hq) hlook
  exact delivers_wrap (Except.ok.inj hret)
    ⟨hm.conv2d, hm.element, hm.reshape, hm.activation, htable, hm.matmul⟩ hp

theorem activation_delivers {type : OpType} {inPlace : Bool} (hm : m.Laid) (hinput : input.Laid)
    (h : m.getOrCreateActivation input type inPlace = .ok (op, m')) : Delivers op m' := by
  simp only [getOrCreateActivation, bind_ok_iff] at h
  obtain ⟨⟨p, table⟩, hlook, hret⟩ := h
  obtain ⟨hp, htable⟩ := lookupOrBuild_laid hm.activation (fun q hq => by
    cases hq
    exact mkActivation_laid hinput type inPlace) hlook
  exact delivers_wrap (Except.ok.inj hret)
    ⟨hm.conv2d, hm.element, hm.reshape, htable, hm.pool2d, hm.matmul⟩ hp

theorem reshape_delivers {shape : List Int} (hm : m.Laid) (hne : shape ≠ [])
    (h : m.getOrCreateReshape input shape = .ok (op, m')) : Delivers op m' := by
  simp only [getOrCreateReshape, bind_ok_iff] at h
  obtain ⟨⟨p, table⟩, hlook, hret⟩ := h
  obtain ⟨hp, htable⟩ := lookupOrBuild_laid hm.reshape (fun q hq => mkReshape_laid hne hq) hlook
  exact delivers_wrap (Except.ok.inj hret)
    ⟨hm.conv2d, hm.element, htable, hm.activation, hm.pool2d, hm.matmul⟩ hp

theorem transpose_delivers {perm : List Int} {shuffle : Bool} (hm : m.Laid) (hinput : input.Laid)
    (h : m.getOrCreateTranspose input perm shuffle = .ok (op, m')) : Delivers op m' := by
  simp only [getOrCreateTranspose, bind_ok_iff] at h
  obtain ⟨_, -, p, hp, hret⟩ := h
  exact delivers_wrap (Except.ok.inj hret) hm (mkTranspose_laid hinput hp)

end Model

/-! ## Histories of builder calls -/

/-- The call names no empty shape, and a transpose is one with `shuffle`. -/
def Call.OnShapes : Call → Prop
  | .newInput dims => dims ≠ []
  | .newWeight dims _ => dims ≠ []
  | .reshape _ shape => shape ≠ []
  | .transpose _ _ shuffle => shuffle = true
  | _ => True

namespace Session

/-- Builder calls, one after the other. -/
def builds (s : Session) (calls : List Call) : Except PyError Session :=
  calls.foldlM (fun s call => s.step (.build call)) s

/-- Everything a builder can take from a session is laid out row by row. -/
structure Laid (s : Session) : Prop where
  models : ∀ m ∈ s.models, m.Laid
  graph : ∀ op, s.graph.Mentions op → op.Laid
  handles : ∀ h ∈ s.handles, h.tensor.Laid ∧ h.op.Laid

/-- What a builder returns. -/
structure Returned (h : Handle) (m : Model) (g : Graph) : Prop where
  tensor : h.tensor.Laid
  op : h.op.Laid
  model : m.Laid
  graph : ∀ op, g.Mentions op → op.Laid

variable {s s' : Session} {m m' : Model} {g g' : Graph} {h : Handle} {op : Op}

/-- The end of every builder. -/
theorem build_returned {inputs : List Handle} (hop : Model.Delivers op m)
    (hg : ∀ op', g.Mentions op' → op'.Laid) (hinputs : ∀ input ∈ inputs, input.op.Laid)
    (hbuild : g.build inputs op m = .ok (h, m', g')) : Returned h m' g' := by
  obtain ⟨⟨p, hptr, hp⟩, hm⟩ := hop
  have hlaid : op.Laid := fun q hq => by
    rw [hptr] at hq
    cases hq
    exact hp
  simp only [Graph.build, bind_ok_iff, attach_eq] at hbuild
  obtain ⟨g1, hadd, hret⟩ := hbuild
  cases hret
  have hedges := Graph.addEdges_added hadd
  refine ⟨?_, hlaid, hm, ?_⟩
  · show (op.ptr.elim Tensor.empty OpBase.output).Laid
    rw [hptr]
    exact hp.output
  · rintro k (hk | hk)
    · rcases (hedges.inKeys k).mp hk with hk | ⟨e, he, rfl⟩
      · exact hg k (Or.inl hk)
      · obtain ⟨input, i, -, rfl⟩ := mem_edgesTo.mp he
        exact hlaid
    · rcases (hedges.outKeys k).mp hk with hk | ⟨e, he, rfl⟩
      · exact hg k (Or.inr hk)
      · obtain ⟨input, i, hi, rfl⟩ := mem_edgesTo.mp he
        exact hinputs input (List.mem_of_getElem? hi)

theorem sourceTensor_laid {dims : List Int} {guid : Nat} {data : Option Nat} {source : Handle}
    (hne : dims ≠ []) (h : Graph.sourceTensor dims guid data = .ok source) :
    source.tensor.Laid ∧ source.op.Laid := by
  unfold Graph.sourceTensor at h
  rw [if_neg hne] at h
  simp only [bind_ok_iff] at h
  obtain ⟨tensor, htensor, h⟩ := h
  cases h
  exact ⟨Tensor.Laid.of_ofDims hne htensor, fun p hp => by cases hp⟩

theorem newWeight_returned {dims : List Int} {data : Option Nat} (hm : m.Laid)
    (hg : ∀ op', g.Mentions op' → op'.Laid) (hne : dims ≠ [])
    (hrun : g.newWeight m dims data = .ok (h, m', g')) : Returned h m' g' := by
  simp only [Graph.newWeight, bind_ok_iff] at hrun
  obtain ⟨-, -, source, hsource, ⟨op, m1⟩, hcreate, hbuild⟩ := hrun
  obtain ⟨htensor, hop⟩ := sourceTensor_laid hne hsource
  refine build_returned (Model.createWeight_delivers hm htensor hcreate) hg (fun input hinput => ?_)
    hbuild
  rw [List.mem_singleton.mp hinput]
  exact hop

theorem mem_of_handle {i : Nat} (hget : s.handle i = .ok h) : h ∈ s.handles := by
  unfold handle at hget
  split at hget
  · cases hget
  · next hsome =>
    cases hget
    exact List.mem_of_getElem? hsome

theorem handle_laid (hs : s.Laid) {i : Nat} (hget : s.handle i = .ok h) :
    h.tensor.Laid ∧ h.op.Laid :=
  hs.handles h (mem_of_handle hget)

-- the operators of the one or two tensors a builder was given
theorem laid_pair {a b : Handle} (ha : a.op.Laid) (hb : b.op.Laid) :
    ∀ input ∈ [a, b], input.op.Laid := by
  intro input hinput
  rcases List.mem_cons.mp hinput with rfl | hinput
  · exact ha
  · rw [List.mem_singleton.mp hinput]
    exact hb

theorem laid_single {a : Handle} (ha : a.op.Laid) : ∀ input ∈ [a], input.op.Laid := by
  intro input hinput
  rw [List.mem_singleton.mp hinput]
  exact ha

/-- **Every builder** keeps to row-major layouts. -/
theorem exec_returned {call : Call} (hs : s.Laid) (hm : m.Laid) (hcall : call.OnShapes)
    (hrun : s.exec m call = .ok (h, m', g')) : Returned h m' g' := by
  cases call with
  | newInput dims =>
    simp only [exec, Graph.newInput, bind_ok_iff] at hrun
    obtain ⟨-, -, source, hsource, hbuild⟩ := hrun
    obtain ⟨htensor, hop⟩ := sourceTensor_laid hcall hsource
    exact build_returned (Model.delivers_wrap rfl hm (mkNoOp_laid htensor _)) hs.graph
      (laid_single hop) hbuild
  | newWeight dims data => exact newWeight_returned hm hs.graph hcall hrun
  | conv2d input weight strideH strideW padding activation =>
    simp only [exec, Graph.conv2d, bind_ok_iff, pyAssert_eq_ok] at hrun
    obtain ⟨a, ha, b, hb, ⟨op, m1⟩, hreq, -, hvalid, hbuild⟩ := hrun
    exact build_returned (Model.conv2d_delivers hm hreq hvalid) hs.graph
      (laid_pair (handle_laid hs ha).2 (handle_laid hs hb).2) hbuild
  | element type t1 t2 =>
    simp only [exec, Graph.element, bind_ok_iff, pyAssert_eq_ok] at hrun
    obtain ⟨a, ha, b, hb, -, hbroad, ⟨op, m1⟩, hreq, hbuild⟩ := hrun
    exact build_returned (Model.element_delivers hm (handle_laid hs ha).1 hbroad hreq) hs.graph
      (laid_pair (handle_laid hs ha).2 (handle_laid hs hb).2) hbuild
  | matmul input weight acti =>
    simp only [exec, Graph.matmul, bind_ok_iff, pyAssert_eq_ok] at hrun
    obtain ⟨a, ha, b, hb, ⟨op, m1⟩, hreq, -, hvalid, hbuild⟩ := hrun
    exact build_returned (Model.matmul_delivers hm (handle_laid hs ha).1 hreq hvalid) hs.graph
      (laid_pair (handle_laid hs ha).2 (handle_laid hs hb).2) hbuild
  | pool2dAvg input kernelH kernelW strideH strideW padding activation data =>
    -- two operators: the weight and the pooling
    simp only [exec, Graph.pool2dAvg, bind_ok_iff] at hrun
    obtain ⟨a, ha, ⟨weight, m1, g1⟩, hweight, ⟨op, m2⟩, hreq, hbuild⟩ := hrun
    have hreturned := newWeight_returned hm hs.graph (List.cons_ne_nil _ _) hweight
    exact build_returned (Model.pool2d_delivers hreturned.model hreq) hreturned.graph
      (laid_pair (handle_laid hs ha).2 hreturned.op) hbuild
  | relu input inPlace =>
    simp only [exec, Graph.relu, bind_ok_iff, pyAssert_eq_ok] at hrun
    obtain ⟨a, ha, ⟨op, m1⟩, hreq, -, -, hbuild⟩ := hrun
    exact build_returned (Model.activation_delivers hm (handle_laid hs ha).1 hreq) hs.graph
      (laid_single (handle_laid hs ha).2) hbuild
  | reshape input shape =>
    simp only [exec, Graph.reshape, bind_ok_iff, pyAssert_eq_ok] at hrun
    obtain ⟨a, ha, myshape, hcopy, size, -, -, -, ⟨op, m1⟩, hreq, hbuild⟩ := hrun
    have hne : (Graph.fillOpen myshape size).1 ≠ [] := by
      intro hnil
      have hlen := Graph.length_fillOpen myshape size
      rw [hnil] at hlen
      exact Graph.copyDims_ne_nil hcall hcopy (List.length_eq_zero_iff.mp hlen.symm)
    exact build_returned (Model.reshape_delivers hm hne hreq) hs.graph
      (laid_single (handle_laid hs ha).2) hbuild
  | transpose input perm shuffle =>
    simp only [exec, Graph.transpose, bind_ok_iff] at hrun
    obtain ⟨a, ha, ⟨op, m1⟩, hreq, hbuild⟩ := hrun
    exact build_returned (Model.transpose_delivers hm (handle_laid hs ha).1 hreq) hs.graph
      (laid_single (handle_laid hs ha).2) hbuild

theorem laid_start : Laid start where
  models := fun m hm => by
    rw [List.mem_singleton.mp hm]
    exact Model.laid_new 0
  graph := fun op hop => by
    rcases hop with hop | hop <;> cases hop
  handles := fun h hh => by cases hh

theorem step_laid {call : Call} (hs : s.Laid) (hcall : call.OnShapes)
    (h : s.step (.build call) = .ok s') : s'.Laid := by
  simp only [step, bind_ok_iff, model_eq_ok] at h
  obtain ⟨m, hmodel, ⟨h, m', g'⟩, hexec, hret⟩ := h
  have hreturned := exec_returned hs (hs.models m (List.mem_of_getElem? hmodel)) hcall hexec
  cases hret
  refine ⟨fun k hk => ?_, hreturned.graph, fun k hk => ?_⟩
  · rcases List.mem_or_eq_of_mem_set hk with hk | rfl
    · exact hs.models k hk
    · exact hreturned.model
  · rcases List.mem_append.mp hk with hk | hk
    · exact hs.handles k hk
    · rw [List.mem_singleton.mp hk]
      exact ⟨hreturned.tensor, hreturned.op⟩

/-- **Every history** of builder calls keeps to row-major layouts. -/
theorem laid_of_builds {calls : List Call} (hcalls : ∀ call ∈ calls, call.OnShapes)
    (h : start.builds calls = .ok s) : s.Laid :=
  foldlM_keeps (fun call hcall _ _ hs hstep => step_laid hs (hcalls call hcall) hstep) laid_start h

/-- The output of every operator in sight passes `default_layout`, so that the stride of a dimension is
the product of the dims after it. -/
def DefaultLayouts (s : Session) : Prop :=
  ∀ op, s.Knows op → ∀ p, op.ptr = some p → ∀ t ∈ p.outputs,
    t.defaultLayout = true ∧
      ∀ i < t.numDim, t.strideAt (i : Nat) = Shape.volume (t.dims.drop (i + 1))

/-- The constructor that the call comes to fails no assertion about sizes once the tests before it have
passed: the compatibility of the two tensors for `Matmul`, the passes of `Graph.reshape` over the shape
for `Reshape`, a permutation of the input's rank for `Transpose`. -/
def SizesAssert (s : Session) (addr : Nat × Nat) : Call → Prop
  | .matmul i j acti => ∀ input weight, s.handle i = .ok input → s.handle j = .ok weight →
      Model.matmulCompatible input.tensor weight.tensor = true →
      mkMatmul addr input.tensor weight.tensor acti ≠ .error .assertionError
  | .reshape i shape => ∀ input myshape size, s.handle i = .ok input →
      Graph.copyDims input.tensor shape = .ok myshape →
      Graph.leftover input.tensor.volume myshape = .ok size →
      (Graph.fillOpen myshape size).2 = 1 →
      mkReshape addr input.tensor (Graph.fillOpen myshape size).1 ≠ .error .assertionError
  | .transpose i perm shuffle => ∀ input permIdx, s.handle i = .ok input →
      permutationToIndex perm = .ok permIdx → input.tensor.numDim = perm.length →
      mkTranspose addr input.tensor perm shuffle ≠ .error .assertionError
  | _ => True

/-- The product of a vector of no components with a vector that has some. -/
def ZeroDot (s : Session) : Call → Prop
  | .matmul i j _ => ∃ input weight, s.handle i = .ok input ∧ s.handle j = .ok weight ∧
      input.tensor.numDim = 1 ∧ weight.tensor.numDim = 1 ∧
      input.tensor.dimAt 0 = 0 ∧ weight.tensor.dimAt 0 ≠ 0
  | _ => False

theorem defaultLayouts_of_laid (hs : s.Laid) : s.DefaultLayouts := by
  intro op hop p hp t ht
  have hlaid : op.Laid := by
    rcases hop with hop | hop | ⟨h, hh, rfl⟩
    · -- the sources point to nothing
      intro q hq
      simp only [sources, List.mem_cons, List.not_mem_nil, or_false] at hop
      rcases hop with rfl | rfl | rfl <;> cases hq
    · exact hs.graph op hop
    · exact (hs.handles h hh).2
  obtain ⟨t', houtputs, ht'⟩ := hlaid p hp
  rw [houtputs, List.mem_singleton] at ht
  rw [ht]
  have hdefault := (Tensor.defaultLayout_iff t').mpr ht'.layout
  exact ⟨hdefault, (Tensor.defaultLayout_iff_strides t').mp hdefault⟩

/-- Two vectors of which the first has no components are compatible, whatever the second. -/
theorem matmulCompatible_of_zeroDot {input weight : Tensor} (hweight : weight.Laid)
    (hi : input.numDim = 1) (hw : weight.numDim = 1) (hzero : input.dimAt 0 = 0) :
    Model.matmulCompatible input weight = true := by
  have hcell := hweight.unused 7 (by omega) (by decide)
  have hlast : input.dimAt ((input.numDim : Int) - 1) = weight.dimAt ((weight.numDim : Int) - 2) := by
    rw [hi, hw]
    exact hzero.trans hcell.symm
  simp only [Model.matmulCompatible, Bool.and_eq_true, decide_eq_true_eq]
  refine ⟨⟨hi.trans hw.symm, fun i h => ?_⟩, hlast⟩
  rw [hi] at h
  exact absurd h (by simp)

/-- **Default layouts and size assertions.** After any builder calls on shapes, all outputs are laid
out row by row and the size assertions of the next call hold; except in the product of a vector of no
components with another of some, which passes the tests and fails the assertion. -/
theorem defaultLayouts_and_sizesAssert_iff {calls : List Call}
    (hcalls : ∀ call ∈ calls, call.OnShapes) (hs : start.builds calls = .ok s) (call : Call)
    (hcall : call.OnShapes) (addr : Nat × Nat) :
    (s.DefaultLayouts ∧ s.SizesAssert addr call) ↔ ¬ s.ZeroDot call := by
  have hlaid := laid_of_builds hcalls hs
  rw [and_iff_right (defaultLayouts_of_laid hlaid)]
  cases call with
  | matmul i j acti =>
    constructor
    · rintro h ⟨input, weight, hi, hj, hzero⟩
      have hinput := (handle_laid hlaid hi).1
      have hweight := (handle_laid hlaid hj).1
      have hcompat := matmulCompatible_of_zeroDot hweight hzero.1 hzero.2.1 hzero.2.2.1
      exact (mkMatmul_asserts_iff hinput hweight hcompat addr acti).mp
        (h input weight hi hj hcompat) hzero
    · intro h input weight hi hj hcompat
      refine (mkMatmul_asserts_iff (handle_laid hlaid hi).1 (handle_laid hlaid hj).1 hcompat addr
        acti).mpr fun hzero => ?_
      exact h ⟨input, weight, hi, hj, hzero⟩
  | reshape i shape =>
    exact iff_of_true (fun input myshape size _ _ hleft hone => mkReshape_asserts hleft hone) not_false
  | transpose i perm shuffle =>
    refine iff_of_true (fun input permIdx _ hperm hnum => ?_) not_false
    have hshuffle : shuffle = true := hcall
    rw [hshuffle]
    exact mkTranspose_asserts hperm hnum
  | newInput | newWeight | conv2d | element | pool2dAvg | relu => exact iff_of_true trivial not_false

theorem defaultLayouts_and_sizesAssert_matrices :
    ∃ s, start.builds [.newInput [2, 3], .newWeight [3, 4] (some 0)] = .ok s ∧ s.DefaultLayouts ∧
      s.SizesAssert (0, 0) (.matmul 0 1 .AC_MODE_NONE) := by
  have hrun : (start.builds [.newInput [2, 3], .newWeight [3, 4] (some 0)]).toOption.any (fun s =>
      decide (∀ h ∈ s.handles, h.tensor.numDim ≠ 1)) = true := by
    decide +kernel
  obtain ⟨s, hs, hrank⟩ := (Option.any_eq_true _ _).mp hrun
  have hbuilds := toOption_eq_some.mp hs
  refine ⟨s, hbuilds, (defaultLayouts_and_sizesAssert_iff ?_ hbuilds (.matmul 0 1 _) trivial (0, 0)).mpr ?_⟩
  · simp [Call.OnShapes]
  · rintro ⟨input, weight, hi, -, hone, -⟩
    exact of_decide_eq_true hrank input (mem_of_handle hi) hone

/-- A convolution whose kernel is larger than the input, its output as a vector, and a product with a
vector of five: the tensors are compatible, and the assertion fails. -/
theorem zeroDot_fails_assertion :
    ∃ s, start.builds
        [.newInput [1, 1, 1, 1], .newWeight [1, 1, 2, 2] (some 0),
          .conv2d 0 1 1 1 .PD_MODE_VALID .AC_MODE_NONE, .reshape 2 [-1], .newWeight [5] (some 1)] = .ok s ∧
      s.handles.map (fun h => h.tensor.dims) = [[1, 1, 1, 1], [1, 1, 2, 2], [1, 1, 0, 0], [0], [5]] ∧
      (∃ input weight, s.handle 3 = .ok input ∧ s.handle 4 = .ok weight ∧
        Model.matmulCompatible input.tensor weight.tensor = true) ∧
      (s.step (.build (.matmul 3 4 .AC_MODE_NONE))).map (fun _ => ()) = .error .assertionError := by
  have hrun : (start.builds
        [.newInput [1, 1, 1, 1], .newWeight [1, 1, 2, 2] (some 0),
          .conv2d 0 1 1 1 .PD_MODE_VALID .AC_MODE_NONE, .reshape 2 [-1],
          .newWeight [5] (some 1)]).toOption.any (fun s =>
      decide (s.handles.map (fun h => h.tensor.dims) =
          [[1, 1, 1, 1], [1, 1, 2, 2], [1, 1, 0, 0], [0], [5]] ∧
        (do
          let input ← s.handle 3
          let weight ← s.handle 4
          return Model.matmulCompatible input.tensor weight.tensor) = .ok true ∧
        (s.step (.build (.matmul 3 4 .AC_MODE_NONE))).map (fun _ => ()) =
          .error .assertionError)) = true := by
    decide +kernel
  obtain ⟨s, hs, hfacts⟩ := (Option.any_eq_true _ _).mp hrun
  obtain ⟨hdims, hcompat, hstep⟩ := of_decide_eq_true hfacts
  simp only [bind_ok_iff] at hcompat
  obtain ⟨input, hi, weight, hj, hret⟩ := hcompat
  exact ⟨s, toOption_eq_some.mp hs, hdims, ⟨input, weight, hi, hj, Except.ok.inj hret⟩, hstep⟩

end Session

end Peps
