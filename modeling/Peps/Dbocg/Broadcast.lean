import Peps.Dbocg.ModelCalls

/-!
# Broadcasting in `Element`

`broadcastable` asks whether the dims of two tensors are compatible when they are aligned at the
right, and `Element` gives its output the larger extent of every axis. That is the extent the two
are broadcast to, unless one of them is 1 and the other 0: then the larger one is 1, although an
array without cells stays one (`element_broadcasts_iff`).
-/

namespace Peps

open Lib

namespace Tensor

/-- The extent `Element.__init__` takes an operand to have on the axis `i` from the right. -/
theorem fromRight_dims (t : Tensor) (i : Nat) :
    Shape.fromRight t.dims i =
      if (t.numDim : Int) - 1 - i < 0 then 1 else t.dimAt ((t.numDim : Int) - 1 - i) := by
  by_cases hi : i < t.numDim
  · rw [if_neg (by omega), Shape.fromRight, List.getD_eq_getElem?_getD,
      List.getElem?_reverse (by simpa using hi), length_dims, getElem?_dims (by omega),
      Option.getD_some]
    congr 1
    omega
  · rw [if_pos (by omega), Shape.fromRight_of_ge (by simpa using hi)]

end Tensor

/-! ## The shape of an `Element` -/

/-- The extent of the output on the axis `i` from the right. -/
def elementExtent (t1 t2 : Tensor) (i : Nat) : Int :=
  max (Shape.fromRight t1.dims i) (Shape.fromRight t2.dims i)

-- the output's dims, read from the right
def elementExtents (t1 t2 : Tensor) (k : Nat) : List Int :=
  (List.range k).map (elementExtent t1 t2)

theorem elementExtents_succ (t1 t2 : Tensor) (k : Nat) :
    elementExtents t1 t2 (k + 1) = elementExtents t1 t2 k ++ [elementExtent t1 t2 k] := by
  rw [elementExtents, List.range_succ, List.map_append, List.map_singleton, elementExtents]

/-- What the loop of `Element.__init__` has done after `k` rounds. -/
structure ElementLoop.Done (t1 t2 : Tensor) (n k : Nat) (s : ElementLoop) : Prop where
  total : s.total = Shape.volume (elementExtents t1 t2 k)
  dim : ∀ i < k, pyGet s.dim ((n - 1 - i : Nat) : Int) 0 = elementExtent t1 t2 i
  stride : ∀ i < k, pyGet s.stride ((n - 1 - i : Nat) : Int) 0 =
    Shape.volume (elementExtents t1 t2 i)

/-- **One round** fills in the next axis to the left. -/
theorem elementRound_done {t1 t2 : Tensor} {n k : Nat} {s : ElementLoop} (hn : n ≤ MAX_DIM)
    (hk : k < n) (hs : s.Done t1 t2 n k) : (elementRound t1 t2 n s k).Done t1 t2 n (k + 1) := by
  have hout : ((n : Int) - 1 - k) = ((n - 1 - k : Nat) : Int) := by omega
  have hext : max (if (t1.numDim : Int) - 1 - k < 0 then 1 else t1.dimAt ((t1.numDim : Int) - 1 - k))
      (if (t2.numDim : Int) - 1 - k < 0 then 1 else t2.dimAt ((t2.numDim : Int) - 1 - k)) =
        elementExtent t1 t2 k := by
    rw [elementExtent, Tensor.fromRight_dims, Tensor.fromRight_dims]
  simp only [elementRound, hout, hext]
  refine ⟨?_, fun i hi => ?_, fun i hi => ?_⟩
  · rw [hs.total, elementExtents_succ, Shape.volume_append]
    simp [Shape.volume]
  · rw [pyGet_pySet _ _ _ (by omega)]
    split
    · rw [show i = k by omega]
    · exact hs.dim i (by omega)
  · rw [pyGet_pySet _ _ _ (by omega)]
    split
    · rw [show i = k by omega, hs.total]
    · exact hs.stride i (by omega)

/-- **The loop** fills in all axes. -/
theorem elementLoop_done (t1 t2 : Tensor) :
    (elementLoop t1 t2).Done t1 t2 (max t1.numDim t2.numDim) (max t1.numDim t2.numDim) := by
  have hn : max t1.numDim t2.numDim ≤ MAX_DIM := max_le t1.hdim t2.hdim
  have hrounds : ∀ k ≤ max t1.numDim t2.numDim, ((List.range k).foldl
      (elementRound t1 t2 (max t1.numDim t2.numDim))
      { dim := Tensor.empty.dim, stride := Tensor.empty.stride, split := Tensor.empty.split,
        total := 1 }).Done t1 t2 (max t1.numDim t2.numDim) k := by
    intro k hk
    induction k with
    | zero => exact ⟨rfl, fun i hi => absurd hi (by omega), fun i hi => absurd hi (by omega)⟩
    | succ k ih =>
      rw [List.range_succ, List.foldl_append, List.foldl_cons, List.foldl_nil]
      exact elementRound_done hn (by omega) (ih (by omega))
  exact hrounds _ le_rfl

/-- **The shape of an `Element`**: the larger extents, in a row-major layout. -/
theorem mkElement_layout (addr : Nat × Nat) (type : OpType) (t1 t2 : Tensor) :
    (mkElement addr type t1 t2).output.dims =
        (elementExtents t1 t2 (max t1.numDim t2.numDim)).reverse ∧
      (mkElement addr type t1 t2).output.strides =
        Shape.rowMajor (elementExtents t1 t2 (max t1.numDim t2.numDim)).reverse := by
  have hdone := elementLoop_done t1 t2
  have hlen : (elementExtents t1 t2 (max t1.numDim t2.numDim)).length =
      max t1.numDim t2.numDim := by
    simp [elementExtents]
  obtain ⟨n, hn⟩ : ∃ n, n = max t1.numDim t2.numDim := ⟨_, rfl⟩
  have hrank : (mkElement addr type t1 t2).output.numDim = n := hn.symm
  rw [← hn] at hdone hlen ⊢
  refine ⟨List.ext_getElem? fun j => ?_, List.ext_getElem? fun j => ?_⟩
  · by_cases hj : j < n
    · rw [Tensor.getElem?_dims (by rw [hrank]; exact hj), List.getElem?_reverse (by omega), hlen,
        elementExtents, List.getElem?_map, List.getElem?_range (by omega), Option.map_some,
        ← hdone.dim (n - 1 - j) (by omega), show n - 1 - (n - 1 - j) = j by omega]
      rfl
    · rw [List.getElem?_eq_none (by rw [Tensor.length_dims, hrank]; omega),
        List.getElem?_eq_none (by rw [List.length_reverse]; omega)]
  · by_cases hj : j < n
    · rw [Shape.getElem?_rowMajor _ (by rw [List.length_reverse]; omega), List.drop_reverse, hlen,
        Shape.volume_reverse, elementExtents, ← List.map_take, List.take_range,
        show min (n - (j + 1)) n = n - 1 - j by omega]
      have hstride := hdone.stride (n - 1 - j) (by omega)
      rw [show n - 1 - (n - 1 - j) = j by omega] at hstride
      rw [Tensor.strides, List.getElem?_map, List.getElem?_range (by rw [hrank]; exact hj),
        Option.map_some]
      exact congrArg some hstride
    · rw [List.getElem?_eq_none (by simp [Tensor.strides, hrank]; omega),
        List.getElem?_eq_none (by simp; omega)]

/-! ## Broadcasting -/

theorem broadcastable_iff (t1 t2 : Tensor) :
    Model.broadcastable t1 t2 = true ↔ Shape.Compatible t1.dims t2.dims := by
  unfold Model.broadcastable Shape.Compatible
  rw [List.all_eq_true, Tensor.length_dims, Tensor.length_dims]
  refine forall_congr' fun i => ?_
  rw [List.mem_range]
  refine forall_congr' fun hi => ?_
  rw [Tensor.fromRight_dims, Tensor.fromRight_dims, if_neg (by omega), if_neg (by omega)]
  simp only [Bool.not_eq_true', Bool.and_eq_false_iff, decide_eq_false_iff_not, not_not]
  tauto

/-- On some axis a 0 meets a 1, or an axis that the other tensor does not have. -/
def ZeroMeetsOne (t1 t2 : Tensor) : Prop :=
  ∃ i < max t1.numDim t2.numDim,
    (Shape.fromRight t1.dims i = 0 ∧ Shape.fromRight t2.dims i = 1) ∨
      (Shape.fromRight t1.dims i = 1 ∧ Shape.fromRight t2.dims i = 0)

theorem fromRight_nonneg {t : Tensor} (h : ∀ i < t.numDim, 0 ≤ t.dimAt (i : Nat)) (i : Nat) :
    0 ≤ Shape.fromRight t.dims i := by
  rw [Tensor.fromRight_dims]
  split
  · decide
  · next hi =>
    rw [show (t.numDim : Int) - 1 - i = ((t.numDim - 1 - i : Nat) : Int) by omega]
    exact h _ (by omega)

/-- The larger extents are those of the common shape where no 0 meets a 1. -/
theorem elementExtents_eq_broadcast_iff {t1 t2 : Tensor}
    (h1 : ∀ i < t1.numDim, 0 ≤ t1.dimAt (i : Nat)) (h2 : ∀ i < t2.numDim, 0 ≤ t2.dimAt (i : Nat))
    (h : Shape.Compatible t1.dims t2.dims) :
    (elementExtents t1 t2 (max t1.numDim t2.numDim)).reverse = Shape.broadcast t1.dims t2.dims ↔
      ¬ ZeroMeetsOne t1 t2 := by
  unfold Shape.broadcast elementExtents ZeroMeetsOne
  rw [List.reverse_inj, Tensor.length_dims, Tensor.length_dims, List.map_inj_left]
  constructor
  · rintro hall ⟨i, hi, hmeet⟩
    obtain ⟨h01, h10⟩ := (Shape.max_eq_stretch_iff (fromRight_nonneg h1 i) (fromRight_nonneg h2 i)
      (h.extents i)).mp (hall i (List.mem_range.mpr hi))
    exact hmeet.elim h01 h10
  · intro hnone i hi
    refine (Shape.max_eq_stretch_iff (fromRight_nonneg h1 i) (fromRight_nonneg h2 i)
      (h.extents i)).mpr ⟨fun h01 => ?_, fun h10 => ?_⟩
    · exact hnone ⟨i, List.mem_range.mp hi, .inl h01⟩
    · exact hnone ⟨i, List.mem_range.mp hi, .inr h10⟩

theorem elementExtents_comm (t1 t2 : Tensor) (k : Nat) :
    elementExtents t1 t2 k = elementExtents t2 t1 k :=
  List.map_congr_left fun _ _ => max_comm _ _

/-- **`broadcastable` decides compatibility, in either order, and an `Element` of compatible tensors
has their common shape, in either order, exactly if they are incompatible or no 0 meets a 1.** -/
theorem element_broadcasts_iff (type : OpType) (t1 t2 : Tensor)
    (h1 : ∀ i < t1.numDim, 0 ≤ t1.dimAt (i : Nat)) (h2 : ∀ i < t2.numDim, 0 ≤ t2.dimAt (i : Nat)) :
    ((Model.broadcastable t1 t2 = true ↔ Shape.Compatible t1.dims t2.dims) ∧
      Model.broadcastable t1 t2 = Model.broadcastable t2 t1 ∧
      (Model.broadcastable t1 t2 = true → ∀ addr,
        HasShape (mkElement addr type t1 t2) (Shape.broadcast t1.dims t2.dims) ∧
          HasShape (mkElement addr type t2 t1) (Shape.broadcast t1.dims t2.dims))) ↔
      (Model.broadcastable t1 t2 = true → ¬ ZeroMeetsOne t1 t2) := by
  have hsymm : Model.broadcastable t1 t2 = Model.broadcastable t2 t1 := by
    rw [Bool.eq_iff_iff, broadcastable_iff, broadcastable_iff]
    exact ⟨Shape.Compatible.symm, Shape.Compatible.symm⟩
  constructor
  · rintro ⟨-, -, hshape⟩ hcan
    rw [← elementExtents_eq_broadcast_iff h1 h2 ((broadcastable_iff t1 t2).mp hcan)]
    rw [← (mkElement_layout (0, 0) type t1 t2).1]
    exact (hshape hcan (0, 0)).1.1
  · intro hnone
    refine ⟨broadcastable_iff t1 t2, hsymm, fun hcan addr => ?_⟩
    have heq := (elementExtents_eq_broadcast_iff h1 h2 ((broadcastable_iff t1 t2).mp hcan)).mpr
      (hnone hcan)
    refine ⟨?_, ?_⟩
    · rw [HasShape, ← heq]
      exact mkElement_layout addr type t1 t2
    · rw [HasShape, ← heq, max_comm, elementExtents_comm]
      exact mkElement_layout addr type t2 t1

theorem element_broadcasts_bias :
    Model.broadcastable (tensorOf [4, 10]) (tensorOf [10]) = true ∧
      ∀ addr, HasShape (mkElement addr .OP_EW_ADD (tensorOf [4, 10]) (tensorOf [10])) [4, 10] := by
  have h1 : ∀ i < (tensorOf [4, 10]).numDim, 0 ≤ (tensorOf [4, 10]).dimAt (i : Nat) := by decide
  have h2 : ∀ i < (tensorOf [10]).numDim, 0 ≤ (tensorOf [10]).dimAt (i : Nat) := by decide
  have hcan : Model.broadcastable (tensorOf [4, 10]) (tensorOf [10]) = true := by decide
  have hnone : ¬ ZeroMeetsOne (tensorOf [4, 10]) (tensorOf [10]) := by
    unfold ZeroMeetsOne
    decide
  have hshape : Shape.broadcast (tensorOf [4, 10]).dims (tensorOf [10]).dims = [4, 10] := by decide
  refine ⟨hcan, fun addr => ?_⟩
  rw [← hshape]
  exact (((element_broadcasts_iff .OP_EW_ADD _ _ h1 h2).mpr fun _ => hnone).2.2 hcan addr).1

/-- **A 0 that meets a missing axis**: the sum of a batch of unknown size and a bias is given one row,
where the common shape has none. -/
theorem element_broadcasts_dynamicBatch :
    Model.broadcastable (tensorOf [0, 10]) (tensorOf [10]) = true ∧
      Shape.broadcast (tensorOf [0, 10]).dims (tensorOf [10]).dims = [0, 10] ∧
      (mkElement (0, 0) .OP_EW_ADD (tensorOf [0, 10]) (tensorOf [10])).output.dims = [1, 10] := by
  decide

end Peps
