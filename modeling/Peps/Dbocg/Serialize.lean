import Peps.Dbocg.ModelTransparent

/-!
# What `Tensor.serialize` tells apart

The cells of a key after a tensor was serialised: the header, and then what the split infos leave of
each other. They are all written from one index on, so a cell shows the last dimension with enough
positions to reach it (`splitCell`).

The header is whole, and the cells stay within the room a key has for a tensor. But two tensors with
different splits can leave the same cells (`SplitsLost`), and then, and only then, equality of the
keys is not `has_same_shape_stride_split` (`serialize_tells_iff`).
-/

namespace Peps

open Lib

/-! ## The cells -/

/-- The cells one split info writes. -/
def SplitInfo.cells (s : SplitInfo) : List KeyCell := .int s.num :: s.pos.map .int

theorem SplitInfo.length_cells (s : SplitInfo) : s.cells.length ≤ MAX_NUM_SPLITS + 1 := by
  rw [SplitInfo.cells, List.length_cons, List.length_map]
  exact Nat.succ_le_succ s.hlen

namespace Tensor

/-- The cell `k` places behind the header, in a key that was all zeros. -/
def splitCell (t : Tensor) (k : Nat) : KeyCell :=
  ((List.range t.numDim).reverse.findSome? fun (i : Nat) => (t.splitAt i).cells[k]?).getD (.int 0)

variable {t u : Tensor} {keys : List KeyCell} {idx : Nat}

theorem serialize_eq_foldl (t : Tensor) (keys : List KeyCell) (idx : Nat) :
    t.serialize keys idx = (List.range t.numDim).foldl
      (fun ks (i : Nat) => writeAt ks (idx + 2 + 2 * t.numDim) (t.splitAt i).cells)
      (writeAt keys idx t.header) := rfl

/-- A cell past the header: the last split info that reaches it, or what was there. -/
theorem getElem?_serialize_splits (t : Tensor) (keys : List KeyCell) {k : Nat}
    (hin : idx + 2 + 2 * t.numDim + k < keys.length) :
    (t.serialize keys idx)[idx + 2 + 2 * t.numDim + k]? =
      ((List.range t.numDim).reverse.findSome? fun (i : Nat) => (t.splitAt i).cells[k]?).or
        keys[idx + 2 + 2 * t.numDim + k]? := by
  rw [serialize_eq_foldl, getElem?_foldl_writeAt _ _ _ (by simpa using hin),
    getElem?_writeAt_ge _ _ (by rw [length_header]; omega)]

/-- **The room for a tensor suffices**: no other cell changes. -/
theorem getElem?_serialize_outside (t : Tensor) (keys : List KeyCell) {j : Nat}
    (hj : j < idx ∨ idx + MAX_KEY_LENGTH ≤ j) : (t.serialize keys idx)[j]? = keys[j]? := by
  rcases hj with hj | hj
  · exact getElem?_serialize_lt t keys hj
  by_cases hin : j < keys.length
  · have hdim := t.hdim
    have hroom : idx + 2 + 2 * t.numDim + (MAX_NUM_SPLITS + 1) ≤ j := by
      simp only [MAX_KEY_LENGTH, MAX_NUM_SPLITS, MAX_DIM] at hj hdim ⊢
      omega
    obtain ⟨k, rfl⟩ : ∃ k, j = idx + 2 + 2 * t.numDim + k := ⟨j - (idx + 2 + 2 * t.numDim), by omega⟩
    rw [getElem?_serialize_splits t keys hin, List.findSome?_eq_none_iff.mpr, Option.none_or]
    intro i _
    exact List.getElem?_eq_none (Nat.le_trans (t.splitAt i).length_cells (by omega))
  · rw [List.getElem?_eq_none (by rw [length_serialize]; omega), List.getElem?_eq_none (by omega)]

theorem splitCell_of_ge (t : Tensor) {k : Nat} (hk : MAX_NUM_SPLITS < k) :
    t.splitCell k = .int 0 := by
  rw [splitCell, List.findSome?_eq_none_iff.mpr, Option.getD_none]
  intro i _
  exact List.getElem?_eq_none (Nat.le_trans (t.splitAt i).length_cells hk)

/-- The cells past the header in a key of zeros. -/
theorem getElem?_serialize_zeros (t : Tensor) {n k : Nat} (hin : idx + 2 + 2 * t.numDim + k < n) :
    (t.serialize (List.replicate n (.int 0)) idx)[idx + 2 + 2 * t.numDim + k]? =
      some (t.splitCell k) := by
  rw [getElem?_serialize_splits t _ (by simpa using hin), List.getElem?_replicate_of_lt hin,
    splitCell]
  cases (List.range t.numDim).reverse.findSome? fun (i : Nat) => (t.splitAt i).cells[k]? <;> rfl

theorem header_congr (h : t.SameLayout u) : t.header = u.header := by
  have hcells : ∀ f : Tensor → Nat → Int, (∀ i < t.numDim, f t i = f u i) →
      (List.range t.numDim).map (fun i => KeyCell.int (f t i)) =
        (List.range u.numDim).map fun i => KeyCell.int (f u i) := by
    intro f hf
    rw [← h.1]
    refine List.map_congr_left fun i hi => ?_
    rw [hf i (List.mem_range.mp hi)]
  rw [header, header, hcells (fun v i => v.dimAt i) fun i hi => (h.2 i hi).1,
    hcells (fun v i => v.strideAt i) fun i hi => (h.2 i hi).2, h.1]

/-- **What equal keys say**: the layouts are the same, and so is what the split infos leave. -/
theorem serialize_zeros_eq_iff {n : Nat} (hroom : idx + MAX_KEY_LENGTH ≤ n) :
    t.serialize (List.replicate n (.int 0)) idx = u.serialize (List.replicate n (.int 0)) idx ↔
      t.SameLayout u ∧ ∀ k, t.splitCell k = u.splitCell k := by
  have hdim := t.hdim
  have hdimu := u.hdim
  have hlong : idx + 2 + 2 * MAX_DIM + (MAX_NUM_SPLITS + 1) ≤ n := by
    simp only [MAX_KEY_LENGTH, MAX_NUM_SPLITS, MAX_DIM] at hroom ⊢
    omega
  constructor
  · intro h
    have hlayout : t.SameLayout u :=
      shape_eq_of_serialize_eq (by simp only [List.length_replicate]; omega) rfl h
    refine ⟨hlayout, fun k => ?_⟩
    by_cases hk : k ≤ MAX_NUM_SPLITS
    · have hcell := getElem?_serialize_zeros t (show idx + 2 + 2 * t.numDim + k < n by omega)
      rw [h, hlayout.1, getElem?_serialize_zeros u (by omega)] at hcell
      exact (Option.some.inj hcell).symm
    · rw [splitCell_of_ge t (by omega), splitCell_of_ge u (by omega)]
  · rintro ⟨hlayout, hcells⟩
    refine List.ext_getElem? fun j => ?_
    by_cases hin : j < n
    · rcases Nat.lt_or_ge j idx with hlt | hge
      · rw [getElem?_serialize_lt _ _ hlt, getElem?_serialize_lt _ _ hlt]
      rcases Nat.lt_or_ge j (idx + 2 + 2 * t.numDim) with hhead | hrest
      · obtain ⟨k, rfl⟩ : ∃ k, j = idx + k := ⟨j - idx, by omega⟩
        rw [getElem?_serialize_header t _ _ (by omega) (by simpa using hin),
          getElem?_serialize_header u _ _ (by rw [← hlayout.1]; omega) (by simpa using hin),
          header_congr hlayout]
      · obtain ⟨k, rfl⟩ : ∃ k, j = idx + 2 + 2 * t.numDim + k :=
          ⟨j - (idx + 2 + 2 * t.numDim), by omega⟩
        rw [getElem?_serialize_zeros t hin, hcells k]
        rw [hlayout.1] at hin ⊢
        rw [getElem?_serialize_zeros u hin]
    · rw [List.getElem?_eq_none (by simp; omega), List.getElem?_eq_none (by simp; omega)]

/-! ## Injectivity -/

/-- The two tensors differ in the splits of a dimension and in nothing that a key shows: not in rank,
dims and strides, not in the number of positions of the last dimension, and for no `k` in the `k`-th
position of the last dimension that has one. -/
def SplitsLost (t u : Tensor) : Prop :=
  t.SameLayout u ∧ (∃ i < t.numDim, t.splitAt (i : Nat) ≠ u.splitAt (i : Nat)) ∧
    ∀ k ≤ MAX_NUM_SPLITS, t.splitCell k = u.splitCell k

theorem splitCell_congr (hn : t.numDim = u.numDim)
    (h : ∀ i < t.numDim, t.splitAt (i : Nat) = u.splitAt (i : Nat)) (k : Nat) :
    t.splitCell k = u.splitCell k := by
  have hcells : ∀ is : List Nat, (∀ i ∈ is, i < t.numDim) →
      (is.findSome? fun (i : Nat) => (t.splitAt i).cells[k]?) =
        is.findSome? fun (i : Nat) => (u.splitAt i).cells[k]? := by
    intro is his
    induction is with
    | nil => rfl
    | cons i is ih =>
      rw [List.findSome?_cons, List.findSome?_cons, h i (his i (by simp)),
        ih fun j hj => his j (by simp [hj])]
  rw [splitCell, splitCell, ← hn, hcells _ fun i hi => by simpa using hi]

/-- **A serialised tensor fits its room, and its cells are equal to those of another one exactly if
`has_same_shape_stride_split` holds, except where splits are lost.** -/
theorem serialize_tells_iff (a b : Tensor) (n idx : Nat) (hroom : idx + MAX_KEY_LENGTH ≤ n) :
    (∀ (keys : List KeyCell) (j : Nat), (j < idx ∨ idx + MAX_KEY_LENGTH ≤ j) →
        (a.serialize keys idx)[j]? = keys[j]? ∧ (b.serialize keys idx)[j]? = keys[j]?) ∧
      ((a.serialize (List.replicate n (.int 0)) idx = b.serialize (List.replicate n (.int 0)) idx ↔
          a.hasSameShapeStrideSplit b = true) ↔ ¬ a.SplitsLost b) := by
  refine ⟨fun keys j hj => ⟨getElem?_serialize_outside a keys hj,
    getElem?_serialize_outside b keys hj⟩, ?_⟩
  rw [serialize_zeros_eq_iff hroom, hasSameShapeStrideSplit_iff]
  constructor
  · rintro h ⟨hlayout, ⟨i, hi, hne⟩, hcells⟩
    refine hne (((h.mp ⟨hlayout, fun k => ?_⟩).2 i hi).2.2)
    by_cases hk : k ≤ MAX_NUM_SPLITS
    · exact hcells k hk
    · rw [splitCell_of_ge a (by omega), splitCell_of_ge b (by omega)]
  · intro hkept
    constructor
    · rintro ⟨hlayout, hcells⟩
      refine ⟨hlayout.1, fun i hi => ⟨(hlayout.2 i hi).1, (hlayout.2 i hi).2, ?_⟩⟩
      by_contra hne
      exact hkept ⟨hlayout, ⟨i, hi, hne⟩, fun k _ => hcells k⟩
    · rintro ⟨hn, hall⟩
      exact ⟨⟨hn, fun i hi => ⟨(hall i hi).1, (hall i hi).2.1⟩⟩,
        splitCell_congr hn fun i hi => (hall i hi).2.2⟩

/-- A dimension cut once. -/
def cutAt (n : Int) : SplitInfo := ⟨[n], (by decide : 1 ≤ MAX_NUM_SPLITS)⟩

/-- Eight images of eight channels, cut after some images or after some channels. -/
def cutImages (n : Int) : Tensor := output4d 8 8 4 4 (cutAt n) .noSplit .noSplit .noSplit

def cutChannels (n : Int) : Tensor := output4d 8 8 4 4 .noSplit (cutAt n) .noSplit .noSplit

theorem serialize_tells_cutChannels :
    0 + MAX_KEY_LENGTH ≤ 274 ∧
      ((cutChannels 3).serialize (List.replicate 274 (.int 0)) 0 =
          (cutChannels 4).serialize (List.replicate 274 (.int 0)) 0 ↔
        (cutChannels 3).hasSameShapeStrideSplit (cutChannels 4) = true) := by
  have hroom : 0 + MAX_KEY_LENGTH ≤ 274 := by decide
  refine ⟨hroom, (serialize_tells_iff (cutChannels 3) (cutChannels 4) 274 0 hroom).2.mpr ?_⟩
  rintro ⟨-, -, hcells⟩
  exact absurd (hcells 1 (by decide)) (by decide)

/-- **Splits get lost**: a cut between images leaves the same cells as one between channels. -/
theorem serialize_cutImages_cutChannels :
    (cutImages 3).serialize (List.replicate 274 (.int 0)) 0 =
        (cutChannels 3).serialize (List.replicate 274 (.int 0)) 0 ∧
      (cutImages 3).hasSameShapeStrideSplit (cutChannels 3) = false := by
  decide +kernel

end Tensor

end Peps
