import Mathlib.Algebra.BigOperators.Group.Finset.Basic
import Mathlib.Data.Finset.Lattice.Fold
import Mathlib.Data.Finset.Prod
import Peps.Kernel.ConvCorrect
import Peps.Lib.Stores

/-!
# Pooling windows

`maxpool` and `avgpool` walk the window at each corner with two loops and fold the elements that
lie in the image into one number. Here the two loops are one definition (`foldWindow`), and its
closed form is taken over the set of image positions that the window covers (`imageWindow`): a
maximum is the supremum over that set, a sum the sum over it.
-/

namespace Peps

open Lib

/-! ## The loops over a window -/

section Loops

variable {α β : Type}

/-- `for (ky …) for (kx …)` over an accumulator; `visit` gives the element of a round, if the round
reads one. -/
def foldWindow (f : β → α → β) (init : β) (kernel_size : Int) (visit : Nat → Nat → Option α) : β :=
  (List.range kernel_size.toNat).foldl (fun acc ky =>
    (List.range kernel_size.toNat).foldl (fun acc kx => (visit ky kx).elim acc (f acc)) acc) init

theorem foldWindow_eq_foldl (f : β → α → β) (init : β) (k : Nat) (visit : Nat → Nat → Option α) :
    foldWindow f init k visit = ((rect k k).filterMap fun q => visit q.1 q.2).foldl f init := by
  have hround : ∀ (qs : List (Nat × Nat)) (acc : β),
      qs.foldl (fun acc q => (visit q.1 q.2).elim acc (f acc)) acc =
        (qs.filterMap fun q => visit q.1 q.2).foldl f acc := by
    intro qs
    induction qs with
    | nil => exact fun _ => rfl
    | cons q qs ih =>
      intro acc
      rw [List.foldl_cons, ih]
      cases hq : visit q.1 q.2 with
      | none => rw [List.filterMap_cons_none (by exact hq)]; rfl
      | some x => rw [List.filterMap_cons_some (by exact hq)]; rfl
  rw [← hround, rect, List.foldl_flatMap]
  simp only [List.foldl_map]
  rfl

theorem foldWindow_congr {f : β → α → β} {init : β} {k : Nat} {visit visit' : Nat → Nat → Option α}
    (h : ∀ ky < k, ∀ kx < k, visit ky kx = visit' ky kx) :
    foldWindow f init k visit = foldWindow f init k visit' := by
  rw [foldWindow_eq_foldl, foldWindow_eq_foldl]
  refine congrArg (List.foldl f init) (List.filterMap_congr fun q hq => ?_)
  exact h q.1 (mem_rect.mp hq).1 q.2 (mem_rect.mp hq).2

end Loops

/-! ## The image positions of a window -/

/-- The positions of the image inside window `(i, j)`. -/
def imageWindow (w k p s i j : Nat) : Finset (Nat × Nat) :=
  (Finset.range w ×ˢ Finset.range w).filter fun q =>
    (i * s ≤ q.1 + p ∧ q.1 + p < i * s + k) ∧ j * s ≤ q.2 + p ∧ q.2 + p < j * s + k

/-- The image position of cell `(ky, kx)` of window `(i, j)`, if it is inside. -/
def imagePosition (w p s i j : Nat) (q : Nat × Nat) : Option (Nat × Nat) :=
  if (p ≤ i * s + q.1 ∧ i * s + q.1 < w + p) ∧ p ≤ j * s + q.2 ∧ j * s + q.2 < w + p then
    some (i * s + q.1 - p, j * s + q.2 - p)
  else none

section Positions

variable {w k p s i j : Nat}

theorem imagePosition_eq_some {q r : Nat × Nat} :
    imagePosition w p s i j q = some r ↔
      (r.1 < w ∧ i * s + q.1 = r.1 + p) ∧ r.2 < w ∧ j * s + q.2 = r.2 + p := by
  obtain ⟨y, x⟩ := r
  unfold imagePosition
  split
  · rw [Option.some.injEq, Prod.mk.injEq]
    omega
  · refine iff_of_false (by simp) ?_
    dsimp only
    omega

/-- The positions that the loops visit, in their order. -/
theorem nodup_imagePositions : ((rect k k).filterMap (imagePosition w p s i j)).Nodup := by
  refine (nodup_rect k k).filterMap fun q q' r hq hq' => ?_
  obtain ⟨⟨-, h1⟩, -, h2⟩ := imagePosition_eq_some.mp hq
  obtain ⟨⟨-, h1'⟩, -, h2'⟩ := imagePosition_eq_some.mp hq'
  exact Prod.ext (by omega) (by omega)

theorem toFinset_imagePositions :
    ((rect k k).filterMap (imagePosition w p s i j)).toFinset = imageWindow w k p s i j := by
  ext r
  rw [List.mem_toFinset, List.mem_filterMap, imageWindow, Finset.mem_filter, Finset.mem_product,
    Finset.mem_range, Finset.mem_range]
  constructor
  · rintro ⟨q, hq, hr⟩
    have := mem_rect.mp hq
    obtain ⟨⟨hy, h1⟩, hx, h2⟩ := imagePosition_eq_some.mp hr
    exact ⟨⟨hy, hx⟩, by omega⟩
  · rintro ⟨⟨hy, hx⟩, h1, h2⟩
    refine ⟨(r.1 + p - i * s, r.2 + p - j * s), mem_rect.mpr ⟨?_, ?_⟩,
      imagePosition_eq_some.mpr ⟨⟨hy, ?_⟩, hx, ?_⟩⟩ <;> dsimp only <;> omega

end Positions

/-! ## Their elements -/

section Elements

variable {α : Type}

/-- The element at a position of channel `ch`. -/
def pixel (input : ArrayType α) (w ch : Nat) (q : Nat × Nat) : α :=
  input.elem (ch * (w * w) + (q.1 * w + q.2) : Nat)

/-- The loops read the pixels of the window. -/
def ReadsWindow (input : ArrayType α) (w k p s ch i j : Nat) (visit : Nat → Nat → Option α) : Prop :=
  ∀ ky < k, ∀ kx < k, visit ky kx = (imagePosition w p s i j (ky, kx)).map (pixel input w ch)

variable {input : ArrayType α} {w k p s ch i j : Nat} {visit : Nat → Nat → Option α}

theorem ReadsWindow.foldl_eq {β : Type} (h : ReadsWindow input w k p s ch i j visit)
    (f : β → α → β) (init : β) :
    foldWindow f init k visit =
      (((rect k k).filterMap (imagePosition w p s i j)).map (pixel input w ch)).foldl f init := by
  rw [foldWindow_congr h, foldWindow_eq_foldl, List.map_filterMap]

/-- **A maximum over a window.** -/
theorem ReadsWindow.max_eq [LinearOrder α] [OrderBot α]
    (h : ReadsWindow input w k p s ch i j visit) :
    foldWindow max ⊥ k visit = (imageWindow w k p s i j).sup (pixel input w ch) := by
  have hsup : ∀ (qs : List (Nat × Nat)) (m : α), (qs.map (pixel input w ch)).foldl max m =
      m ⊔ qs.toFinset.sup (pixel input w ch) := by
    intro qs
    induction qs with
    | nil => exact fun m => (sup_bot_eq m).symm
    | cons q qs ih =>
      intro m
      rw [List.map_cons, List.foldl_cons, ih, List.toFinset_cons, Finset.sup_insert, sup_assoc]
  rw [h.foldl_eq, hsup, bot_sup_eq, toFinset_imagePositions]

/-- **A sum over a window.** -/
theorem ReadsWindow.sum_eq [AddCommMonoid α] (h : ReadsWindow input w k p s ch i j visit) :
    foldWindow (· + ·) 0 k visit = ∑ q ∈ imageWindow w k p s i j, pixel input w ch q := by
  rw [h.foldl_eq, ← List.sum_eq_foldl, ← List.sum_toFinset _ nodup_imagePositions,
    toFinset_imagePositions]

end Elements

end Peps
