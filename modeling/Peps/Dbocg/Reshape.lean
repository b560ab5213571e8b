import Mathlib.Algebra.Order.Ring.Int
import Peps.Dbocg.GraphEdges
import Peps.Dbocg.ModelCalls

/-!
# `Graph.reshape`

The shape a caller gives may have zeros, which stand for dims of the input, and -1 for what is left.
The three passes over it amount to one condition: the product of the given entries is not zero and
divides the volume, and it is the volume if there is no -1 (`Fits`). The entries themselves are not
looked at, so entries below -1 go through if there is an even number of them or a -1 makes up for
the sign, and the tensor that is returned has negative dims (`reshape_completes_iff`).
-/

namespace Peps

open Lib

namespace Graph

/-! ## The passes -/

/-- The shape with the zeros replaced. -/
def given (input : Tensor) (shape : List Int) : List Int :=
  shape.zipIdx.map fun x => if x.1 ≠ 0 then x.1 else input.dimAt x.2

/-- The product of the entries that are not -1. -/
def givenVolume (shape : List Int) : Int := Shape.volume (shape.filter (· ≠ -1))

theorem copyDims_eq {input : Tensor} {shape : List Int} (h : shape.length ≤ MAX_DIM) :
    copyDims input shape = .ok (given input shape) := by
  refine mapM_eq_ok_map fun x hx => ?_
  have hlt := (List.getElem?_eq_some_iff.mp (List.mem_zipIdx_iff_getElem?.mp hx)).1
  obtain ⟨d, i⟩ := x
  by_cases hd : d = 0
  · simp only [hd, ne_eq, not_true_eq_false, if_false]
    rw [if_pos (Nat.lt_of_lt_of_le hlt h)]
  · simp only [ne_eq, hd, not_false_eq_true, if_true]

theorem getElem?_given (input : Tensor) {shape : List Int} {i : Nat} {d : Int}
    (h : shape[i]? = some d) :
    (given input shape)[i]? = some (if d ≠ 0 then d else input.dimAt i) := by
  rw [given, List.getElem?_map, List.getElem?_zipIdx, h]
  simp

theorem length_given (input : Tensor) (shape : List Int) :
    (given input shape).length = shape.length := by
  simp [given]

/-- The second pass: the quotient is exact at every entry exactly if it is in the end. -/
theorem leftover_ok_iff {volume r : Int} {shape : List Int} :
    leftover volume shape = .ok r ↔ givenVolume shape ≠ 0 ∧ givenVolume shape * r = volume := by
  unfold leftover givenVolume
  induction shape generalizing volume with
  | nil =>
    rw [List.foldlM_nil, List.filter_nil, Shape.volume]
    show Except.ok volume = Except.ok r ↔ _
    rw [Except.ok.injEq, one_mul, eq_comm]
    simp
  | cons d shape ih =>
    rw [List.foldlM_cons]
    by_cases hd : d = -1
    · rw [if_pos hd, List.filter_cons_of_neg (by simp [hd])]
      exact ih
    rw [if_neg hd, List.filter_cons_of_pos (by simp [hd]), Shape.volume]
    simp only [bind_ok_iff, pyMod_eq_ok, pyAssert_eq_ok, pyFloorDiv_eq_ok, exists_const, ih]
    constructor
    · rintro ⟨q, ⟨r', ⟨hd0, rfl⟩, hmod, -, rfl⟩, hne, hq⟩
      refine ⟨mul_ne_zero hd0 hne, ?_⟩
      have hexact := Int.mul_fdiv_add_fmod volume d
      rw [hmod, add_zero] at hexact
      rw [mul_assoc, hq, hexact]
    · rintro ⟨hne, rfl⟩
      obtain ⟨hd0, hrest⟩ := mul_ne_zero_iff.mp hne
      have hmul : d * Shape.volume (shape.filter (· ≠ -1)) * r =
          Shape.volume (shape.filter (· ≠ -1)) * r * d := by ring
      refine ⟨_, ⟨_, ⟨hd0, rfl⟩, ?_, hd0, rfl⟩, hrest, ?_⟩
      · rw [hmul]
        exact Int.mul_fmod_left _ _
      · rw [hmul, Int.mul_fdiv_cancel _ hd0]

/-- The third pass, with the volume of the filled shape. -/
theorem fillOpen_volume (shape : List Int) (r : Int) :
    (-1 ∈ shape → Shape.volume (fillOpen shape r).1 = givenVolume shape * r ∧
        (fillOpen shape r).2 = 1) ∧
      (-1 ∉ shape → (fillOpen shape r).1 = shape ∧ (fillOpen shape r).2 = r) := by
  unfold givenVolume
  induction shape generalizing r with
  | nil => exact ⟨fun h => absurd h (by simp), fun _ => ⟨rfl, rfl⟩⟩
  | cons d shape ih =>
    by_cases hd : d = -1
    · refine ⟨fun _ => ?_, fun h => absurd (by simp [hd]) h⟩
      rw [List.filter_cons_of_neg (by simp [hd]), fillOpen, if_pos hd]
      -- what is left after the first -1 is 1
      have hrest : Shape.volume (fillOpen shape 1).1 = Shape.volume (shape.filter (· ≠ -1)) ∧
          (fillOpen shape 1).2 = 1 := by
        by_cases hopen : -1 ∈ shape
        · obtain ⟨hvol, hone⟩ := (ih 1).1 hopen
          exact ⟨by rw [hvol, mul_one], hone⟩
        · obtain ⟨hsame, hone⟩ := (ih 1).2 hopen
          refine ⟨?_, hone⟩
          rw [hsame, List.filter_eq_self.mpr]
          intro x hx
          rw [decide_eq_true_eq]
          exact fun heq => hopen (heq ▸ hx)
      refine ⟨?_, hrest.2⟩
      show r * Shape.volume (fillOpen shape 1).1 = _
      rw [hrest.1, mul_comm]
    · rw [List.filter_cons_of_pos (by simp [hd]), fillOpen, if_neg hd]
      have hmem : -1 ∈ d :: shape ↔ -1 ∈ shape := by
        rw [List.mem_cons]
        exact ⟨fun h => h.resolve_left fun heq => hd heq.symm, Or.inr⟩
      rw [hmem]
      refine ⟨fun hopen => ?_, fun hopen => ?_⟩
      · obtain ⟨hvol, hone⟩ := (ih r).1 hopen
        refine ⟨?_, hone⟩
        show d * Shape.volume (fillOpen shape r).1 = _
        rw [hvol, Shape.volume, mul_assoc]
      · obtain ⟨hsame, hsize⟩ := (ih r).2 hopen
        refine ⟨?_, hsize⟩
        show d :: (fillOpen shape r).1 = _
        rw [hsame]

/-- The third pass changes only the entries -1, to what is left or to 1. -/
theorem getElem?_fillOpen {shape : List Int} {r d : Int} {i : Nat} (h : shape[i]? = some d) :
    (d ≠ -1 → (fillOpen shape r).1[i]? = some d) ∧
      (d = -1 → (fillOpen shape r).1[i]? = some r ∨ (fillOpen shape r).1[i]? = some 1) := by
  induction shape generalizing r i with
  | nil => cases h
  | cons e shape ih =>
    rw [fillOpen]
    cases i with
    | zero =>
      rw [List.getElem?_cons_zero, Option.some.injEq] at h
      subst h
      split
      · next heq => exact ⟨fun hne => absurd heq hne, fun _ => .inl rfl⟩
      · next hne => exact ⟨fun _ => rfl, fun heq => absurd heq hne⟩
    | succ i =>
      rw [List.getElem?_cons_succ] at h
      split
      · obtain ⟨hsame, hopen⟩ := ih (r := 1) h
        exact ⟨hsame, fun heq => .inr ((hopen heq).elim id id)⟩
      · exact ih h

theorem length_fillOpen (shape : List Int) (r : Int) :
    (fillOpen shape r).1.length = shape.length := by
  induction shape generalizing r with
  | nil => rfl
  | cons d shape ih =>
    rw [fillOpen]
    split <;> exact congrArg (· + 1) (ih _)

/-! ## The call -/

/-- What the three passes ask for. -/
structure Fits (input : Tensor) (shape : List Int) : Prop where
  ne : givenVolume (given input shape) ≠ 0
  dvd : givenVolume (given input shape) ∣ input.volume
  closed : -1 ∉ given input shape → givenVolume (given input shape) = input.volume

/-- The operators in sight have guids of their own, below the next one. -/
structure Ready (g : Graph) (m : Model) (input : Handle) : Prop where
  consistent : Consistent g
  unique : UniqueGuids fun op => g.Mentions op ∨ op = input.op
  ahead : ∀ op, (g.Mentions op ∨ op = input.op) → op.guid < m.global_unique_id

theorem Ready.build {g : Graph} {m : Model} {input : Handle} (h : g.Ready m input) (p : OpBase)
    (m' : Model) : ∃ out, g.build [input] ⟨m.global_unique_id, some p⟩ m' = .ok out := by
  have hadd : ∃ g', g.addEdges [⟨input.op, ⟨m.global_unique_id, some p⟩, input.tensor.idx, 0⟩] =
      .ok g' := addEdges_ok (g := g)
    (S := fun op => (g.Mentions op ∨ op = input.op) ∨ op = ⟨m.global_unique_id, some p⟩)
    (by
      rintro a b (ha | rfl) (hb | rfl) heq
      · exact h.unique a b ha hb heq
      · exact absurd (h.ahead a ha) (by rw [heq]; exact Nat.lt_irrefl _)
      · exact absurd (h.ahead b hb) (by rw [← heq]; exact Nat.lt_irrefl _)
      · rfl)
    h.consistent (fun op hop => .inl (.inl hop))
    (by
      intro e he
      rw [List.mem_singleton.mp he]
      exact ⟨.inl (.inr rfl), .inr rfl⟩)
  obtain ⟨g', hg'⟩ := hadd
  refine ⟨(Handle.ofOp ⟨m.global_unique_id, some p⟩, m', g'), ?_⟩
  have hattach : g.attach ⟨m.global_unique_id, some p⟩ [input] =
      g.addEdges [⟨input.op, ⟨m.global_unique_id, some p⟩, input.tensor.idx, 0⟩] := rfl
  rw [Graph.build, hattach, hg']
  rfl

variable {made : List ModelCall} {m m' : Model} {g g' : Graph} {input h : Handle}
  {shape : List Int}

/-- **What a call that returns has done.** -/
theorem reshape_ok (hm : m.Honest made) (hlen : shape.length ≤ MAX_DIM)
    (hrun : g.reshape m input shape = .ok (h, m', g')) :
    Fits input.tensor shape ∧ ∃ r, givenVolume (given input.tensor shape) * r = input.tensor.volume ∧
      h.tensor.dims = (fillOpen (given input.tensor shape) r).1 ∧
      h.tensor.volume = input.tensor.volume := by
  simp only [reshape, bind_ok_iff, copyDims_eq hlen, Except.ok.injEq] at hrun
  obtain ⟨_, rfl, r, hleft, hrun⟩ := hrun
  obtain ⟨hne, hvol⟩ := leftover_ok_iff.mp hleft
  obtain ⟨_, hone, ⟨op, m1⟩, hissue, hbuild⟩ := hrun
  rw [pyAssert_eq_ok] at hone
  refine ⟨⟨hne, ⟨r, hvol.symm⟩, fun hopen => ?_⟩, r, hvol, ?_⟩
  · rw [((fillOpen_volume _ r).2 hopen).2] at hone
    rw [← hvol, hone, mul_one]
  · obtain ⟨p, q, rfl, hq, hagrees, -⟩ := hm.issue (c := .reshape input.tensor _) hissue
    simp only [build, bind_ok_iff] at hbuild
    obtain ⟨g1, -, hret⟩ := hbuild
    cases hret
    -- the tensor is the output of a body that agrees with the one built here
    have hdims : p.output.dims = q.output.dims := by
      rw [Tensor.dims, Tensor.dims, ← hagrees.output.1]
      exact List.map_congr_left fun i hi => (hagrees.output.2 i (List.mem_range.mp hi)).1
    have hshape := (mkReshape_hasShape hq).1
    show p.output.dims = _ ∧ p.output.volume = _
    refine ⟨hdims.trans hshape, ?_⟩
    rw [Tensor.volume_eq, hdims, hshape]
    exact (mkReshape_ok_iff _ (mkReshape_length hq)).mp ⟨q, hq⟩

/-- The keys of reshapes begin with a number, so they can always be ordered. -/
theorem reshape_comparable (hm : m.Honest made) (t : Tensor) (s : List Int) :
    ∀ entry ∈ m.reshape, keysComparable (reshapeKey t s) entry.1 = true := by
  rintro ⟨k, p⟩ hmem
  obtain ⟨c, -, hkey, hkind, -⟩ := hm.unary .reshape k p hmem
  cases c with
  | reshape t' s' =>
    rw [← hkey]
    exact keysComparable_of_head (reshapeKey_head t s) (reshapeKey_head t' s')
  | pool2d | activation | transpose => exact absurd hkind (by simp [UnaryCall.kind])

theorem getOrCreateReshape_ok (hm : m.Honest made) (t : Tensor) {s : List Int}
    (hlen : s.length ≤ MAX_DIM) (hvol : Shape.volume s = t.volume) :
    ∃ p table, m.getOrCreateReshape t s = .ok ({ m with reshape := table }.wrap p) := by
  obtain ⟨q, hq⟩ := (mkReshape_ok_iff m.nextAddr hlen).mpr hvol
  obtain ⟨⟨p, table⟩, hlook⟩ := lookupOrBuild_ok (p := q) (reshape_comparable hm t s)
  rw [← hq] at hlook
  exact ⟨p, table, bind_ok_iff.mpr ⟨(p, table), hlook, rfl⟩⟩

/-- The pass that fills the open entries leaves 1 behind. -/
theorem Fits.filled {t : Tensor} (h : Fits t shape) {r : Int}
    (hr : t.volume = givenVolume (given t shape) * r) :
    Shape.volume (fillOpen (given t shape) r).1 = t.volume ∧ (fillOpen (given t shape) r).2 = 1 := by
  by_cases hopen : -1 ∈ given t shape
  · obtain ⟨hvol, hone⟩ := (fillOpen_volume _ r).1 hopen
    exact ⟨hvol.trans hr.symm, hone⟩
  · obtain ⟨hsame, hsize⟩ := (fillOpen_volume _ r).2 hopen
    -- the product of the entries is the volume, so 1 is left
    have hclosed := h.closed hopen
    have hone : r = 1 := by
      rw [← hclosed] at hr
      exact mul_left_cancel₀ h.ne (by rw [mul_one]; exact hr.symm)
    refine ⟨?_, hsize.trans hone⟩
    rw [hsame, ← hclosed, givenVolume, List.filter_eq_self.mpr]
    intro x hx
    rw [decide_eq_true_eq]
    exact fun heq => hopen (heq ▸ hx)

/-- **A shape that fits goes through.** -/
theorem Fits.reshape (hm : m.Honest made) (hready : g.Ready m input)
    (hlen : shape.length ≤ MAX_DIM) (h : Fits input.tensor shape) :
    ∃ out, g.reshape m input shape = .ok out := by
  obtain ⟨r, hr⟩ := h.dvd
  have hleft := leftover_ok_iff.mpr ⟨h.ne, hr.symm⟩
  obtain ⟨hvol, hone⟩ := h.filled hr
  have hshort : (fillOpen (given input.tensor shape) r).1.length ≤ MAX_DIM := by
    rw [length_fillOpen, length_given]
    exact hlen
  obtain ⟨p, table, hget⟩ := getOrCreateReshape_ok hm input.tensor hshort hvol
  obtain ⟨out, hout⟩ := hready.build p
    { m with reshape := table, global_unique_id := m.global_unique_id + 1 }
  refine ⟨out, bind_ok_iff.mpr ⟨_, copyDims_eq hlen, bind_ok_iff.mpr ⟨r, hleft, ?_⟩⟩⟩
  exact bind_ok_iff.mpr ⟨(), pyAssert_of hone, bind_ok_iff.mpr ⟨_, hget, hout⟩⟩

/-! ## Completions -/

/-- A tensor of the input's volume and of positive dims that has the given entries, and the input's
dims for zeros. -/
structure Completes (input : Tensor) (shape : List Int) (t : Tensor) : Prop where
  rank : t.numDim = shape.length
  volume : t.volume = input.volume
  pos : ∀ i < t.numDim, 0 < t.dimAt (i : Nat)
  kept : ∀ (i : Nat) (d : Int), shape[i]? = some d → d ≠ 0 → d ≠ -1 → t.dimAt i = d
  copied : ∀ i : Nat, shape[i]? = some 0 → t.dimAt i = input.dimAt i

/-- The given entries, zeros standing for dims of the input, are positive. -/
def PositiveEntries (input : Tensor) (shape : List Int) : Prop :=
  ∀ (i : Nat) (d : Int), shape[i]? = some d → d ≠ -1 → 0 < if d ≠ 0 then d else input.dimAt i

theorem Completes.positiveEntries {t : Tensor} (h : Completes input.tensor shape t) :
    PositiveEntries input.tensor shape := by
  intro i d hd hne
  have hi : i < t.numDim := by
    rw [h.rank]
    exact (List.getElem?_eq_some_iff.mp hd).1
  by_cases hzero : d = 0
  · subst hzero
    rw [if_neg (by simp), ← h.copied i hd]
    exact h.pos i hi
  · rw [if_pos hzero, ← h.kept i d hd hzero hne]
    exact h.pos i hi

theorem given_dims {t : Tensor} (h : Completes input.tensor shape t) :
    List.Forall₂ (fun d x => d = -1 ∨ d = x) (given input.tensor shape) t.dims := by
  rw [List.forall₂_iff_get]
  refine ⟨by rw [length_given, Tensor.length_dims, h.rank], fun i hi hi' => ?_⟩
  rw [length_given] at hi
  have hshape := List.getElem?_eq_getElem hi
  have hgiven := getElem?_given input.tensor hshape
  have hdim := Tensor.getElem?_dims (t := t) (i := i) (by rw [h.rank]; exact hi)
  rw [List.getElem?_eq_some_iff] at hgiven hdim
  obtain ⟨_, hgiven⟩ := hgiven
  obtain ⟨_, hdim⟩ := hdim
  rw [List.get_eq_getElem, List.get_eq_getElem, hgiven, hdim]
  by_cases hzero : shape[i] = 0
  · rw [hzero] at hshape ⊢
    exact .inr (by rw [if_neg (by simp), h.copied i hshape])
  · rw [if_pos hzero]
    by_cases hopen : shape[i] = -1
    · exact .inl hopen
    · exact .inr (h.kept i _ hshape hzero hopen).symm

/-- A list with some of its positive entries replaced by -1. -/
theorem givenVolume_of_forall₂ {ds xs : List Int}
    (h : List.Forall₂ (fun d x => d = -1 ∨ d = x) ds xs) (hpos : ∀ x ∈ xs, 0 < x) :
    0 < givenVolume ds ∧ givenVolume ds ∣ Shape.volume xs ∧
      (-1 ∉ ds → givenVolume ds = Shape.volume xs) := by
  unfold givenVolume
  induction h with
  | nil => exact ⟨by decide, ⟨1, by rfl⟩, fun _ => rfl⟩
  | @cons d x ds xs hd hrest ih =>
    obtain ⟨hvol, hdvd, hclosed⟩ := ih fun y hy => hpos y (List.mem_cons_of_mem _ hy)
    have hx := hpos x (List.mem_cons_self ..)
    by_cases hopen : d = -1
    · rw [List.filter_cons_of_neg (by simp [hopen]), Shape.volume]
      exact ⟨hvol, hdvd.mul_left x, fun h => absurd (by simp [hopen]) h⟩
    · obtain rfl := hd.resolve_left hopen
      rw [List.filter_cons_of_pos (by simp [hopen]), Shape.volume, Shape.volume]
      refine ⟨Int.mul_pos hx hvol, mul_dvd_mul_left d hdvd, fun h => ?_⟩
      rw [hclosed fun hmem => h (List.mem_cons_of_mem _ hmem)]

/-- A completion fits. -/
theorem Completes.fits {t : Tensor} (h : Completes input.tensor shape t) :
    Fits input.tensor shape := by
  have hpos : ∀ x ∈ t.dims, 0 < x := by
    intro x hx
    obtain ⟨i, hi, rfl⟩ := List.mem_map.mp hx
    exact h.pos i (List.mem_range.mp hi)
  obtain ⟨hvol, hdvd, hclosed⟩ := givenVolume_of_forall₂ (given_dims h) hpos
  rw [← Tensor.volume_eq, h.volume] at hdvd hclosed
  exact ⟨ne_of_gt hvol, hdvd, hclosed⟩

/-- What a call with positive entries returns completes the shape. -/
theorem completes_of_reshape_ok (hm : m.Honest made) (hlen : shape.length ≤ MAX_DIM)
    (hpos : ∀ i < input.tensor.numDim, 0 < input.tensor.dimAt (i : Nat))
    (hentries : PositiveEntries input.tensor shape)
    (hrun : g.reshape m input shape = .ok (h, m', g')) :
    Completes input.tensor shape h.tensor := by
  obtain ⟨hfits, r, hr, hdims, hvol⟩ := reshape_ok hm hlen hrun
  have hrank : h.tensor.numDim = shape.length := by
    rw [← Tensor.length_dims, hdims, length_fillOpen, length_given]
  have hcell : ∀ i (d : Int), shape[i]? = some d →
      some (h.tensor.dimAt (i : Nat)) = (fillOpen (given input.tensor shape) r).1[i]? := by
    intro i d hd
    rw [← hdims, Tensor.getElem?_dims (by rw [hrank]; exact (List.getElem?_eq_some_iff.mp hd).1)]
  -- an entry that is not -1 stays
  have hstays : ∀ i (d : Int), shape[i]? = some d → d ≠ -1 →
      h.tensor.dimAt (i : Nat) = if d ≠ 0 then d else input.tensor.dimAt i := by
    intro i d hd hne
    have hpositive := hentries i d hd hne
    have hfilled := (getElem?_fillOpen (r := r) (getElem?_given input.tensor hd)).1
      (by omega)
    rw [← hcell i d hd] at hfilled
    exact Option.some.inj hfilled
  have hleft : 0 < r := by
    have hin : 0 < input.tensor.volume := by
      rw [Tensor.volume_eq]
      exact Shape.volume_pos fun x hx => by
        obtain ⟨i, hi, rfl⟩ := List.mem_map.mp hx
        exact hpos i (List.mem_range.mp hi)
    have hgiven : 0 < givenVolume (given input.tensor shape) := by
      refine Shape.volume_pos fun x hx => ?_
      obtain ⟨hmem, hne⟩ := List.mem_filter.mp hx
      obtain ⟨i, hi⟩ := List.mem_iff_getElem?.mp hmem
      have hlt : i < shape.length := by
        rw [← length_given input.tensor shape]
        exact (List.getElem?_eq_some_iff.mp hi).1
      have hshape := List.getElem?_eq_getElem hlt
      rw [getElem?_given _ hshape] at hi
      obtain rfl := Option.some.inj hi
      by_cases hopen : shape[i] = -1
      · simp [hopen] at hne
      · exact hentries i _ hshape hopen
    rw [← hr] at hin
    exact (pos_iff_pos_of_mul_pos hin).mp hgiven
  refine ⟨hrank, hvol, fun i hi => ?_, fun i d hd hzero hne => ?_, fun i hd => ?_⟩
  · have hd := List.getElem?_eq_getElem (hrank ▸ hi)
    by_cases hopen : shape[i] = -1
    · have hgiven := getElem?_given input.tensor hd
      rw [if_pos (by rw [hopen]; decide)] at hgiven
      rcases (getElem?_fillOpen (r := r) hgiven).2 hopen with heq | heq
      · rw [← hcell i _ hd] at heq
        rw [Option.some.inj heq]
        exact hleft
      · rw [← hcell i _ hd] at heq
        rw [Option.some.inj heq]
        decide
    · rw [hstays i _ hd hopen]
      exact hentries i _ hd hopen
  · rw [hstays i d hd hne, if_pos hzero]
  · rw [hstays i 0 hd (by decide), if_neg (by simp)]

/-- **`reshape` returns completions and finds them where there are any, exactly if the entries are
positive whenever the shape fits.** -/
theorem reshape_completes_iff (tag : Nat) (calls : List ModelCall) (g : Graph) (input : Handle)
    (shape : List Int) (hready : g.Ready ((Model.new tag).afterCalls calls) input)
    (hpos : ∀ i < input.tensor.numDim, 0 < input.tensor.dimAt (i : Nat))
    (hlen : shape.length ≤ MAX_DIM) :
    ((∀ h m' g', g.reshape ((Model.new tag).afterCalls calls) input shape = .ok (h, m', g') →
          Completes input.tensor shape h.tensor) ∧
        ((∀ d ∈ shape, 0 < d ∨ d = 0 ∨ d = -1) → shape.count (-1) ≤ 1 →
          (∃ t, Completes input.tensor shape t) →
          ∃ out, g.reshape ((Model.new tag).afterCalls calls) input shape = .ok out)) ↔
      (Fits input.tensor shape → PositiveEntries input.tensor shape) := by
  have hm := Model.honest_after tag calls
  constructor
  · rintro ⟨hreturns, -⟩ hfits
    obtain ⟨⟨h, m', g'⟩, hrun⟩ := hfits.reshape hm hready hlen
    exact (hreturns h m' g' hrun).positiveEntries
  · intro hentries
    refine ⟨fun h m' g' hrun => ?_, fun _ _ => ?_⟩
    · exact completes_of_reshape_ok hm hlen hpos (hentries (reshape_ok hm hlen hrun).1) hrun
    · rintro ⟨t, ht⟩
      exact ht.fits.reshape hm hready hlen

/-- A tensor that comes from nowhere in the graph. -/
def looseHandle (dims : List Int) : Handle := ⟨tensorOf dims, ⟨GUID_INPUT, none⟩⟩

theorem ready_new (dims : List Int) : Graph.new.Ready (Model.new 0) (looseHandle dims) := by
  have hop : ∀ op, (Graph.new.Mentions op ∨ op = (looseHandle dims).op) → op = ⟨GUID_INPUT, none⟩ := by
    rintro op ((hmem | hmem) | rfl)
    · cases hmem
    · cases hmem
    · rfl
  refine ⟨consistent_new, fun a b ha hb _ => (hop a ha).trans (hop b hb).symm, fun op h => ?_⟩
  rw [hop op h]
  decide

theorem reshape_completes_flatten :
    (looseHandle [2, 3, 4]).tensor.volume = 24 ∧
      ∀ h m' g', Graph.new.reshape (Model.new 0) (looseHandle [2, 3, 4]) [0, -1] = .ok (h, m', g') →
        Completes (looseHandle [2, 3, 4]).tensor [0, -1] h.tensor := by
  refine ⟨by decide, ((reshape_completes_iff 0 [] Graph.new (looseHandle [2, 3, 4]) [0, -1]
    (ready_new _) (by decide) (by decide)).mpr fun _ => ?_).1⟩
  intro i d hd hne
  cases i with
  | zero =>
    cases hd
    decide
  | succ i =>
    cases i with
    | zero =>
      cases hd
      exact absurd rfl hne
    | succ i => cases hd

/-- **Negative dims**: four cells go through as (-2) × (-2). -/
theorem reshape_negative :
    ((Graph.new.newInput (Model.new 0) [2, 2] >>= fun built =>
      built.2.2.reshape built.2.1 built.1 [-2, -2]).toOption.any
        fun out => out.1.tensor.dims == [-2, -2]) = true := by
  decide +kernel

end Graph

end Peps
