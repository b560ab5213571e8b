import Mathlib.Data.List.Induction
import Peps.Dbocg.Model

/-!
# Are the operator tables of a `Model` transparent?

A request to `get_or_create_conv2d`, `get_or_create_element` or `get_or_create_matmul`
should be answered as if the tables were not there: with an operator whose body has the
type, the parameters and the output layout of the one its own arguments build.

They are not transparent in general. The keys of the three binary operators serialise both
operands from the same index on, so the second overwrites the first; what a hit returns was
built for *some* earlier request with the same parameters and the same second operand
(`Built`, `layout_second_of_key_eq`), and its first operand may have another shape
(`conv2d_after_larger_input`). A run is transparent when the second operand determines the
first one's layout (`Determined`), which is what `transparent_of_determined` proves by
carrying the `Built` invariant of each table along the run.
-/

namespace Peps

open Lib

/-! ## Requests -/

/-- The three kinds of request, each with a table of its own. -/
inductive RequestKind where
  | conv2d | element | matmul
deriving DecidableEq

/-- One call of a `get_or_create_*` of a binary operator. -/
inductive Request where
  | conv2d (input weight : Tensor) (strideH strideW : Int) (padding : PaddingMode)
      (activation : ActiMode)
  | element (type : OpType) (t1 t2 : Tensor)
  | matmul (input weight : Tensor) (acti : ActiMode)
deriving DecidableEq

namespace Request

def kind : Request → RequestKind
  | conv2d .. => .conv2d
  | element .. => .element
  | matmul .. => .matmul

def first : Request → Tensor
  | conv2d input .. => input
  | element _ t1 _ => t1
  | matmul input .. => input

def second : Request → Tensor
  | conv2d _ weight .. => weight
  | element _ _ t2 => t2
  | matmul _ weight _ => weight

/-- The cells a key starts with: the parameters of the request. -/
def lead : Request → List KeyCell
  | conv2d _ _ strideH strideW padding activation =>
      [.int strideH, .int strideW, .padding padding, .acti activation]
  | element type _ _ => [.opType type]
  | matmul _ _ acti => [.int acti.value]

/-- The key the request is looked up under. -/
def key (r : Request) : Key :=
  binaryKey r.lead (Tensor.MAX_KEY_LENGTH * 2 + r.lead.length) r.first r.second

/-- The operator body its own arguments build. -/
def construct (addr : Nat × Nat) : Request → Except PyError OpBase
  | conv2d input weight strideH strideW padding activation =>
      mkConv2D addr input weight strideH strideW padding activation
  | element type t1 t2 => .ok (mkElement addr type t1 t2)
  | matmul input weight acti => mkMatmul addr input weight acti

/-- Two requests that differ at most in their operands. -/
def sameParams (r r' : Request) : Bool :=
  decide (r.kind = r'.kind) && decide (r.lead = r'.lead)

/-- The tensors the callers hand over: 4-D operands of a convolution, broadcastable ones of
an element-wise operator, and compatible matrices (of at least two dimensions) of a product.
-/
def admissible : Request → Bool
  | conv2d input weight .. => decide (input.numDim = 4) && decide (weight.numDim = 4)
  | element _ t1 t2 => Model.broadcastable t1 t2
  | matmul input weight _ => Model.matmulCompatible input weight && decide (2 ≤ input.numDim)

end Request

namespace Model

/-- The call itself. -/
def request (m : Model) : Request → Except PyError (Op × Model)
  | .conv2d input weight strideH strideW padding activation =>
      m.getOrCreateConv2d input weight strideH strideW padding activation
  | .element type t1 t2 => m.getOrCreateElement type t1 t2
  | .matmul input weight acti => m.getOrCreateMatmul input weight acti

/-- The model after a run of calls; one that raises has stored nothing. -/
def after (m : Model) (rs : List Request) : Model :=
  rs.foldl (fun m r => match m.request r with | .ok (_, m') => m' | .error _ => m) m

def table (m : Model) : RequestKind → OpTable
  | .conv2d => m.conv2d
  | .element => m.element
  | .matmul => m.matmul

end Model

/-- The parts of two bodies the graph optimiser looks at. -/
def OpBase.sameOp (p q : OpBase) : Bool :=
  decide (p.type = q.type) && decide (p.params = q.params) &&
    decide (p.output.numDim = q.output.numDim) && decide (p.output.dim = q.output.dim) &&
      decide (p.output.stride = q.output.stride)

/-- The request `r` is answered by `m` as its own arguments demand: with `INVALID_OP`, with a
body like the one they build, or with an exception where building it raises one too. -/
def Model.transparent (m : Model) (r : Request) : Bool :=
  match m.request r, r.construct m.nextAddr with
  | .ok (op, _), .ok q => decide (op = Op.invalid) || op.ptr.any (·.sameOp q)
  | .ok (op, _), .error _ => decide (op = Op.invalid)
  | .error _, .ok _ => false
  | .error _, .error _ => true

/-! ## Bodies built from operands of one layout

Each constructor reads only the rank, the dims (and, for `Conv2D`, the splits) of its
operands, below their rank; so operands of equal layout give bodies that agree. -/

/-- Equal rank, dims and strides: what a serialised tensor determines. -/
def Tensor.SameLayout (t u : Tensor) : Prop :=
  t.numDim = u.numDim ∧ ∀ i < t.numDim, t.dimAt (i : Nat) = u.dimAt (i : Nat) ∧
    t.strideAt (i : Nat) = u.strideAt (i : Nat)

instance (t u : Tensor) : Decidable (t.SameLayout u) :=
  inferInstanceAs (Decidable (_ ∧ _))

theorem Tensor.sameLayout_of_hasSame {t u : Tensor} (h : t.hasSameShapeStrideSplit u = true) :
    t.SameLayout u := by
  obtain ⟨hn, hcells⟩ := (t.hasSameShapeStrideSplit_iff u).mp h
  exact ⟨hn, fun i hi => ⟨(hcells i hi).1, (hcells i hi).2.1⟩⟩

/-- Equal layouts read equal dims at every subscript inside the rank. -/
theorem Tensor.SameLayout.dimAt {t u : Tensor} (h : t.SameLayout u) {i : Int} (h0 : 0 ≤ i)
    (hi : i < t.numDim) : t.dimAt i = u.dimAt i := by
  obtain ⟨n, rfl⟩ := Int.eq_ofNat_of_zero_le h0
  exact (h.2 n (by omega)).1

theorem OpBase.sameOp_iff (p q : OpBase) :
    p.sameOp q = true ↔ p.type = q.type ∧ p.params = q.params ∧
      p.output.numDim = q.output.numDim ∧ p.output.dim = q.output.dim ∧
        p.output.stride = q.output.stride := by
  simp [OpBase.sameOp, and_assoc]

theorem mkConv2D_congr {addr addr' : Nat × Nat} {input input' weight weight' : Tensor}
    {strideH strideW : Int} {padding : PaddingMode} {activation : ActiMode} {p : OpBase}
    (hinput : input.hasSameShapeStrideSplit input' = true) (hweight : weight.SameLayout weight')
    (h : mkConv2D addr input weight strideH strideW padding activation = .ok p) :
    ∃ q, mkConv2D addr' input' weight' strideH strideW padding activation = .ok q ∧
      p.sameOp q = true := by
  simp only [mkConv2D, bind_ok_iff, pyAssert_eq_ok, exists_const] at h
  obtain ⟨hi4, hw4, r, hr, hr0, groups, hg, r', hr', hr0', oh, hoh, ow, how, hs2, hs3, hp⟩ := h
  obtain ⟨hn, hcells⟩ := (input.hasSameShapeStrideSplit_iff input').mp hinput
  have hw := hweight.1
  have hlay := Tensor.sameLayout_of_hasSame hinput
  have e0 := hlay.dimAt (i := 0) (by omega) (by omega)
  have e1 := hlay.dimAt (i := 1) (by omega) (by omega)
  have e2 := hlay.dimAt (i := 2) (by omega) (by omega)
  have e3 := hlay.dimAt (i := 3) (by omega) (by omega)
  have f0 := hweight.dimAt (i := 0) (by omega) (by omega)
  have f1 := hweight.dimAt (i := 1) (by omega) (by omega)
  have f2 := hweight.dimAt (i := 2) (by omega) (by omega)
  have f3 := hweight.dimAt (i := 3) (by omega) (by omega)
  have s0 : input.splitAt 0 = input'.splitAt 0 := (hcells 0 (by omega)).2.2
  have s2 : input.splitAt 2 = input'.splitAt 2 := (hcells 2 (by omega)).2.2
  have s3 : input.splitAt 3 = input'.splitAt 3 := (hcells 3 (by omega)).2.2
  refine ⟨{ p with addr := addr', inputs := [input', weight'] }, ?_, ?_⟩
  · simp only [mkConv2D, bind_ok_iff, pyAssert_eq_ok, exists_const, ← e0, ← e1, ← e2, ← e3,
      ← f0, ← f1, ← f2, ← f3, ← s0, ← s2, ← s3]
    refine ⟨by omega, by omega, r, hr, hr0, groups, hg, r', hr', hr0', oh, hoh, ow, how, hs2,
      hs3, ?_⟩
    cases hp
    rfl
  · rw [OpBase.sameOp_iff]
    exact ⟨rfl, rfl, rfl, rfl, rfl⟩

/-- What the loop of `Element.__init__` accumulates apart from the splits. -/
def ElementLoop.Agree (s s' : ElementLoop) : Prop :=
  s.dim = s'.dim ∧ s.stride = s'.stride ∧ s.total = s'.total

theorem elementRound_agree {t1 t1' t2 t2' : Tensor} (h1 : t1.SameLayout t1')
    (h2 : t2.SameLayout t2') (numDim i : Nat) {s s' : ElementLoop} (hs : s.Agree s') :
    (elementRound t1 t2 numDim s i).Agree (elementRound t1' t2' numDim s' i) := by
  obtain ⟨hd, hst, htot⟩ := hs
  -- an axis an operand lacks counts as 1, and no dim is read for it
  have extent : ∀ {t u : Tensor}, t.SameLayout u →
      (if (t.numDim : Int) - 1 - i < 0 then 1 else t.dimAt ((t.numDim : Int) - 1 - i)) =
        if (u.numDim : Int) - 1 - i < 0 then 1 else u.dimAt ((u.numDim : Int) - 1 - i) := by
    intro t u h
    rw [← h.1]
    split
    · rfl
    · exact h.dimAt (by omega) (by omega)
  simp only [elementRound, ElementLoop.Agree, extent h1, extent h2, hd, hst, htot, and_self]

theorem elementLoop_agree {t1 t1' t2 t2' : Tensor} (h1 : t1.SameLayout t1')
    (h2 : t2.SameLayout t2') : (elementLoop t1 t2).Agree (elementLoop t1' t2') := by
  have hfold : ∀ (is : List Nat) (numDim : Nat) (s s' : ElementLoop), s.Agree s' →
      (is.foldl (elementRound t1 t2 numDim) s).Agree
        (is.foldl (elementRound t1' t2' numDim) s') := by
    intro is numDim
    induction is with
    | nil => exact fun _ _ hs => hs
    | cons i is ih =>
      intro s s' hs
      exact ih _ _ (elementRound_agree h1 h2 numDim i hs)
  unfold elementLoop
  rw [← h1.1, ← h2.1]
  exact hfold _ _ _ _ ⟨rfl, rfl, rfl⟩

theorem mkElement_congr {addr addr' : Nat × Nat} {type : OpType} {t1 t1' t2 t2' : Tensor}
    (h1 : t1.SameLayout t1') (h2 : t2.SameLayout t2') :
    (mkElement addr type t1 t2).sameOp (mkElement addr' type t1' t2') = true := by
  obtain ⟨hd, hst, -⟩ := elementLoop_agree h1 h2
  rw [OpBase.sameOp_iff]
  refine ⟨rfl, rfl, ?_, hd, hst⟩
  show max t1.numDim t2.numDim = max t1'.numDim t2'.numDim
  rw [h1.1, h2.1]

theorem Tensor.volume_congr {t u : Tensor} (hn : t.numDim = u.numDim) (hd : t.dim = u.dim) :
    t.volume = u.volume := by
  unfold Tensor.volume Tensor.dimAt
  rw [hn, hd]

theorem matmulDim_congr {input input' weight weight' : Tensor} (hinput : input.SameLayout input')
    (hweight : weight.SameLayout weight') (hrank : input.numDim = weight.numDim)
    (h2 : 2 ≤ input.numDim) : matmulDim input weight = matmulDim input' weight' := by
  unfold matmulDim
  have hlast : weight.dimAt ((input.numDim : Int) - 1) = weight'.dimAt ((input.numDim : Int) - 1) :=
    hweight.dimAt (by omega) (by omega)
  have hfold : (List.range (input.numDim - 1)).foldl
        (fun d (i : Nat) => pySet d i (input.dimAt i)) Tensor.empty.dim =
      (List.range (input.numDim - 1)).foldl
        (fun d (i : Nat) => pySet d i (input'.dimAt i)) Tensor.empty.dim := by
    refine List.foldl_ext _ _ _ fun d i hi => ?_
    have hlt := List.mem_range.mp hi
    rw [hinput.dimAt (by omega) (by omega)]
  rw [hfold, hlast, hinput.1]

theorem mkMatmul_congr {addr addr' : Nat × Nat} {input input' weight weight' : Tensor}
    {acti : ActiMode} {p : OpBase} (hinput : input.SameLayout input')
    (hweight : weight.SameLayout weight') (h2 : 2 ≤ input.numDim)
    (h : mkMatmul addr input weight acti = .ok p) :
    ∃ q, mkMatmul addr' input' weight' acti = .ok q ∧ p.sameOp q = true := by
  simp only [mkMatmul, bind_ok_iff, pyAssert_eq_ok, exists_const] at h
  obtain ⟨hrank, hbatch, hinner, hvol, hp⟩ := h
  have hdim := matmulDim_congr hinput hweight hrank h2
  have hn := hinput.1
  have hw := hweight.1
  have hbatch' : ∀ i < input'.numDim - 2, input'.dimAt (i : Nat) = weight'.dimAt (i : Nat) := by
    intro i hi
    rw [← hinput.dimAt (by omega) (by omega), ← hweight.dimAt (by omega) (by omega)]
    exact hbatch i (by omega)
  have hinner' : input'.dimAt ((input'.numDim : Int) - 1) =
      weight'.dimAt ((input'.numDim : Int) - 2) := by
    rw [← hn, ← hinput.dimAt (by omega) (by omega), ← hweight.dimAt (by omega) (by omega)]
    exact hinner
  have hvol' : (matmulStride input'.numDim (matmulDim input' weight')).2 =
      (matmulOutput input' weight').volume := by
    rw [← hn, ← hdim, hvol]
    exact Tensor.volume_congr hn hdim
  refine ⟨{ addr := addr', type := .OP_MATMUL, params := .matmul acti,
            inputs := [input', weight'], outputs := [matmulOutput input' weight'] }, ?_, ?_⟩
  · simp only [mkMatmul, bind_ok_iff, pyAssert_eq_ok, exists_const]
    exact ⟨by omega, hbatch', hinner', hvol', rfl⟩
  · cases hp
    rw [OpBase.sameOp_iff]
    refine ⟨rfl, rfl, hn, hdim, ?_⟩
    show (matmulStride input.numDim (matmulDim input weight)).1 =
      (matmulStride input'.numDim (matmulDim input' weight')).1
    rw [hn, hdim]

/-- **Requests with equal parameters and operands of equal layout build agreeing bodies.** -/
theorem Request.construct_congr {r r' : Request} {addr : Nat × Nat} {p : OpBase}
    (addr' : Nat × Nat) (hadm : r.admissible = true) (hparams : r.sameParams r' = true)
    (hfirst : r.first.hasSameShapeStrideSplit r'.first = true)
    (hsecond : r.second.SameLayout r'.second) (h : r.construct addr = .ok p) :
    ∃ q, r'.construct addr' = .ok q ∧ p.sameOp q = true := by
  have hlayout := Tensor.sameLayout_of_hasSame hfirst
  simp only [sameParams, Bool.and_eq_true, decide_eq_true_eq] at hparams
  obtain ⟨hkind, hlead⟩ := hparams
  cases r with
  | conv2d input weight strideH strideW padding activation =>
    cases r' with
    | conv2d input' weight' strideH' strideW' padding' activation' =>
      simp only [lead, List.cons.injEq, KeyCell.int.injEq, KeyCell.padding.injEq,
        KeyCell.acti.injEq, and_true] at hlead
      obtain ⟨rfl, rfl, rfl, rfl⟩ := hlead
      exact mkConv2D_congr hfirst hsecond h
    | element | matmul => exact absurd hkind (by simp [kind])
  | element type t1 t2 =>
    cases r' with
    | element type' t1' t2' =>
      simp only [lead, List.cons.injEq, KeyCell.opType.injEq, and_true] at hlead
      subst hlead
      cases h
      exact ⟨_, rfl, mkElement_congr hlayout hsecond⟩
    | conv2d | matmul => exact absurd hkind (by simp [kind])
  | matmul input weight acti =>
    cases r' with
    | matmul input' weight' acti' =>
      simp only [lead, List.cons.injEq, KeyCell.int.injEq, and_true] at hlead
      obtain rfl := ActiMode.value_injective hlead
      simp only [admissible, Bool.and_eq_true, decide_eq_true_eq] at hadm
      exact mkMatmul_congr hlayout hsecond hadm.2 h
    | conv2d | element => exact absurd hkind (by simp [kind])

/-! ## What equal keys say -/

theorem Request.length_lead_of_kind {r r' : Request} (h : r.kind = r'.kind) :
    r.lead.length = r'.lead.length := by
  cases r <;> cases r' <;> simp_all [kind, lead]

theorem Request.lead_eq_of_key_eq {r r' : Request} (hkind : r.kind = r'.kind)
    (hkey : r.key = r'.key) : r.lead = r'.lead := by
  have hlen := length_lead_of_kind hkind
  refine List.ext_getElem? fun j => ?_
  rcases Nat.lt_or_ge j r.lead.length with hj | hj
  · have hfront : r.key[j]? = r.lead[j]? := getElem?_binaryKey_lead _ _ _ _ hj
    have hfront' : r'.key[j]? = r'.lead[j]? := getElem?_binaryKey_lead _ _ _ _ (hlen ▸ hj)
    rw [← hfront, ← hfront', hkey]
  · rw [List.getElem?_eq_none hj, List.getElem?_eq_none (hlen ▸ hj)]

/-- The operand serialised last is in the key whole; of the first one nothing can be
recovered. -/
theorem Request.layout_second_of_key_eq {r r' : Request} (hkind : r.kind = r'.kind)
    (hkey : r.key = r'.key) : r.second.SameLayout r'.second := by
  have hlen := length_lead_of_kind hkind
  unfold key binaryKey at hkey
  rw [← hlen] at hkey
  refine Tensor.shape_eq_of_serialize_eq ?_ ?_ hkey
  · simp only [Tensor.length_serialize, keyCells, List.length_append, List.length_replicate]
    simp only [Tensor.MAX_KEY_LENGTH, MAX_NUM_SPLITS, MAX_DIM]
    omega
  · simp only [Tensor.length_serialize, keyCells, List.length_append, List.length_replicate]
    omega

theorem keysComparable_of_head {k k' : Key} {c c' : KeyCell} (h : k[0]? = some c)
    (h' : k'[0]? = some c') : keysComparable k k' = c.comparable c' := by
  cases k with
  | nil => simp at h
  | cons a k =>
    cases k' with
    | nil => simp at h'
    | cons a' k' =>
      simp only [List.getElem?_cons_zero, Option.some.injEq] at h h'
      rw [keysComparable, h, h']

/-- Keys of one kind can be ordered, element-wise ones if they are of one `OpType`. -/
theorem Request.keysComparable_key {r r' : Request} (hkind : r.kind = r'.kind)
    (helement : r.kind = .element → r.lead = r'.lead) : keysComparable r.key r'.key = true := by
  have hhead : ∀ {r : Request} {c : KeyCell}, r.lead[0]? = some c → r.key[0]? = some c := by
    intro r c h
    rw [key, getElem?_binaryKey_lead _ _ _ _ (by cases r <;> simp [lead]), h]
  cases r with
  | conv2d =>
    cases r' with
    | conv2d => rw [keysComparable_of_head (hhead rfl) (hhead rfl)]; rfl
    | element | matmul => exact absurd hkind (by simp [kind])
  | element type t1 t2 =>
    cases r' with
    | element type' t1' t2' =>
      have htype := helement rfl
      simp only [lead, List.cons.injEq, and_true] at htype
      rw [keysComparable_of_head (hhead rfl) (hhead rfl), ← htype]
      simp [KeyCell.comparable]
    | conv2d | matmul => exact absurd hkind (by simp [kind])
  | matmul =>
    cases r' with
    | matmul => rw [keysComparable_of_head (hhead rfl) (hhead rfl)]; rfl
    | conv2d | element => exact absurd hkind (by simp [kind])

/-! ## One request -/

theorem lookupOrBuild_ok {table : OpTable} {key : Key} {p : OpBase}
    (hcmp : ∀ entry ∈ table, keysComparable key entry.1 = true) :
    ∃ out, lookupOrBuild table key (.ok p) = .ok out := by
  unfold lookupOrBuild
  split
  · exact ⟨_, rfl⟩
  · refine ⟨(p, (key, p) :: table), ?_⟩
    simp only [bind_ok_iff]
    refine ⟨p, rfl, (key, p) :: table, ?_, rfl⟩
    rw [sortedInsert, if_pos (List.all_eq_true.mpr hcmp)]

namespace Model

/-- What a request that returns has done. -/
theorem request_cases {m m' : Model} {r : Request} {op : Op} (h : m.request r = .ok (op, m')) :
    (op = Op.invalid ∧ m' = m) ∨
      ∃ p table', lookupOrBuild (m.table r.kind) r.key (r.construct m.nextAddr) = .ok (p, table') ∧
        op.ptr = some p ∧ m'.table r.kind = table' ∧
          ∀ k, k ≠ r.kind → m'.table k = m.table k := by
  cases r with
  | conv2d input weight strideH strideW padding activation =>
    simp only [request, getOrCreateConv2d, bind_ok_iff] at h
    obtain ⟨r, -, h⟩ := h
    split at h
    · cases h
      exact .inl ⟨rfl, rfl⟩
    · simp only [bind_ok_iff] at h
      obtain ⟨key, hkey, ⟨p, table'⟩, hlook, hret⟩ := h
      simp only [conv2DKey, bind_ok_iff] at hkey
      obtain ⟨-, -, -, -, -, -, -, -, -, -, hk⟩ := hkey
      cases hk
      cases hret
      refine .inr ⟨p, table', hlook, rfl, rfl, ?_⟩
      intro k hk
      cases k <;> first | rfl | exact absurd rfl hk
  | element type t1 t2 =>
    simp only [request, getOrCreateElement] at h
    split at h
    · cases h
      exact .inl ⟨rfl, rfl⟩
    · simp only [bind_ok_iff] at h
      obtain ⟨⟨p, table'⟩, hlook, hret⟩ := h
      cases hret
      refine .inr ⟨p, table', hlook, rfl, rfl, ?_⟩
      intro k hk
      cases k <;> first | rfl | exact absurd rfl hk
  | matmul input weight acti =>
    simp only [request, getOrCreateMatmul] at h
    split at h
    · cases h
      exact .inl ⟨rfl, rfl⟩
    · simp only [bind_ok_iff] at h
      obtain ⟨key, hkey, ⟨p, table'⟩, hlook, hret⟩ := h
      simp only [matmulKey, bind_ok_iff] at hkey
      obtain ⟨-, -, hk⟩ := hkey
      cases hk
      cases hret
      refine .inr ⟨p, table', hlook, rfl, rfl, ?_⟩
      intro k hk
      cases k <;> first | rfl | exact absurd rfl hk

/-- A request whose arguments build a body returns, as long as its key can be ordered among
those stored. -/
theorem request_ok_of_construct {m : Model} {r : Request} {p : OpBase}
    (hbuild : r.construct m.nextAddr = .ok p)
    (hcmp : ∀ entry ∈ m.table r.kind, keysComparable r.key entry.1 = true) :
    ∃ out, m.request r = .ok out := by
  obtain ⟨⟨q, table'⟩, hlook⟩ := lookupOrBuild_ok (p := p) hcmp
  rw [← hbuild] at hlook
  cases r with
  | conv2d input weight strideH strideW padding activation =>
    simp only [Request.construct, mkConv2D, bind_ok_iff, pyAssert_eq_ok, exists_const] at hbuild
    obtain ⟨-, -, r, hr, hr0, groups, hg, r', hr', hr0', -⟩ := hbuild
    refine ⟨{ m with conv2d := table' }.wrap q, ?_⟩
    simp only [request, getOrCreateConv2d, bind_ok_iff]
    refine ⟨r, hr, ?_⟩
    rw [if_neg (not_not.mpr hr0)]
    simp only [bind_ok_iff]
    refine ⟨_, ?_, _, hlook, rfl⟩
    simp only [conv2DKey, bind_ok_iff, pyAssert_eq_ok, exists_const]
    exact ⟨r, hr, hr0, groups, hg, r', hr', hr0', rfl⟩
  | element type t1 t2 =>
    simp only [request, getOrCreateElement]
    split
    · exact ⟨_, rfl⟩
    · refine ⟨{ m with element := table' }.wrap q, ?_⟩
      simp only [bind_ok_iff]
      exact ⟨_, hlook, rfl⟩
  | matmul input weight acti =>
    simp only [request, getOrCreateMatmul]
    split
    · exact ⟨_, rfl⟩
    · refine ⟨{ m with matmul := table' }.wrap q, ?_⟩
      simp only [Request.construct, mkMatmul, bind_ok_iff, pyAssert_eq_ok, exists_const] at hbuild
      simp only [bind_ok_iff]
      refine ⟨_, ?_, _, hlook, rfl⟩
      simp only [matmulKey, bind_ok_iff, pyAssert_eq_ok, exists_const]
      exact ⟨hbuild.1, rfl⟩

/-! ## Runs -/

/-- Each table holds only bodies built for requests of its kind that were made before. -/
def Traces (made : List Request) (m : Model) : Prop :=
  ∀ k, Built Request.key (fun r p => r.kind = k ∧ ∃ addr, r.construct addr = .ok p) made
    (m.table k)

theorem traces_new (tag : Nat) : (Model.new tag).Traces [] := by
  intro k
  cases k <;> exact Built.nil _ _ _

/-- **One request** keeps the tables honest and is answered with a body that was built for
a request of the same kind and key. -/
theorem request_traces {made : List Request} {m m' : Model} {r : Request} {op : Op}
    (hm : m.Traces made) (h : m.request r = .ok (op, m')) :
    m'.Traces (made ++ [r]) ∧
      (op = Op.invalid ∨ ∃ r' ∈ made ++ [r], r'.kind = r.kind ∧ r'.key = r.key ∧
        ∃ addr p, r'.construct addr = .ok p ∧ op.ptr = some p) := by
  have hmono : m.Traces (made ++ [r]) :=
    fun k => (hm k).mono (List.subset_append_left _ _)
  rcases request_cases h with ⟨rfl, rfl⟩ | ⟨p, table', hlook, hptr, htable, hother⟩
  · exact ⟨hmono, .inl rfl⟩
  rcases lookupOrBuild_cases hlook with ⟨hhit, rfl⟩ | ⟨hbuild, rfl⟩
  · obtain ⟨r', hmade, hkey, hkind, addr, hbuild⟩ := (hmono r.kind).of_hit hhit
    refine ⟨fun k => ?_, .inr ⟨r', hmade, hkind, hkey, addr, p, hbuild, hptr⟩⟩
    by_cases hk : k = r.kind
    · subst hk
      rw [htable]
      exact hmono r.kind
    · rw [hother k hk]
      exact hmono k
  · refine ⟨fun k => ?_, .inr ⟨r, by simp, rfl, rfl, _, p, hbuild, hptr⟩⟩
    by_cases hk : k = r.kind
    · subst hk
      rw [htable]
      exact (hmono r.kind).insert (by simp) ⟨rfl, _, hbuild⟩
    · rw [hother k hk]
      exact hmono k

/-- **A whole run** keeps them honest. -/
theorem traces_after (tag : Nat) (rs : List Request) :
    ((Model.new tag).after rs).Traces rs := by
  induction rs using List.reverseRecOn with
  | nil => exact traces_new tag
  | append_singleton rs r ih =>
    simp only [after, List.foldl_append, List.foldl_cons, List.foldl_nil] at ih ⊢
    split
    · next op m' hreq => exact (request_traces ih hreq).1
    · exact fun k => (ih k).mono (List.subset_append_left _ _)

end Model

/-- The runs on which the keys tell the requests apart: the operands are of the kinds the
callers use; two requests with the same parameters and second operands of the same layout
also have first operands of the same shape; and one `OpType` is used element-wise, since the
table cannot order two. -/
structure Determined (rs : List Request) : Prop where
  admissible : ∀ r ∈ rs, r.admissible = true
  first_of_second : ∀ r ∈ rs, ∀ r' ∈ rs, r.sameParams r' = true →
    r.second.SameLayout r'.second → r.first.hasSameShapeStrideSplit r'.first = true
  oneElementType : ∀ r ∈ rs, ∀ r' ∈ rs, r.kind = .element → r'.kind = .element →
    r.lead = r'.lead

/-- What an operator returned in a determined run points to. -/
theorem Model.answer_agrees {made : List Request} {m m' : Model} {r : Request} {op : Op}
    (hm : m.Traces made) (hdet : Determined (made ++ [r])) (hreq : m.request r = .ok (op, m')) :
    op = Op.invalid ∨ ∃ q, r.construct m.nextAddr = .ok q ∧ op.ptr.any (·.sameOp q) = true := by
  rcases (request_traces hm hreq).2 with hinv | ⟨r', hmade, hkind, hkey, addr, p, hp, hptr⟩
  · exact .inl hinv
  -- the body was built for `r'`, which the key cannot tell from `r`
  have hparams : r'.sameParams r = true := by
    simp [Request.sameParams, hkind, Request.lead_eq_of_key_eq hkind hkey]
  have hsecond := Request.layout_second_of_key_eq hkind hkey
  have hfirst := hdet.first_of_second r' hmade r (by simp) hparams hsecond
  obtain ⟨q, hq, hsame⟩ := Request.construct_congr m.nextAddr
    (hdet.admissible r' hmade) hparams hfirst hsecond hp
  exact .inr ⟨q, hq, by rw [hptr]; exact hsame⟩

/-- In a model whose tables are honest, a request that joins a determined run is answered as
its own arguments demand. -/
theorem Model.transparent_of_traces {made : List Request} {m : Model} {r : Request}
    (hm : m.Traces made) (hdet : Determined (made ++ [r])) : m.transparent r = true := by
  unfold Model.transparent
  split
  · next op m' q hreq hq =>
    rw [Bool.or_eq_true, decide_eq_true_eq]
    refine (answer_agrees hm hdet hreq).imp_right ?_
    rintro ⟨q', hq', hsame⟩
    rw [hq] at hq'
    cases hq'
    exact hsame
  · next op m' e hreq he =>
    rw [decide_eq_true_eq]
    refine (answer_agrees hm hdet hreq).resolve_right ?_
    rintro ⟨q', hq', -⟩
    rw [he] at hq'
    cases hq'
  · next e q hreq hq =>
    have hcmp : ∀ entry ∈ m.table r.kind, keysComparable r.key entry.1 = true := by
      rintro ⟨k, p⟩ hmem
      obtain ⟨r', hmade, hkey, hkind, -⟩ := hm r.kind k p hmem
      rw [← hkey]
      refine Request.keysComparable_key hkind.symm fun helem => ?_
      exact hdet.oneElementType r (by simp) r' (List.mem_append_left _ hmade) helem
        (hkind.trans helem)
    obtain ⟨out, hok⟩ := request_ok_of_construct hq hcmp
    rw [hreq] at hok
    cases hok
  · rfl

/-- **On a determined run every request is answered transparently**, whatever was requested
before it. -/
theorem transparent_of_determined (tag : Nat) (rs : List Request) (hdet : Determined rs)
    (pre post : List Request) (r : Request) (hrs : rs = pre ++ r :: post) :
    ((Model.new tag).after pre).transparent r = true := by
  refine Model.transparent_of_traces (Model.traces_after tag pre) ?_
  have hsub : pre ++ [r] ⊆ rs := by
    rw [hrs]
    intro x hx
    simp only [List.mem_append, List.mem_singleton] at hx
    rcases hx with hx | rfl
    · exact List.mem_append_left _ hx
    · simp
  exact ⟨fun r hr => hdet.admissible r (hsub hr),
    fun r hr r' hr' => hdet.first_of_second r (hsub hr) r' (hsub hr'),
    fun r hr r' hr' => hdet.oneElementType r (hsub hr) r' (hsub hr')⟩

/-- A row-major 4-D tensor without splits. -/
def plain4d (d0 d1 d2 d3 : Int) : Tensor :=
  output4d d0 d1 d2 d3 .noSplit .noSplit .noSplit .noSplit

/-- A block that convolves one input twice with one kernel and adds the two results. -/
def twinConvolutions : List Request :=
  [.conv2d (plain4d 1 3 32 32) (plain4d 64 3 3 3) 1 1 .PD_MODE_SAME .AC_MODE_NONE,
   .conv2d (plain4d 1 3 32 32) (plain4d 64 3 3 3) 1 1 .PD_MODE_SAME .AC_MODE_NONE,
   .element .OP_EW_ADD (plain4d 1 64 32 32) (plain4d 1 64 32 32)]

theorem twinConvolutions_transparent :
    Determined twinConvolutions ∧
      ((Model.new 0).after (twinConvolutions.take 1)).transparent (twinConvolutions.get ⟨1, by decide⟩)
        = true := by
  have hdet : Determined twinConvolutions := ⟨by decide, by decide +kernel, by decide⟩
  exact ⟨hdet, transparent_of_determined 0 twinConvolutions hdet (twinConvolutions.take 1)
    (twinConvolutions.drop 2) _ rfl⟩

/-- **The tables are not transparent**: after a convolution of a 32×32 image, the same kernel
on a 16×16 image is answered with the body built for the larger one. -/
theorem conv2d_after_larger_input :
    ((Model.new 0).after
        [.conv2d (plain4d 1 3 32 32) (plain4d 64 3 3 3) 1 1 .PD_MODE_SAME .AC_MODE_NONE]).transparent
      (.conv2d (plain4d 1 3 16 16) (plain4d 64 3 3 3) 1 1 .PD_MODE_SAME .AC_MODE_NONE) = false := by
  decide +kernel

end Peps
