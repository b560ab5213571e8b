import Peps.Dbocg.ModelTransparent
import Peps.Dbocg.TensorShape

/-!
# Calls on a `Model`

The requests for operators with one operand, next to those of `Request`, and what holds of a `Model`
after any sequence of calls: every body in a table was built for a call with its key (`Honest`).

Unlike the keys of the binary operators, those of poolings, activations and reshapes hold everything
that the output's layout depends on: the parameters, and the layout of the one tensor that is
serialised. So these tables are transparent whatever was called before (`issue_transparent`); the
table of transpositions is never filled.
-/

namespace Peps

open Lib

/-! ## Calls -/

inductive UnaryKind where
  | pool2d | activation | reshape | transpose
deriving DecidableEq

/-- One call of a `get_or_create_*` of an operator with one operand. The second operand of a pooling
is an array of equal weights; neither the key nor the output depends on it. -/
inductive UnaryCall where
  | pool2d (input weight : Tensor) (type : OpType) (kernelH kernelW strideH strideW : Int)
      (padding : PaddingMode) (activation : ActiMode)
  | activation (input : Tensor) (type : OpType) (inPlace : Bool)
  | reshape (input : Tensor) (shape : List Int)
  | transpose (input : Tensor) (perm : List Int) (shuffle : Bool)

namespace UnaryCall

def kind : UnaryCall → UnaryKind
  | pool2d .. => .pool2d
  | activation .. => .activation
  | reshape .. => .reshape
  | transpose .. => .transpose

def input : UnaryCall → Tensor
  | pool2d input .. => input
  | activation input .. => input
  | reshape input _ => input
  | transpose input .. => input

/-- The key the call is looked up under; nothing is stored for transpositions. -/
def key : UnaryCall → Key
  | pool2d input _ type kernelH kernelW strideH strideW padding acti =>
      pool2DKey input type kernelH kernelW strideH strideW padding acti
  | activation input type inPlace => activationKey input type inPlace
  | reshape input shape => reshapeKey input shape
  | transpose .. => []

/-- The operator body its own arguments build. -/
def construct (addr : Nat × Nat) : UnaryCall → Except PyError OpBase
  | pool2d input weight type kernelH kernelW strideH strideW padding acti =>
      mkPool2D addr input weight type kernelH kernelW strideH strideW padding acti
  | activation input type inPlace => .ok (mkActivation addr input type inPlace)
  | reshape input shape => mkReshape addr input shape
  | transpose input perm shuffle => mkTranspose addr input perm shuffle

end UnaryCall

/-- A call that changes a `Model`. -/
inductive ModelCall where
  | input (input : Tensor)
  | weight (weight : Tensor)
  | binary (r : Request)
  | unary (c : UnaryCall)

def ModelCall.request? : ModelCall → Option Request
  | binary r => some r
  | _ => none

def ModelCall.unary? : ModelCall → Option UnaryCall
  | unary c => some c
  | _ => none

namespace Model

/-- The call itself. -/
def issue (m : Model) : UnaryCall → Except PyError (Op × Model)
  | .pool2d input weight type kernelH kernelW strideH strideW padding activation =>
      m.getOrCreatePool2d input weight type kernelH kernelW strideH strideW padding activation
  | .activation input type inPlace => m.getOrCreateActivation input type inPlace
  | .reshape input shape => m.getOrCreateReshape input shape
  | .transpose input perm shuffle => m.getOrCreateTranspose input perm shuffle

def call (m : Model) : ModelCall → Except PyError (Op × Model)
  | .input input => .ok (m.createInput input)
  | .weight weight => m.createWeight weight
  | .binary r => m.request r
  | .unary c => m.issue c

/-- The model after a run of calls; one that raises has stored nothing. -/
def afterCalls (m : Model) (calls : List ModelCall) : Model :=
  calls.foldl (fun m c => match m.call c with | .ok (_, m') => m' | .error _ => m) m

def unaryTable (m : Model) : UnaryKind → OpTable
  | .pool2d => m.pool2d
  | .activation => m.activation
  | .reshape => m.reshape
  | .transpose => []

/-! ## One call -/

/-- What a call for a unary operator that returns has done. -/
structure IssuedBy (m : Model) (c : UnaryCall) (p : OpBase) (op : Op) (m' : Model) : Prop where
  ptr : op = ⟨m.global_unique_id, some p⟩
  found : (lookupKey (m.unaryTable c.kind) c.key = some p ∧
      m'.unaryTable c.kind = m.unaryTable c.kind) ∨
    (c.construct m.nextAddr = .ok p ∧ (m'.unaryTable c.kind = (c.key, p) :: m.unaryTable c.kind ∨
      m'.unaryTable c.kind = m.unaryTable c.kind))
  others : ∀ k, k ≠ c.kind → m'.unaryTable k = m.unaryTable k
  binary : ∀ k, m'.table k = m.table k

theorem issue_cases {m m' : Model} {c : UnaryCall} {op : Op} (h : m.issue c = .ok (op, m')) :
    ∃ p, IssuedBy m c p op m' := by
  have hfound : ∀ {table' : OpTable} {p : OpBase},
      lookupOrBuild (m.unaryTable c.kind) c.key (c.construct m.nextAddr) = .ok (p, table') →
      m'.unaryTable c.kind = table' →
      (lookupKey (m.unaryTable c.kind) c.key = some p ∧
          m'.unaryTable c.kind = m.unaryTable c.kind) ∨
        (c.construct m.nextAddr = .ok p ∧
          (m'.unaryTable c.kind = (c.key, p) :: m.unaryTable c.kind ∨
            m'.unaryTable c.kind = m.unaryTable c.kind)) := by
    intro table' p hlook htable
    rcases lookupOrBuild_cases hlook with ⟨hhit, heq⟩ | ⟨hbuild, heq⟩
    · exact .inl ⟨hhit, htable.trans heq⟩
    · exact .inr ⟨hbuild, .inl (htable.trans heq)⟩
  cases c with
  | pool2d =>
    simp only [issue, getOrCreatePool2d, bind_ok_iff] at h
    obtain ⟨⟨p, table'⟩, hlook, hret⟩ := h
    cases hret
    refine ⟨p, rfl, hfound hlook rfl, fun k hk => ?_, fun k => ?_⟩
    · cases k <;> first | rfl | exact absurd rfl hk
    · cases k <;> rfl
  | activation =>
    simp only [issue, getOrCreateActivation, bind_ok_iff] at h
    obtain ⟨⟨p, table'⟩, hlook, hret⟩ := h
    cases hret
    refine ⟨p, rfl, hfound hlook rfl, fun k hk => ?_, fun k => ?_⟩
    · cases k <;> first | rfl | exact absurd rfl hk
    · cases k <;> rfl
  | reshape =>
    simp only [issue, getOrCreateReshape, bind_ok_iff] at h
    obtain ⟨⟨p, table'⟩, hlook, hret⟩ := h
    cases hret
    refine ⟨p, rfl, hfound hlook rfl, fun k hk => ?_, fun k => ?_⟩
    · cases k <;> first | rfl | exact absurd rfl hk
    · cases k <;> rfl
  | transpose =>
    simp only [issue, getOrCreateTranspose, bind_ok_iff] at h
    obtain ⟨-, -, p, hbuild, hret⟩ := h
    cases hret
    exact ⟨p, rfl, .inr ⟨hbuild, .inr rfl⟩, fun _ _ => rfl, fun k => by cases k <;> rfl⟩

end Model

/-! ## What equal keys say -/

/-- The parameters and the layout of the operand can be read off the key of a unary operator. -/
theorem unaryKey_inj {lead lead' : List KeyCell} {length : Nat} {t u : Tensor}
    (hlead : lead.length = lead'.length) (hroom : lead.length + 2 + 2 * MAX_DIM ≤ length)
    (h : unaryKey lead length t = unaryKey lead' length u) : lead = lead' ∧ t.SameLayout u := by
  have hcell : ∀ (cells : List KeyCell) (v : Tensor) (j : Nat), j < cells.length →
      (unaryKey cells length v)[j]? = cells[j]? := by
    intro cells v j hj
    rw [unaryKey, Tensor.getElem?_serialize_lt _ _ hj, keyCells, List.getElem?_append_left hj]
  refine ⟨List.ext_getElem? fun j => ?_, ?_⟩
  · rcases Nat.lt_or_ge j lead.length with hj | hj
    · rw [← hcell lead t j hj, ← hcell lead' u j (hlead ▸ hj), h]
    · rw [List.getElem?_eq_none hj, List.getElem?_eq_none (hlead ▸ hj)]
  · unfold unaryKey at h
    rw [← hlead] at h
    refine Tensor.shape_eq_of_serialize_eq ?_ ?_ h
    · simp only [keyCells, List.length_append, List.length_replicate]
      omega
    · simp only [keyCells, List.length_append, List.length_replicate]
      omega

theorem reshapeKey_head (t : Tensor) (shape : List Int) :
    (reshapeKey t shape)[0]? = some (.int shape.length) := by
  rw [reshapeKey, Tensor.getElem?_serialize_lt _ _ (by omega)]
  exact getElem?_writeAt_mid (k := 0) _ _ (by simp) (by simp)

/-- The length of a shape stands in front of it, so a shape is told from a longer one. -/
theorem reshapeKey_inj {t u : Tensor} {shape shape' : List Int} (hshape : shape.length ≤ MAX_DIM)
    (h : reshapeKey t shape = reshapeKey u shape') : shape = shape' ∧ t.SameLayout u := by
  have hlen : shape.length = shape'.length := by
    have hhead := reshapeKey_head t shape
    rw [h, reshapeKey_head, Option.some.injEq, KeyCell.int.injEq] at hhead
    omega
  have hkey : ∀ (v : Tensor) (s : List Int), s.length ≤ MAX_DIM → reshapeKey v s =
      unaryKey (.int s.length :: s.map .int) (Tensor.MAX_KEY_LENGTH + MAX_DIM + 1) v := by
    intro v s hs
    rw [reshapeKey, writeAt_replicate _ _ _ (by simp; omega), unaryKey, keyCells]
    simp only [List.length_cons, List.length_map, Nat.add_comm]
  rw [hkey t shape hshape, hkey u shape' (hlen ▸ hshape)] at h
  obtain ⟨hcells, hlayout⟩ := unaryKey_inj (by simp [hlen]) (by
    simp only [List.length_cons, List.length_map, Tensor.MAX_KEY_LENGTH, MAX_NUM_SPLITS]
    omega) h
  rw [List.cons.injEq] at hcells
  exact ⟨List.map_injective_iff.mpr (fun a b hab => KeyCell.int.inj hab) hcells.2, hlayout⟩

/-! ## Bodies built from operands of one layout -/

theorem Tensor.SameLayout.volume {t u : Tensor} (h : t.SameLayout u) : t.volume = u.volume := by
  unfold Tensor.volume
  rw [← h.1]
  refine List.foldl_ext _ _ _ fun acc i hi => ?_
  rw [(h.2 i (List.mem_range.mp hi)).1]

/-- Equal type, parameters and layout of the output. -/
structure OpBase.Agrees (p q : OpBase) : Prop where
  type : p.type = q.type
  params : p.params = q.params
  output : p.output.SameLayout q.output

theorem OpBase.agrees_of_sameOp {p q : OpBase} (h : p.sameOp q = true) : p.Agrees q := by
  obtain ⟨htype, hparams, hn, hd, hs⟩ := (p.sameOp_iff q).mp h
  refine ⟨htype, hparams, hn, fun i _ => ?_⟩
  unfold Tensor.dimAt Tensor.strideAt
  rw [hd, hs]
  exact ⟨rfl, rfl⟩

theorem mkPool2D_congr {addr : Nat × Nat} (addr' : Nat × Nat) {input input' weight : Tensor}
    (weight' : Tensor) {type : OpType} {kernelH kernelW strideH strideW : Int} {padding : PaddingMode}
    {activation : ActiMode} {p : OpBase} (hinput : input.SameLayout input')
    (h : mkPool2D addr input weight type kernelH kernelW strideH strideW padding activation =
      .ok p) :
    ∃ q, mkPool2D addr' input' weight' type kernelH kernelW strideH strideW padding activation =
      .ok q ∧ p.sameOp q = true := by
  simp only [mkPool2D, bind_ok_iff, pyAssert_eq_ok, exists_const] at h
  obtain ⟨htype, hfour, oh, hoh, ow, how, hp⟩ := h
  have hn := hinput.1
  have e0 := hinput.dimAt (i := 0) (by omega) (by omega)
  have e1 := hinput.dimAt (i := 1) (by omega) (by omega)
  have e2 := hinput.dimAt (i := 2) (by omega) (by omega)
  have e3 := hinput.dimAt (i := 3) (by omega) (by omega)
  refine ⟨{ addr := addr', type,
            params := .pool2d kernelH kernelW strideH strideW padding activation,
            inputs := [input', weight'],
            outputs := [output4d (input.dimAt 0) (input.dimAt 1) oh ow (input'.splitAt 0)
              (input'.splitAt 1) SplitInfo.noSplit SplitInfo.noSplit] }, ?_, ?_⟩
  · simp only [mkPool2D, bind_ok_iff, pyAssert_eq_ok, exists_const, ← e0, ← e1, ← e2, ← e3]
    exact ⟨htype, by omega, oh, hoh, ow, how, rfl⟩
  · cases hp
    rw [OpBase.sameOp_iff]
    exact ⟨rfl, rfl, rfl, rfl, rfl⟩

theorem mkReshape_congr {addr : Nat × Nat} (addr' : Nat × Nat) {input input' : Tensor} {shape : List Int}
    {p : OpBase} (hinput : input.SameLayout input') (h : mkReshape addr input shape = .ok p) :
    ∃ q, mkReshape addr' input' shape = .ok q ∧ p.sameOp q = true := by
  unfold mkReshape at h ⊢
  split at h
  · next hlen =>
    simp only [bind_ok_iff, pyAssert_eq_ok, exists_const] at h
    obtain ⟨hvol, hp⟩ := h
    rw [dif_pos hlen]
    simp only [bind_ok_iff, pyAssert_eq_ok, exists_const]
    refine ⟨_, ⟨by rw [← hinput.volume]; exact hvol, rfl⟩, ?_⟩
    cases hp
    rw [OpBase.sameOp_iff]
    exact ⟨rfl, rfl, rfl, rfl, rfl⟩
  · cases h

theorem mkReshape_length {addr : Nat × Nat} {input : Tensor} {shape : List Int} {p : OpBase}
    (h : mkReshape addr input shape = .ok p) : shape.length ≤ MAX_DIM := by
  unfold mkReshape at h
  split at h
  · next hlen => exact hlen
  · cases h

/-- The cells of a tensor past its rank are as `Tensor()` leaves them. -/
def Tensor.Trimmed (t : Tensor) : Prop :=
  ∀ i < MAX_DIM, t.numDim ≤ i → t.dimAt (i : Nat) = 0 ∧ t.strideAt (i : Nat) = 0

instance (t : Tensor) : Decidable t.Trimmed := Nat.decidableBallLT _ _

/-- The lists of two trimmed tensors of one layout are the same. -/
theorem Tensor.SameLayout.lists {t u : Tensor} (h : t.SameLayout u) (ht : t.Trimmed)
    (hu : u.Trimmed) : t.dim = u.dim ∧ t.stride = u.stride := by
  have hcell : ∀ i < MAX_DIM, t.dimAt (i : Nat) = u.dimAt (i : Nat) ∧
      t.strideAt (i : Nat) = u.strideAt (i : Nat) := by
    intro i hi
    by_cases hlt : i < t.numDim
    · exact h.2 i hlt
    · obtain ⟨hd, hs⟩ := ht i hi (by omega)
      obtain ⟨hd', hs'⟩ := hu i hi (by rw [← h.1]; omega)
      exact ⟨hd.trans hd'.symm, hs.trans hs'.symm⟩
  refine ⟨Vector.ext fun i hi => ?_, Vector.ext fun i hi => ?_⟩
  · rw [← pyGet_natCast t.dim hi 0, ← pyGet_natCast u.dim hi 0]
    exact (hcell i hi).1
  · rw [← pyGet_natCast t.stride hi 0, ← pyGet_natCast u.stride hi 0]
    exact (hcell i hi).2

/-- **Calls with one key build agreeing bodies**, with the same lists if their operands have no
cells in use past the rank. -/
theorem UnaryCall.construct_congr {c c' : UnaryCall} {addr : Nat × Nat} {p : OpBase}
    (addr' : Nat × Nat) (hkind : c.kind = c'.kind) (hstored : c.kind ≠ .transpose)
    (hkey : c.key = c'.key) (h : c.construct addr = .ok p) :
    ∃ q, c'.construct addr' = .ok q ∧ p.Agrees q ∧
      (c.input.Trimmed → c'.input.Trimmed → p.sameOp q = true) := by
  have hsame : ∀ {q : OpBase}, c'.construct addr' = .ok q → p.sameOp q = true →
      ∃ q, c'.construct addr' = .ok q ∧ p.Agrees q ∧
        (c.input.Trimmed → c'.input.Trimmed → p.sameOp q = true) := by
    intro q hq hpq
    exact ⟨q, hq, OpBase.agrees_of_sameOp hpq, fun _ _ => hpq⟩
  cases c with
  | pool2d input weight type kernelH kernelW strideH strideW padding acti =>
    cases c' with
    | pool2d input' weight' =>
      simp only [key, pool2DKey] at hkey
      obtain ⟨hlead, hlayout⟩ := unaryKey_inj (by rfl)
        (show 7 + 2 + 2 * MAX_DIM ≤ Tensor.MAX_KEY_LENGTH + 7 by decide) hkey
      simp only [List.cons.injEq, KeyCell.int.injEq, KeyCell.padding.injEq, KeyCell.acti.injEq,
        KeyCell.opType.injEq, and_true] at hlead
      obtain ⟨rfl, rfl, rfl, rfl, rfl, rfl, rfl⟩ := hlead
      obtain ⟨q, hq, hpq⟩ := mkPool2D_congr addr' weight' hlayout h
      exact hsame hq hpq
    | activation | reshape | transpose => exact absurd hkind (by simp [kind])
  | activation input type inPlace =>
    cases c' with
    | activation input' type' inPlace' =>
      simp only [key, activationKey] at hkey
      obtain ⟨hlead, hlayout⟩ := unaryKey_inj (by rfl)
        (show 2 + 2 + 2 * MAX_DIM ≤ Tensor.MAX_KEY_LENGTH + 2 by decide) hkey
      simp only [List.cons.injEq, KeyCell.int.injEq, KeyCell.opType.injEq, and_true] at hlead
      obtain ⟨rfl, hplace⟩ := hlead
      have hplace : inPlace = inPlace' := by
        cases inPlace <;> cases inPlace' <;> first | rfl | exact absurd hplace (by decide)
      subst hplace
      cases h
      refine ⟨_, rfl, ⟨rfl, rfl, hlayout⟩, fun ht ht' => ?_⟩
      -- the output is the operand itself, with all its cells
      obtain ⟨hd, hs⟩ := hlayout.lists ht ht'
      rw [OpBase.sameOp_iff]
      exact ⟨rfl, rfl, hlayout.1, hd, hs⟩
    | pool2d | reshape | transpose => exact absurd hkind (by simp [kind])
  | reshape input shape =>
    cases c' with
    | reshape input' shape' =>
      obtain ⟨rfl, hlayout⟩ := reshapeKey_inj (mkReshape_length h) hkey
      obtain ⟨q, hq, hpq⟩ := mkReshape_congr addr' hlayout h
      exact hsame hq hpq
    | pool2d | activation | transpose => exact absurd hkind (by simp [kind])
  | transpose => exact absurd rfl hstored

/-! ## Runs -/

namespace Model

/-- Every table holds only bodies built for calls of its kind that were made before. -/
structure Honest (made : List ModelCall) (m : Model) : Prop where
  binary : m.Traces (made.filterMap ModelCall.request?)
  unary : ∀ k, Built UnaryCall.key (fun c p => c.kind = k ∧ ∃ addr, c.construct addr = .ok p)
    (made.filterMap ModelCall.unary?) (m.unaryTable k)

theorem honest_new (tag : Nat) : (Model.new tag).Honest [] :=
  ⟨traces_new tag, fun k => by cases k <;> exact Built.nil _ _ _⟩

theorem Honest.more {made : List ModelCall} {m : Model} (h : m.Honest made) (c : ModelCall) :
    m.Honest (made ++ [c]) := by
  have hsub : made ⊆ made ++ [c] := List.subset_append_left _ _
  exact ⟨fun k => (h.binary k).mono (List.filterMap_subset _ hsub),
    fun k => (h.unary k).mono (List.filterMap_subset _ hsub)⟩

/-- A call that leaves the tables alone. -/
theorem Honest.of_tables {made : List ModelCall} {m m' : Model} (h : m.Honest made)
    (hbinary : ∀ k, m'.table k = m.table k) (hunary : ∀ k, m'.unaryTable k = m.unaryTable k) :
    m'.Honest made := by
  refine ⟨fun k => ?_, fun k => ?_⟩
  · rw [hbinary k]
    exact h.binary k
  · rw [hunary k]
    exact h.unary k

theorem request_unaryTable {m m' : Model} {r : Request} {op : Op}
    (h : m.request r = .ok (op, m')) (k : UnaryKind) : m'.unaryTable k = m.unaryTable k := by
  cases r with
  | conv2d =>
    simp only [request, getOrCreateConv2d, bind_ok_iff] at h
    obtain ⟨r, -, h⟩ := h
    split at h
    · cases h
      rfl
    · simp only [bind_ok_iff] at h
      obtain ⟨key, -, ⟨p, table'⟩, -, hret⟩ := h
      cases hret
      cases k <;> rfl
  | element =>
    simp only [request, getOrCreateElement] at h
    split at h
    · cases h
      rfl
    · simp only [bind_ok_iff] at h
      obtain ⟨⟨p, table'⟩, -, hret⟩ := h
      cases hret
      cases k <;> rfl
  | matmul =>
    simp only [request, getOrCreateMatmul] at h
    split at h
    · cases h
      rfl
    · simp only [bind_ok_iff] at h
      obtain ⟨key, -, ⟨p, table'⟩, -, hret⟩ := h
      cases hret
      cases k <;> rfl

/-- **One call** keeps the tables honest. -/
theorem call_honest {made : List ModelCall} {m m' : Model} {c : ModelCall} {op : Op}
    (hm : m.Honest made) (h : m.call c = .ok (op, m')) : m'.Honest (made ++ [c]) := by
  have hmore := hm.more c
  cases c with
  | input t =>
    cases h
    exact hmore.of_tables (fun k => by cases k <;> rfl) fun k => by cases k <;> rfl
  | weight t =>
    simp only [call, createWeight] at h
    split at h
    · cases h
    · cases h
      exact hmore.of_tables (fun k => by cases k <;> rfl) fun k => by cases k <;> rfl
  | binary r =>
    refine ⟨?_, fun k => ?_⟩
    · rw [List.filterMap_append]
      exact (request_traces hm.binary h).1
    · rw [request_unaryTable h k]
      exact hmore.unary k
  | unary c =>
    obtain ⟨p, hissued⟩ := issue_cases h
    refine ⟨fun k => ?_, fun k => ?_⟩
    · rw [hissued.binary k]
      exact hmore.binary k
    · by_cases hk : k = c.kind
      · subst hk
        rcases hissued.found with ⟨-, hsame⟩ | ⟨hbuild, hnew | hsame⟩
        · rw [hsame]
          exact hmore.unary c.kind
        · rw [hnew]
          exact (hmore.unary c.kind).insert (by simp [ModelCall.unary?]) ⟨rfl, _, hbuild⟩
        · rw [hsame]
          exact hmore.unary c.kind
      · rw [hissued.others k hk]
        exact hmore.unary k

/-- **A run of calls** keeps them honest. -/
theorem honest_after (tag : Nat) (calls : List ModelCall) :
    ((Model.new tag).afterCalls calls).Honest calls := by
  induction calls using List.reverseRecOn with
  | nil => exact honest_new tag
  | append_singleton calls c ih =>
    simp only [afterCalls, List.foldl_append, List.foldl_cons, List.foldl_nil] at ih ⊢
    split
    · next op m' hcall => exact call_honest ih hcall
    · exact ih.more c

/-- In an honest model, what a call for a unary operator returns. -/
theorem Honest.issue {made : List ModelCall} {m m' : Model} {c : UnaryCall} {op : Op}
    (hm : m.Honest made) (h : m.issue c = .ok (op, m')) :
    ∃ p q, op = ⟨m.global_unique_id, some p⟩ ∧ c.construct m.nextAddr = .ok q ∧ p.Agrees q ∧
      (c.input.Trimmed → (∀ c', ModelCall.unary c' ∈ made → c'.input.Trimmed) →
        p.sameOp q = true) := by
  obtain ⟨p, hissued⟩ := issue_cases h
  rcases hissued.found with ⟨hhit, -⟩ | ⟨hbuild, -⟩
  · -- the body was built for an earlier call with this key
    obtain ⟨c', hmade, hkey, hkind, addr, hbuild⟩ := (hm.unary c.kind).of_hit hhit
    have hstored : c'.kind ≠ .transpose := by
      intro htranspose
      rw [← hkind, htranspose] at hhit
      cases hhit
    obtain ⟨q, hq, hagrees, hsame⟩ :=
      UnaryCall.construct_congr m.nextAddr hkind hstored hkey hbuild
    refine ⟨p, q, hissued.ptr, hq, hagrees, fun ht hmade' => hsame (hmade' c' ?_) ht⟩
    obtain ⟨call, hcall, heq⟩ := List.mem_filterMap.mp hmade
    cases call with
    | unary c'' =>
      cases heq
      exact hcall
    | input | weight | binary => cases heq
  · have hself : p.sameOp p = true := by
      rw [OpBase.sameOp_iff]
      exact ⟨rfl, rfl, rfl, rfl, rfl⟩
    exact ⟨p, p, hissued.ptr, hbuild, OpBase.agrees_of_sameOp hself, fun _ _ => hself⟩

end Model

/-- **The tables of poolings, activations, reshapes and transpositions are transparent**: whatever
was called before, an operator that a call returns has the type, the parameters and the output
layout of the one its own arguments build. -/
theorem issue_transparent (tag : Nat) (before : List ModelCall) (c : UnaryCall) (op : Op)
    (m' : Model) (h : ((Model.new tag).afterCalls before).issue c = .ok (op, m')) :
    ∃ p q, op.ptr = some p ∧
      c.construct ((Model.new tag).afterCalls before).nextAddr = .ok q ∧
      p.type = q.type ∧ p.params = q.params ∧ p.output.SameLayout q.output ∧
      (c.input.Trimmed → (∀ c', ModelCall.unary c' ∈ before → c'.input.Trimmed) →
        p.output.dim = q.output.dim ∧ p.output.stride = q.output.stride) := by
  obtain ⟨p, q, rfl, hq, hagrees, hsame⟩ := (Model.honest_after tag before).issue h
  refine ⟨p, q, rfl, hq, hagrees.type, hagrees.params, hagrees.output, fun ht hbefore => ?_⟩
  exact ((p.sameOp_iff q).mp (hsame ht hbefore)).2.2.2

/-- A `Relu` of an image of 64 channels. -/
def wideRelu : UnaryCall := .activation (plain4d 1 64 32 32) .OP_RELU false

theorem wideRelu_again_transparent :
    ∃ op m' p q, ((Model.new 0).afterCalls [.unary wideRelu]).issue wideRelu = .ok (op, m') ∧
      op.ptr = some p ∧
      wideRelu.construct ((Model.new 0).afterCalls [.unary wideRelu]).nextAddr = .ok q ∧
      p.type = q.type ∧ p.params = q.params ∧ p.output.dim = q.output.dim ∧
      p.output.stride = q.output.stride := by
  have hok : (((Model.new 0).afterCalls [.unary wideRelu]).issue wideRelu).toOption.isSome = true := by
    decide +kernel
  obtain ⟨out, hout⟩ := Option.isSome_iff_exists.mp hok
  have hcall := toOption_eq_some.mp hout
  obtain ⟨p, q, hp, hq, htype, hparams, -, hlists⟩ :=
    issue_transparent 0 [.unary wideRelu] wideRelu out.1 out.2 hcall
  have htrimmed : wideRelu.input.Trimmed := by decide
  obtain ⟨hd, hs⟩ := hlists htrimmed fun c' hc' => by
    rw [ModelCall.unary.inj (List.mem_singleton.mp hc')]
    exact htrimmed
  exact ⟨out.1, out.2, p, q, hcall, hp, hq, htype, hparams, hd, hs⟩

end Peps
