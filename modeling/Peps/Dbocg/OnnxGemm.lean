import Mathlib.Tactic.Linarith
import Peps.Dbocg.Additions
import Peps.Dbocg.NudfMeaning
import Peps.Dbocg.OnnxConv

/-!
# General matrix products of an ONNX file

A `Gemm` node stands for `alpha * A' * B' + beta * C`, where `A'` and `B'` are `A` and `B` or their
transposes and `C`, if it is there, is spread over the result. `_gemm` of `nudf.py` makes of it up to two
transpositions, a product and a sum; the attributes `alpha` and `beta` are not read.

The operators compute what the node stands for exactly when neither of the two makes a difference
(`gemm_computes_iff`).
-/

namespace Peps

open Lib

namespace Onnx

/-! ## `_gemm` -/

/-- The attributes of a `Gemm` node, as `parse_attribute` finds them. -/
structure GemmAttributes (R : Type) where
  alpha : Option R
  beta : Option R
  transA : Option Int
  transB : Option Int

/-- `inputs[i]`. -/
def inputAt (inputs : List Handle) (i : Nat) : Except PyError Handle :=
  inputs[i]?.elim (.error .indexError) .ok

/-- `inputs[i] = graph.transpose(inputs[i], (1,0), _shuffle=True)`, if the attribute is there and 1. -/
def transposeInput (flag : Option Int) (i : Nat) (inputs : List Handle) (m : Model) (g : Graph) :
    Except PyError (List Handle × Model × Graph) :=
  if flag = some 1 then do
    let input ← inputAt inputs i
    let (t, m, g) ← g.transpose m input [1, 0] true
    return (inputs.set i t, m, g)
  else .ok (inputs, m, g)

section

variable {R : Type}

/-- `_gemm` up to the call of `graph.matmul`, with the inputs as they are then. -/
def gemmProduct (attrs : GemmAttributes R) (inputs : List Handle) (m : Model) (g : Graph) :
    Except PyError (List Handle × Handle × Model × Graph) := do
  let (inputs, m, g) ← transposeInput attrs.transA 0 inputs m g
  let (inputs, m, g) ← transposeInput attrs.transB 1 inputs m g
  let input ← inputAt inputs 0
  let weight ← inputAt inputs 1
  let (outputs, m, g) ← g.matmul m input weight .AC_MODE_NONE
  return (inputs, outputs, m, g)

/-- `_gemm` after the call of `get_inputs`. -/
def gemmOn (attrs : GemmAttributes R) (inputs : List Handle) (m : Model) (g : Graph) :
    Except PyError (Handle × Model × Graph) := do
  let (inputs, outputs, m, g) ← gemmProduct attrs inputs m g
  if 2 < inputs.length then do
    let bias ← inputAt inputs 2
    g.element m .OP_EW_ADD outputs bias
  else return (outputs, m, g)

/-- `_gemm`. -/
def gemm (tensors : String → Option Handle) (initializer : List Initializer) (node : NodeProto)
    (attrs : GemmAttributes R) (m : Model) (g : Graph) :
    Except LoadError (Handle × Model × Graph) := do
  let (inputs, m, g) ← getInputs tensors initializer m g node.input
  calling (gemmOn attrs inputs m g)

end

end Onnx

/-! ## The builders of `_gemm` -/

namespace Building

variable {m m1 m' : Model} {g g' : Graph} {op : Op} {a b : Handle}

theorem owns_pair (ha : g.Owns a) (hb : g.Owns b) : ∀ t ∈ [a, b], g.Owns t := by
  intro t ht
  rcases List.mem_cons.mp ht with rfl | ht
  · exact ha
  · rw [List.mem_singleton.mp ht]
    exact hb

/-- A transposition of a matrix. -/
theorem transpose (st : Building m g) (ha : g.Owns a) (hnum : a.tensor.numDim = 2) :
    ∃ op p m' g' permIdx, g.transpose m a [1, 0] true = .ok (Handle.ofOp op, m', g') ∧
      Building m' g' ∧ g.Adds op [a] g' ∧ op.numInputs = 1 ∧ op.ptr = some p ∧
      mkTranspose m.nextAddr a.tensor [1, 0] true = .ok p ∧ m'.matmul = m.matmul ∧
      p.type = .OP_TRANSPOSE ∧ p.params = .transpose permIdx true ∧
      (permutationToIndex [1, 0]).toOption = some permIdx ∧ p.inputAt 0 = a.tensor ∧
      p.output.dims = [a.tensor.dimAt 1, a.tensor.dimAt 0] := by
  obtain ⟨permIdx, hperm⟩ : ∃ permIdx, permutationToIndex [1, 0] = .ok permIdx := ⟨_, rfl⟩
  obtain ⟨p, hp, htype, hparams, hinputs, hdims⟩ := mkTranspose_ok m.nextAddr hperm hnum
  have hreq : m.getOrCreateTranspose a.tensor [1, 0] true = .ok (m.wrap p) := by
    rw [Model.getOrCreateTranspose, hperm]
    show (mkTranspose m.nextAddr a.tensor [1, 0] true >>= _) = _
    rw [hp]
    rfl
  obtain ⟨g', hbuild, hst, hadds, hnumInputs⟩ := st.build [a]
    (Model.transpose_issued st.sound hreq)
    (st.adding.issue (c := .transpose a.tensor [1, 0] true) hreq) (fun p hp => hp) (Or.inl rfl)
    fun t ht => List.mem_singleton.mp ht ▸ ha
  refine ⟨_, p, _, g', permIdx, ?_, hst, hadds, hnumInputs, rfl, hp, rfl, htype, hparams, ?_, ?_,
    hdims⟩
  · rw [Graph.transpose, hreq]
    exact hbuild
  · rw [hperm]
    rfl
  · rw [OpBase.inputAt, hinputs]
    rfl

/-- The body of a product is stored under its key, or new. -/
theorem matmul_body (st : Building m g) {input weight : Tensor} {p : OpBase} {table : OpTable}
    (hcompat : Model.matmulCompatible input weight = true) (htwo : 2 ≤ input.numDim)
    (hlook : lookupOrBuild m.matmul (Request.matmul input weight .AC_MODE_NONE).key
      (mkMatmul m.nextAddr input weight .AC_MODE_NONE) = .ok (p, table)) :
    p.type = .OP_MATMUL ∧ p.params = .matmul .AC_MODE_NONE ∧
      p.output = (lookupKey m.matmul (Request.matmul input weight .AC_MODE_NONE).key).elim
        (matmulOutput input weight) OpBase.output := by
  cases hstored : lookupKey m.matmul (Request.matmul input weight .AC_MODE_NONE).key with
  | some q =>
    rw [lookupOrBuild, hstored] at hlook
    cases hlook
    -- it was built for a request with the same activation
    obtain ⟨made, htraces, -⟩ := st.adding
    obtain ⟨r, -, hkey, hkind, addr, hbuild⟩ := (htraces .matmul).of_hit hstored
    have hlead := @Request.lead_eq_of_key_eq r (.matmul input weight .AC_MODE_NONE) hkind hkey
    cases r with
    | matmul input' weight' acti =>
      have hacti : acti = .AC_MODE_NONE := by
        simp only [Request.lead, List.cons.injEq, KeyCell.int.injEq, and_true] at hlead
        revert hlead
        cases acti <;> decide
      simp only [Request.construct, mkMatmul, bind_ok_iff] at hbuild
      obtain ⟨_, _, _, _, _, _, _, _, hp⟩ := hbuild
      cases hp
      exact ⟨rfl, by rw [hacti], rfl⟩
    | conv2d | element => exact absurd hkind (by simp [Request.kind])
  | none =>
    rcases lookupOrBuild_cases hlook with ⟨hhit, -⟩ | ⟨hbuild, -⟩
    · rw [hstored] at hhit
      cases hhit
    · rw [mkMatmul_ok hcompat htwo] at hbuild
      cases hbuild
      exact ⟨rfl, rfl, rfl⟩

/-- A product of matrices. -/
theorem matmul (st : Building m g) (ha : g.Owns a) (hb : g.Owns b)
    (hcompat : Model.matmulCompatible a.tensor b.tensor = true) (htwo : 2 ≤ a.tensor.numDim) :
    ∃ op p m' g', g.matmul m a b .AC_MODE_NONE = .ok (Handle.ofOp op, m', g') ∧ Building m' g' ∧
      g.Adds op [a, b] g' ∧ op.numInputs = 2 ∧ op.ptr = some p ∧ p.type = .OP_MATMUL ∧
      p.params = .matmul .AC_MODE_NONE ∧
      p.output = (lookupKey m.matmul (Request.matmul a.tensor b.tensor .AC_MODE_NONE).key).elim
        (matmulOutput a.tensor b.tensor) OpBase.output := by
  have honly : (Request.matmul a.tensor b.tensor .AC_MODE_NONE).OnlyAdds := fun h => by cases h
  obtain ⟨⟨op, m1⟩, hreq⟩ := Model.request_ok_of_construct
    (r := .matmul a.tensor b.tensor .AC_MODE_NONE) (mkMatmul_ok hcompat htwo m.nextAddr .AC_MODE_NONE) (st.adding.comparable honly)
  have hadding := st.adding.request honly hreq
  replace hreq : m.getOrCreateMatmul a.tensor b.tensor .AC_MODE_NONE = .ok (op, m1) := hreq
  have hrun := hreq
  simp only [Model.getOrCreateMatmul, hcompat, Bool.true_eq_false, if_false, matmulKey,
    bind_ok_iff] at hreq
  obtain ⟨key, ⟨-, -, hkey⟩, ⟨p, table⟩, hlook, hret⟩ := hreq
  cases hkey
  obtain ⟨htype, hparams, hout⟩ := st.matmul_body hcompat htwo hlook
  have hptr : op.ptr = some p := by
    cases Except.ok.inj hret
    rfl
  have hvalid : op ≠ Op.invalid := fun h => by
    rw [h] at hptr
    cases hptr
  obtain ⟨g', hbuild, hst, hadds, hnum⟩ := st.build [a, b]
    ((Model.matmul_issued st.sound hrun).resolve_left fun h => hvalid h.1) hadding (fun p hp => hp) (Or.inr rfl) (owns_pair ha hb)
  refine ⟨op, p, m1, g', ?_, hst, hadds, hnum, hptr, htype, hparams, hout⟩
  rw [Graph.matmul, hrun]
  show (pyAssert (op ≠ Op.invalid) >>= _) = _
  rw [pyAssert_of hvalid]
  exact hbuild

/-- A sum of tensors that go together. -/
theorem element (st : Building m g) (ha : g.Owns a) (hb : g.Owns b)
    (hbroad : Model.broadcastable a.tensor b.tensor = true) :
    ∃ op p m' g', g.element m .OP_EW_ADD a b = .ok (Handle.ofOp op, m', g') ∧ Building m' g' ∧
      g.Adds op [a, b] g' ∧ op.numInputs = 2 ∧ op.ptr = some p ∧ p.type = .OP_EW_ADD := by
  have honly : (Request.element .OP_EW_ADD a.tensor b.tensor).OnlyAdds := fun _ => rfl
  obtain ⟨⟨op, m1⟩, hreq⟩ := Model.request_ok_of_construct (p := mkElement m.nextAddr .OP_EW_ADD
    a.tensor b.tensor) rfl (st.adding.comparable honly)
  have hadding := st.adding.request honly hreq
  replace hreq : m.getOrCreateElement .OP_EW_ADD a.tensor b.tensor = .ok (op, m1) := hreq
  have hissued : m.Issued (fun p => p.numInputs = 2 ∧ p.type = .OP_EW_ADD ∧ p.params = .none) op m1 := by
    refine (Model.element_issued st.sound hreq).resolve_left fun hop => ?_
    simp only [Model.getOrCreateElement, hbroad, Bool.true_eq_false, if_false, bind_ok_iff] at hreq
    obtain ⟨⟨p, table⟩, -, hret⟩ := hreq
    have hptr : op.ptr = some p := by
      cases Except.ok.inj hret
      rfl
    rw [hop.1] at hptr
    cases hptr
  obtain ⟨p, hop, -, htype, -⟩ := hissued.op
  obtain ⟨g', hbuild, hst, hadds, hnum⟩ := st.build [a, b] hissued hadding
    (fun p hp => hp.1) (Or.inr rfl) (owns_pair ha hb)
  refine ⟨op, p, m1, g', ?_, hst, hadds, hnum, by rw [hop], htype⟩
  rw [Graph.element, pyAssert_of hbroad]
  show (m.getOrCreateElement .OP_EW_ADD a.tensor b.tensor >>= _) = _
  rw [hreq]
  exact hbuild

end Building

/-! ## What the node stands for -/

namespace Onnx

section Operands

/-- The tensor of a transposed matrix. -/
def transposed (t : Tensor) : Tensor :=
  ((mkTranspose (0, 0) t [1, 0] true).toOption.map OpBase.output).getD t

/-- The tensor of an operand, transposed if the flag is set. -/
def opTensor (flag : Option Int) (t : Tensor) : Tensor := if flag = some 1 then transposed t else t

/-- A shape that can be spread over `rows` and `cols`. -/
def Spreads (dims : List Int) (M N : Nat) : Prop :=
  ∃ rows cols : Nat, (rows = 1 ∨ rows = M) ∧ (cols = 1 ∨ cols = N) ∧
    (dims = [(rows : Int), (cols : Int)] ∨ rows = 1 ∧ dims = [(cols : Int)] ∨
      rows = 1 ∧ cols = 1 ∧ dims = [])

/-- Matrices of sizes M×K and K×N, or transposed, and at most one more tensor, which can be spread
over the result. -/
structure GemmOperands {R : Type} (attrs : GemmAttributes R) (M K N : Nat) (a b : Handle)
    (rest : List Handle) : Prop where
  flagA : attrs.transA = none ∨ attrs.transA = some 0 ∨ attrs.transA = some 1
  flagB : attrs.transB = none ∨ attrs.transB = some 0 ∨ attrs.transB = some 1
  left : a.tensor.dims = if attrs.transA = some 1 then [(K : Int), (M : Int)] else [(M : Int), (K : Int)]
  right : b.tensor.dims =
    if attrs.transB = some 1 then [(N : Int), (K : Int)] else [(K : Int), (N : Int)]
  atMost : rest.length ≤ 1
  spreads : ∀ c ∈ rest, Spreads c.tensor.dims M N

end Operands

section Values

variable {R : Type} [Field R] [LinearOrder R]

/-- `val` gives the tensor an array of its own size. -/
def Sized (val : Op → Nat → Grid R) (t : Handle) : Prop :=
  (val t.op t.tensor.idx).rows = t.tensor.layout.1 ∧ (val t.op t.tensor.idx).cols = t.tensor.layout.2

/-- An operand, transposed if the flag is set. -/
def opGrid (flag : Option Int) (x : Grid R) : Grid R := if flag = some 1 then x.transpose else x

/-- Entry `(i, j)` of `alpha * A' * B' + beta * C`, where `K` is the number of columns of `A'`. -/
def gemmEntry (attrs : GemmAttributes R) (K : Nat) (x y : Grid R) (z : Option (Grid R)) (i j : Nat) :
    R :=
  attrs.alpha.getD 1 * ∑ k ∈ Finset.range K,
      (opGrid attrs.transA x).cell i k * (opGrid attrs.transB y).cell k j +
    z.elim 0 fun z => attrs.beta.getD 1 * z.spread i j

/-- What the operators that were added compute, entry by entry. -/
def ComputesGemm (attrs : GemmAttributes R) (M K N : Nat) (a b : Handle) (rest : List Handle)
    (g g' : Graph) (h : Handle) : Prop :=
  ∀ (net : Network R) (image : Grid R) (val : Op → Nat → Grid R),
    (∀ t ∈ a :: b :: rest, Sized val t) → (net.meaning image).Follows g g' val →
    ∀ i < M, ∀ j < N, (val h.op h.tensor.idx).cell i j =
      gemmEntry attrs K (val a.op a.tensor.idx) (val b.op b.tensor.idx)
        (rest.head?.map fun c => val c.op c.tensor.idx) i j

end Values

/-! ## Shapes -/

theorem mkTranspose_output {addr addr' : Nat × Nat} {t : Tensor} {perm : List Int} {shuffle : Bool}
    {p p' : OpBase} (h : mkTranspose addr t perm shuffle = .ok p)
    (h' : mkTranspose addr' t perm shuffle = .ok p') : p.output = p'.output := by
  simp only [mkTranspose, bind_ok_iff] at h h'
  obtain ⟨_, _, _, _, _, _, _, _, hp⟩ := h
  obtain ⟨_, _, _, _, _, _, _, _, hp'⟩ := h'
  cases hp
  cases hp'
  rfl

theorem output_eq_transposed {addr : Nat × Nat} {t : Tensor} {p : OpBase}
    (h : mkTranspose addr t [1, 0] true = .ok p) : p.output = transposed t := by
  have hnum : t.numDim = 2 := by
    simp only [mkTranspose, bind_ok_iff, pyAssert_eq_ok] at h
    obtain ⟨_, _, _, _, _, hnum, _⟩ := h
    exact hnum
  obtain ⟨permIdx, hperm⟩ : ∃ permIdx, permutationToIndex [1, 0] = .ok permIdx := ⟨_, rfl⟩
  obtain ⟨p', hp', -⟩ := mkTranspose_ok (0, 0) hperm hnum
  rw [transposed, hp']
  exact mkTranspose_output h hp'

theorem dims_pair {t : Tensor} {r c : Int} (h : t.dims = [r, c]) :
    t.numDim = 2 ∧ t.dimAt 0 = r ∧ t.dimAt 1 = c := by
  refine ⟨?_, ?_, ?_⟩
  · rw [← t.length_dims, h]
    rfl
  · exact t.dimAt_of_getElem? (i := 0) (by rw [h]; rfl)
  · exact t.dimAt_of_getElem? (i := 1) (by rw [h]; rfl)

theorem opTensor_dims {flag : Option Int} {t : Tensor} {r c : Int}
    (h : t.dims = if flag = some 1 then [c, r] else [r, c]) : (opTensor flag t).dims = [r, c] := by
  unfold opTensor
  split at h
  · next hflag =>
    obtain ⟨hnum, h0, h1⟩ := dims_pair h
    obtain ⟨permIdx, hperm⟩ : ∃ permIdx, permutationToIndex [1, 0] = .ok permIdx := ⟨_, rfl⟩
    obtain ⟨p, hp, -, -, -, hdims⟩ := mkTranspose_ok (0, 0) hperm hnum
    rw [if_pos hflag, ← output_eq_transposed hp, hdims]
    show [t.dimAt 1, t.dimAt 0] = _
    rw [h0, h1]
  · next hflag => rw [if_neg hflag, h]

theorem matmulOutput_dims {a b : Tensor} {M K K' N : Int} (ha : a.dims = [M, K])
    (hb : b.dims = [K', N]) : (matmulOutput a b).dims = [M, N] := by
  obtain ⟨hna, ha0, -⟩ := dims_pair ha
  obtain ⟨-, -, hb1⟩ := dims_pair hb
  have h0 := @pyGet_matmulDim a b (by omega) 0 (by decide)
  have h1 := @pyGet_matmulDim a b (by omega) 1 (by decide)
  rw [hna] at h0 h1
  rw [Tensor.dims, show (matmulOutput a b).numDim = 2 from hna]
  show [pyGet (matmulDim a b) ((0 : Nat) : Int) 0, pyGet (matmulDim a b) ((1 : Nat) : Int) 0] = _
  rw [h0, h1]
  show [a.dimAt 0, b.dimAt 1] = _
  rw [ha0, hb1]

theorem matmulCompatible_of_dims {a b : Tensor} {M K N : Int} (ha : a.dims = [M, K])
    (hb : b.dims = [K, N]) : Model.matmulCompatible a b = true := by
  obtain ⟨hna, -, ha1⟩ := dims_pair ha
  obtain ⟨hnb, hb0, -⟩ := dims_pair hb
  simp only [Model.matmulCompatible, Bool.and_eq_true, decide_eq_true_eq]
  refine ⟨⟨hna.trans hnb.symm, fun i hi => absurd hi (by omega)⟩, ?_⟩
  rw [hna, hnb]
  exact ha1.trans hb0.symm

/-- What spreads over a matrix goes with it. -/
theorem broadcastable_of_spreads {t c : Tensor} {M N : Nat} (ht : t.dims = [(M : Int), (N : Int)])
    (hc : Spreads c.dims M N) : Model.broadcastable t c = true := by
  rw [broadcastable_iff, ht]
  obtain ⟨rows, cols, hrows, hcols, hdims⟩ := hc
  have hcol : (N : Int) = cols ∨ (N : Int) = 1 ∨ (cols : Int) = 1 := by omega
  have hrow : (M : Int) = rows ∨ (M : Int) = 1 ∨ (rows : Int) = 1 := by omega
  rcases hdims with hdims | ⟨-, hdims⟩ | ⟨-, -, hdims⟩
  · rw [hdims]
    intro i hi
    rcases i with _ | _ | i
    · exact hcol
    · exact hrow
    · exact absurd hi (by simp)
  · rw [hdims]
    intro i hi
    rcases i with _ | i
    · exact hcol
    · exact absurd hi (by simp)
  · rw [hdims]
    intro i hi
    exact absurd hi (by simp)

theorem layout_pair {t : Tensor} {r c : Nat} (h : t.dims = [(r : Int), (c : Int)]) :
    t.layout = (r, c) := by
  rw [Tensor.layout, h]
  simp

theorem layout_of_spreads {t : Tensor} {M N : Nat} (h : Spreads t.dims M N) :
    (t.layout.1 = 1 ∨ t.layout.1 = M) ∧ (t.layout.2 = 1 ∨ t.layout.2 = N) := by
  obtain ⟨rows, cols, hrows, hcols, hdims | ⟨hone, hdims⟩ | ⟨hone, hone', hdims⟩⟩ := h
  · rw [layout_pair hdims]
    exact ⟨hrows, hcols⟩
  · rw [Tensor.layout, hdims]
    exact ⟨Or.inl rfl, by simpa using hcols⟩
  · rw [Tensor.layout, hdims]
    exact ⟨Or.inl rfl, Or.inl rfl⟩

/-! ## A run of `_gemm` -/

/-- What a part of `_gemm` leaves: some operators more. -/
structure Stage (g : Graph) (adds : List (Op × List Handle)) (m' : Model) (g' : Graph) : Prop where
  building : Building m' g'
  grows : g.Grows adds g'
  arity : ∀ x ∈ adds, x.1.numInputs = x.2.length

namespace Stage

variable {g g1 g' : Graph} {m m' : Model} {adds adds' : List (Op × List Handle)}

theorem refl (st : Building m g) : Stage g [] m g := ⟨st, .nil g, fun _ h => (by cases h)⟩

theorem of_adds {op : Op} {inputs : List Handle} (st : Building m' g') (h : g.Adds op inputs g')
    (hnum : op.numInputs = inputs.length) : Stage g [(op, inputs)] m' g' :=
  ⟨st, .single h, fun x hx => by rw [List.mem_singleton.mp hx]; exact hnum⟩

theorem append (h : Stage g adds m g1) (h' : Stage g1 adds' m' g') : Stage g (adds ++ adds') m' g' where
  building := h'.building
  grows := h.grows.append h'.grows
  arity := fun x hx => (List.mem_append.mp hx).elim (h.arity x) (h'.arity x)

theorem owns (h : Stage g adds m' g') {t : Handle} (ht : g.Owns t) : g'.Owns t :=
  ⟨(h.grows.mem_keys t.op).mpr (Or.inl ht.key), ht.own⟩

end Stage

section Runs

variable {R : Type} [Field R] [LinearOrder R] {m : Model} {g g' : Graph}

/-- The added operators are worth what their bodies make of their inputs. -/
def Obeys (net : Network R) (image : Grid R) (val : Op → Nat → Grid R)
    (adds : List (Op × List Handle)) : Prop :=
  ∀ x ∈ adds, val x.1 = (net.meaning image).value x.1 (Meaning.worth val x.2)

variable {net : Network R} {image : Grid R} {val : Op → Nat → Grid R}
  {adds adds' : List (Op × List Handle)}

theorem Obeys.left (h : Obeys net image val (adds ++ adds')) : Obeys net image val adds :=
  fun x hx => h x (List.mem_append_left _ hx)

theorem Obeys.right (h : Obeys net image val (adds ++ adds')) : Obeys net image val adds' :=
  fun x hx => h x (List.mem_append_right _ hx)

theorem Obeys.apply {op : Op} {p : OpBase} {inputs : List Handle}
    (h : Obeys net image val [(op, inputs)]) (hp : op.ptr = some p) (i : Nat) :
    val op i = net.apply image p (Meaning.worth val inputs) := by
  rw [h (op, inputs) (List.mem_singleton.mpr rfl), Meaning.value, hp]
  rfl

theorem tensor_ofOp {op : Op} {p : OpBase} (hp : op.ptr = some p) :
    (Handle.ofOp op).tensor = p.output := by
  rw [Handle.ofOp, hp]
  rfl

variable (R) in
/-- **A flag**: the operand or its transpose. -/
theorem transposeInput_run (flag : Option Int) (i : Nat) (inputs : List Handle) {a : Handle}
    (st : Building m g) (hget : inputs[i]? = some a) (ha : g.Owns a) (hnum : a.tensor.numDim = 2) :
    ∃ a' adds m' g', transposeInput flag i inputs m g = .ok (inputs.set i a', m', g') ∧
      Stage g adds m' g' ∧ g'.Owns a' ∧ m'.matmul = m.matmul ∧
      a'.tensor = opTensor flag a.tensor ∧
      ∀ (net : Network R) (image : Grid R) (val : Op → Nat → Grid R), Obeys net image val adds →
        val a'.op a'.tensor.idx = opGrid flag (val a.op a.tensor.idx) := by
  unfold transposeInput opTensor opGrid
  by_cases hflag : flag = some 1
  · obtain ⟨op, p, m', g', permIdx, hrun, hst, hadds, hnumInputs, hptr, hp, htable, htype, hparams,
      hperm, hin, -⟩ := st.transpose ha hnum
    refine ⟨Handle.ofOp op, [(op, [a])], m', g', ?_, .of_adds hst hadds hnumInputs, hadds.owns_new,
      htable, ?_, fun net image val hval => ?_⟩
    · rw [if_pos hflag, inputAt, hget]
      show (g.transpose m a [1, 0] true >>= _) = _
      rw [hrun]
      rfl
    · rw [if_pos hflag, tensor_ofOp hptr, output_eq_transposed hp]
    · show val op _ = _
      rw [if_pos hflag, hval.apply hptr, Network.apply, htype, hparams, hin]
      exact if_pos ⟨hperm, hnum⟩
  · refine ⟨a, [], m, g, ?_, .refl st, ha, rfl, ?_, fun net image val _ => ?_⟩
    · obtain ⟨hlt, rfl⟩ := List.getElem?_eq_some_iff.mp hget
      rw [if_neg hflag, List.set_getElem_self]
    · rw [if_neg hflag]
    · rw [if_neg hflag]

omit [LinearOrder R] in
/-- The operand of a flag has the size the flag leaves. -/
theorem opGrid_size {flag : Option Int} {t : Tensor} {x : Grid R} {r c : Nat}
    (hdims : t.dims = if flag = some 1 then [(c : Int), (r : Int)] else [(r : Int), (c : Int)])
    (hrows : x.rows = t.layout.1) (hcols : x.cols = t.layout.2) :
    (opGrid flag x).rows = r ∧ (opGrid flag x).cols = c := by
  unfold opGrid
  split at hdims
  · next hflag =>
    rw [layout_pair hdims] at hrows hcols
    rw [if_pos hflag]
    exact ⟨hcols, hrows⟩
  · next hflag =>
    rw [layout_pair hdims] at hrows hcols
    rw [if_neg hflag]
    exact ⟨hrows, hcols⟩

theorem product_entry {x y : Grid R} {K i j : Nat} (hy : y.rows = K) (hi : i < x.rows)
    (hj : j < y.cols) :
    ((x.product y).map (net.activate .AC_MODE_NONE)).cell i j =
      ∑ k ∈ Finset.range K, x.cell i k * y.cell k j := by
  rw [show net.activate .AC_MODE_NONE = id from rfl, Grid.map_id, ← hy]
  exact Grid.cell_of _ hi hj

/-- The key under which `get_or_create_matmul` looks for the product. -/
def gemmKey (attrs : GemmAttributes R) (a b : Handle) : Key :=
  (Request.matmul (opTensor attrs.transA a.tensor) (opTensor attrs.transB b.tensor) .AC_MODE_NONE).key

/-- The attributes that `_gemm` reads. -/
def GemmAttributes.unscaled (attrs : GemmAttributes R) : GemmAttributes R :=
  { attrs with alpha := none, beta := none }

variable {attrs : GemmAttributes R} {M K N : Nat} {a b : Handle} {rest : List Handle}

theorem numDim_of_flag {flag : Option Int} {t : Tensor} {r c : Nat}
    (hdims : t.dims = if flag = some 1 then [(c : Int), (r : Int)] else [(r : Int), (c : Int)]) :
    t.numDim = 2 := by
  rw [← t.length_dims, hdims]
  split <;> rfl

omit [LinearOrder R] in
/-- Without alpha and beta. -/
theorem gemmEntry_unscaled (x y : Grid R) (c : Option (Grid R)) (i j : Nat) :
    gemmEntry attrs.unscaled K x y c i j = ∑ k ∈ Finset.range K,
      (opGrid attrs.transA x).cell i k * (opGrid attrs.transB y).cell k j +
        c.elim 0 fun z => z.spread i j := by
  cases c with
  | none => exact congrArg (· + _) (one_mul _)
  | some z => exact congrArg₂ (· + ·) (one_mul _) (one_mul _)

/-- **`_gemm` up to the product**, which computes `A' * B'`. -/
theorem gemmProduct_run (st : Building m g) (ha : g.Owns a) (hb : g.Owns b)
    (hgemm : GemmOperands attrs M K N a b rest) :
    ∃ a' b' outputs adds m' g',
      gemmProduct attrs (a :: b :: rest) m g = .ok (a' :: b' :: rest, outputs, m', g') ∧
      Stage g adds m' g' ∧ g'.Owns outputs ∧
      (lookupKey m.matmul (gemmKey attrs a b) = none → outputs.tensor.dims = [(M : Int), (N : Int)]) ∧
      (∀ p, lookupKey m.matmul (gemmKey attrs a b) = some p → outputs.tensor = p.output) ∧
      ∀ (net : Network R) (image : Grid R) (val : Op → Nat → Grid R), Sized val a → Sized val b →
        Obeys net image val adds →
        (val outputs.op outputs.tensor.idx).rows = M ∧ (val outputs.op outputs.tensor.idx).cols = N ∧
        ∀ i < M, ∀ j < N, (val outputs.op outputs.tensor.idx).cell i j =
          ∑ k ∈ Finset.range K, (opGrid attrs.transA (val a.op a.tensor.idx)).cell i k *
            (opGrid attrs.transB (val b.op b.tensor.idx)).cell k j := by
  have hnumA := numDim_of_flag hgemm.left
  have hnumB := numDim_of_flag hgemm.right
  obtain ⟨a', adds1, m1, g1, hrun1, hstage1, ha', htable1, htensorA, hvalA⟩ :=
    transposeInput_run R attrs.transA 0 (a :: b :: rest) st rfl ha hnumA
  obtain ⟨b', adds2, m2, g2, hrun2, hstage2, hb', htable2, htensorB, hvalB⟩ :=
    transposeInput_run R attrs.transB 1 (a' :: b :: rest) hstage1.building rfl
      (hstage1.owns hb) hnumB
  have hdimsA : a'.tensor.dims = [(M : Int), (K : Int)] := by
    rw [htensorA]
    exact opTensor_dims hgemm.left
  have hdimsB : b'.tensor.dims = [(K : Int), (N : Int)] := by
    rw [htensorB]
    exact opTensor_dims hgemm.right
  obtain ⟨op, p, m3, g3, hrun3, hst3, hadds3, hnum3, hptr, htype, hparams, hout⟩ :=
    hstage2.building.matmul (hstage2.owns ha') hb' (matmulCompatible_of_dims hdimsA hdimsB)
      (dims_pair hdimsA).1.ge
  rw [htable2, htable1, htensorA, htensorB] at hout
  replace hout : p.output = (lookupKey m.matmul (gemmKey attrs a b)).elim _ OpBase.output := hout
  refine ⟨a', b', Handle.ofOp op, (adds1 ++ adds2) ++ [(op, [a', b'])], m3, g3, ?_,
    (hstage1.append hstage2).append (.of_adds hst3 hadds3 hnum3), hadds3.owns_new, fun hnone => ?_,
    fun q hq => ?_, fun net image val hsizeA hsizeB hval => ?_⟩
  · unfold gemmProduct
    rw [hrun1]
    show (transposeInput attrs.transB 1 (a' :: b :: rest) m1 g1 >>= _) = _
    rw [hrun2]
    show (g2.matmul m2 a' b' .AC_MODE_NONE >>= _) = _
    rw [hrun3]
    rfl
  · rw [tensor_ofOp hptr, hout, hnone]
    exact matmulOutput_dims (opTensor_dims hgemm.left) (opTensor_dims hgemm.right)
  · rw [tensor_ofOp hptr, hout, hq]
    rfl
  · have hproduct : val op (Handle.ofOp op).tensor.idx =
        ((opGrid attrs.transA (val a.op a.tensor.idx)).product
          (opGrid attrs.transB (val b.op b.tensor.idx))).map (net.activate .AC_MODE_NONE) := by
      rw [hval.right.apply hptr, Network.apply, htype, hparams, ← hvalA net image val hval.left.left,
        ← hvalB net image val hval.left.right]
      rfl
    obtain ⟨hrowsA, -⟩ := opGrid_size hgemm.left hsizeA.1 hsizeA.2
    obtain ⟨hrowsB, hcolsB⟩ := opGrid_size hgemm.right hsizeB.1 hsizeB.2
    show (val op _).rows = M ∧ (val op _).cols = N ∧ ∀ i < M, ∀ j < N, (val op _).cell i j = _
    rw [hproduct]
    refine ⟨hrowsA, hcolsB, fun i hi j hj => ?_⟩
    exact product_entry hrowsB (by rw [hrowsA]; exact hi) (by rw [hcolsB]; exact hj)

omit [LinearOrder R] in
/-- The sum of an array with one that is spread over it. -/
theorem sum_entry {x z : Grid R} {i j : Nat} (hi : i < x.rows) (hj : j < x.cols) :
    (x.broadcastSum z).cell i j = x.cell i j + z.spread i j := by
  rw [Grid.cell_broadcastSum x z (lt_max_of_lt_left hi) (lt_max_of_lt_left hj),
    Grid.spread_of_lt hi hj]

/-- **`_gemm` computes `A' * B' + C`**, unless a product that is stored under its key does not go with
`C`. -/
theorem gemmOn_run (st : Building m g) (howns : ∀ t ∈ a :: b :: rest, g.Owns t)
    (hgemm : GemmOperands attrs M K N a b rest)
    (hstored : ∀ c ∈ rest, ∀ p, lookupKey m.matmul (gemmKey attrs a b) = some p →
      Model.broadcastable p.output c.tensor = true) :
    ∃ h adds m' g', gemmOn attrs (a :: b :: rest) m g = .ok (h, m', g') ∧ Stage g adds m' g' ∧
      ComputesGemm attrs.unscaled M K N a b rest g g' h := by
  have ha := howns a (List.mem_cons_self ..)
  have hb := howns b (List.mem_cons_of_mem _ (List.mem_cons_self ..))
  obtain ⟨a', b', outputs, adds, m', g', hrun, hstage, hown, hnew, hold, hval⟩ :=
    gemmProduct_run st ha hb hgemm
  rcases rest with _ | ⟨c, _ | ⟨d, rest⟩⟩
  · refine ⟨outputs, adds, m', g', ?_, hstage, fun net image val hsized hfollows i hi j hj => ?_⟩
    · rw [gemmOn, hrun]
      rfl
    · have hobeys := ((net.meaning image).follows_iff hstage.grows hstage.arity val).mp hfollows
      obtain ⟨-, -, hcell⟩ := hval net image val (hsized a (by simp)) (hsized b (by simp)) hobeys
      rw [hcell i hi j hj, gemmEntry_unscaled]
      exact (add_zero _).symm
  · have hc := hstage.owns (howns c (by simp))
    have hbroad : Model.broadcastable outputs.tensor c.tensor = true := by
      cases hlook : lookupKey m.matmul (gemmKey attrs a b) with
      | none => exact broadcastable_of_spreads (hnew hlook) (hgemm.spreads c (by simp))
      | some p =>
        rw [hold p hlook]
        exact hstored c (by simp) p hlook
    obtain ⟨op, p, m2, g2, hrun2, hst2, hadds2, hnum2, hptr, htype⟩ :=
      hstage.building.element hown hc hbroad
    refine ⟨Handle.ofOp op, adds ++ [(op, [outputs, c])], m2, g2, ?_,
      hstage.append (.of_adds hst2 hadds2 hnum2), fun net image val hsized hfollows i hi j hj => ?_⟩
    · rw [gemmOn, hrun]
      exact hrun2
    · have hstage2 := hstage.append (.of_adds hst2 hadds2 hnum2)
      have hobeys := ((net.meaning image).follows_iff hstage2.grows hstage2.arity val).mp hfollows
      obtain ⟨hrows, hcols, hcell⟩ := hval net image val (hsized a (by simp)) (hsized b (by simp))
        (Obeys.left hobeys)
      have hsum : val op (Handle.ofOp op).tensor.idx =
          (val outputs.op outputs.tensor.idx).broadcastSum (val c.op c.tensor.idx) := by
        rw [(Obeys.right hobeys).apply hptr, Network.apply, htype]
        rfl
      show (val op _).cell i j = _
      rw [hsum, sum_entry (by rw [hrows]; exact hi) (by rw [hcols]; exact hj), hcell i hi j hj,
        gemmEntry_unscaled]
      rfl
  · exact absurd hgemm.atMost (by simp)

/-- A product that is stored and does not go with `C` stops `_gemm`. -/
theorem stored_of_gemmOn (st : Building m g) (howns : ∀ t ∈ a :: b :: rest, g.Owns t)
    (hgemm : GemmOperands attrs M K N a b rest) {out : Handle × Model × Graph}
    (hrun : gemmOn attrs (a :: b :: rest) m g = .ok out) :
    ∀ c ∈ rest, ∀ p, lookupKey m.matmul (gemmKey attrs a b) = some p →
      Model.broadcastable p.output c.tensor = true := by
  intro c hc p hp
  obtain ⟨a', b', outputs, adds, m', g', hproduct, -, -, -, hold, -⟩ := gemmProduct_run st
    (howns a (List.mem_cons_self ..)) (howns b (List.mem_cons_of_mem _ (List.mem_cons_self ..))) hgemm
  rcases rest with _ | ⟨d, _ | ⟨e, rest⟩⟩
  · cases hc
  · obtain rfl := List.mem_singleton.mp hc
    rw [gemmOn, hproduct] at hrun
    replace hrun : g'.element m' .OP_EW_ADD outputs c = .ok out := hrun
    simp only [Graph.element, bind_ok_iff, pyAssert_eq_ok] at hrun
    obtain ⟨-, hbroad, -⟩ := hrun
    rw [hold p hp] at hbroad
    exact hbroad
  · exact absurd hgemm.atMost (by simp)

end Runs

/-! ## Scales -/

section Scales

variable {R : Type} [Field R]

/-- An array whose only entry is the first. -/
def corner (v : R) (rows cols : Nat) : Grid R :=
  Grid.of rows cols fun i j => if i = 0 ∧ j = 0 then v else 0

theorem corner_transpose (v : R) (rows cols : Nat) :
    (corner v rows cols).transpose = corner v cols rows := by
  refine Grid.of_congr fun i hi j hj => ?_
  exact (Grid.cell_of _ hj hi).trans (if_congr and_comm rfl rfl)

theorem opGrid_corner {flag : Option Int} {t : Tensor} {r c : Nat} (v : R)
    (hdims : t.dims = if flag = some 1 then [(c : Int), (r : Int)] else [(r : Int), (c : Int)]) :
    opGrid flag (corner v t.layout.1 t.layout.2) = corner v r c := by
  unfold opGrid
  split at hdims
  · next hflag => rw [if_pos hflag, layout_pair hdims, corner_transpose]
  · next hflag => rw [if_neg hflag, layout_pair hdims]

theorem corner_product {M K N : Nat} (v : R) (hM : 0 < M) (hN : 0 < N) :
    ∑ k ∈ Finset.range K, (corner v M K).cell 0 k * (corner v K N).cell k 0 =
      if 0 < K then v * v else 0 := by
  split
  · next hK =>
    rw [Finset.sum_eq_single_of_mem 0 (Finset.mem_range.mpr hK), corner, corner,
      Grid.cell_of _ hM hK, Grid.cell_of _ hK hN]
    · rfl
    · intro k hk hne
      rw [corner, Grid.cell_of _ hM (Finset.mem_range.mp hk), if_neg fun h => hne h.2, zero_mul]
  · next hK =>
    rw [Nat.eq_zero_of_not_pos hK, Finset.range_zero, Finset.sum_empty]

theorem corner_spread {rows cols : Nat} (v : R) (hrows : 0 < rows) (hcols : 0 < cols) :
    (corner v rows cols).spread 0 0 = v := by
  rw [Grid.spread_of_lt hrows hcols, corner, Grid.cell_of _ hrows hcols]
  rfl

variable [LinearOrder R] {m' : Model} {g g' : Graph} {adds : List (Op × List Handle)}
  {attrs : GemmAttributes R} {M K N : Nat} {a b h : Handle} {rest : List Handle}

/-- Two readings of the attributes agree on the first entry when all operands are corners. -/
theorem gemmEntry_corner (hstage : Stage g adds m' g') (howns : ∀ t ∈ a :: b :: rest, g.Owns t)
    (hgemm : GemmOperands attrs M K N a b rest)
    (hplain : ComputesGemm attrs.unscaled M K N a b rest g g' h)
    (hscaled : ComputesGemm attrs M K N a b rest g g' h) (hM : 0 < M) (hN : 0 < N) (v : R) :
    attrs.alpha.getD 1 * (if 0 < K then v * v else 0) +
        (if rest = [] then 0 else attrs.beta.getD 1 * v) =
      (if 0 < K then v * v else 0) + if rest = [] then 0 else v := by
  -- all operators before are corners
  obtain ⟨val, hfollows, hbase⟩ := ((⟨fun _ => default, id, id, fun _ _ => default⟩ :
    Network R).meaning default).exists_follows hstage.grows hstage.arity fun op _ =>
      corner v (Handle.ofOp op).tensor.layout.1 (Handle.ofOp op).tensor.layout.2
  have hcorner : ∀ t ∈ a :: b :: rest,
      val t.op t.tensor.idx = corner v t.tensor.layout.1 t.tensor.layout.2 := by
    intro t ht
    rw [hbase t.op (howns t ht).key, ← (howns t ht).own]
  have hsized : ∀ t ∈ a :: b :: rest, Sized val t := by
    intro t ht
    rw [Sized, hcorner t ht]
    exact ⟨rfl, rfl⟩
  have heq := (hscaled _ _ val hsized hfollows 0 hM 0 hN).symm.trans
    (hplain _ _ val hsized hfollows 0 hM 0 hN)
  rw [gemmEntry, gemmEntry, hcorner a (by simp), hcorner b (by simp)] at heq
  simp only [GemmAttributes.unscaled, Option.getD_none, one_mul] at heq
  rw [opGrid_corner v hgemm.left, opGrid_corner v hgemm.right, corner_product v hM hN] at heq
  rcases rest with _ | ⟨c, rest⟩
  · exact heq
  · obtain ⟨hrows, hcols⟩ := layout_of_spreads (hgemm.spreads c (by simp))
    have hspread : (val c.op c.tensor.idx).spread 0 0 = v := by
      rw [hcorner c (by simp)]
      exact corner_spread v (by omega) (by omega)
    simp only [List.head?_cons, Option.map_some, Option.elim_some, hspread] at heq
    rw [if_neg (List.cons_ne_nil _ _), if_neg (List.cons_ne_nil _ _)]
    exact heq

/-- **The scales are dropped**: the operators compute the node exactly when they make no difference. -/
theorem computesGemm_iff [IsStrictOrderedRing R] (hstage : Stage g adds m' g')
    (howns : ∀ t ∈ a :: b :: rest, g.Owns t) (hgemm : GemmOperands attrs M K N a b rest)
    (hplain : ComputesGemm attrs.unscaled M K N a b rest g g' h) :
    ComputesGemm attrs M K N a b rest g g' h ↔
      (attrs.alpha.getD 1 = 1 ∨ M * K * N = 0) ∧
        (rest = [] ∨ attrs.beta.getD 1 = 1 ∨ M * N = 0) := by
  constructor
  · intro hscaled
    rcases Nat.eq_zero_or_pos M with rfl | hM
    · simp
    rcases Nat.eq_zero_or_pos N with rfl | hN
    · simp
    have hentry := gemmEntry_corner hstage howns hgemm hplain hscaled hM hN
    have hone := hentry 1
    have htwo := hentry 2
    by_cases hrest : rest = []
    · refine ⟨?_, Or.inl hrest⟩
      rcases Nat.eq_zero_or_pos K with rfl | hK
      · simp
      · simp only [if_pos hK, if_pos hrest, mul_one, add_zero] at hone
        exact Or.inl hone
    · rcases Nat.eq_zero_or_pos K with rfl | hK
      · simp only [lt_irrefl, if_false, if_neg hrest, mul_zero, zero_add, mul_one] at hone
        exact ⟨Or.inr (by simp), Or.inr (Or.inl hone)⟩
      · simp only [if_pos hK, if_neg hrest] at hone htwo
        exact ⟨Or.inl (by linarith), Or.inr (Or.inl (by linarith))⟩
  · rintro ⟨halpha, hbeta⟩ net image val hsized hfollows i hi j hj
    rw [hplain net image val hsized hfollows i hi j hj, gemmEntry, gemmEntry]
    have hMN : M * N ≠ 0 := Nat.mul_ne_zero (by omega) (by omega)
    congr 1
    · rcases halpha with halpha | hzero
      · rw [halpha]
        rfl
      · have hK : K = 0 := by
          rcases Nat.mul_eq_zero.mp hzero with hzero | hzero
          · exact (Nat.mul_eq_zero.mp hzero).resolve_left (by omega)
          · omega
        rw [hK, Finset.range_zero, Finset.sum_empty, Finset.sum_empty, mul_zero, mul_zero]
    · rcases rest with _ | ⟨c, rest⟩
      · rfl
      · rcases hbeta with hnil | hbeta | hzero
        · cases hnil
        · show _ * _ = _ * _
          rw [hbeta]
          rfl
        · exact absurd hzero hMN

end Scales

/-! ## The node -/

section Node

variable {tensors : String → Option Handle} {initializer : List Initializer} {m m' : Model}
  {g g' : Graph}

/-- A weight of `get_inputs` is one more operator of the graph. -/
theorem newWeight_building {dims : List Int} {data : Option Nat} {h : Handle} (st : Building m g)
    (hrun : g.newWeight m dims data = .ok (h, m', g')) : Building m' g' := by
  simp only [Graph.newWeight, bind_ok_iff] at hrun
  obtain ⟨-, -, source, hsource, ⟨op, m1⟩, hcreate, hbuild⟩ := hrun
  have hissue := Model.createWeight_issued st.sound hcreate
  refine (st.build_added [source] hissue (Session.createWeight_adding st.adding hcreate)
    (fun p hp => hp.1) (Or.inl rfl) (fun t ht => ?_) hbuild).2.2.1
  rw [List.mem_singleton.mp ht]
  refine ⟨Session.sourceTensor_known st.inv (by simp [Session.sources]) hsource, fun hc => ?_⟩
  -- a weight computes nothing
  obtain ⟨p, rfl, -, htype⟩ := hissue.op
  exact absurd (congrArg some htype) hc.2

/-- **`get_inputs`** returns tensors of the graph. -/
theorem getInputs_owns {names : List String} {inputs : List Handle} (st : Building m g)
    (htensors : ∀ name t, tensors name = some t → g.Owns t)
    (hrun : getInputs tensors initializer m g names = .ok (inputs, m', g')) :
    Building m' g' ∧ (∀ t, g.Owns t → g'.Owns t) ∧ ∀ t ∈ inputs, g'.Owns t := by
  induction names generalizing m g inputs with
  | nil =>
    cases hrun
    exact ⟨st, fun t ht => ht, fun t ht => by cases ht⟩
  | cons name names ih =>
    simp only [getInputs, bind_ok_iff] at hrun
    obtain ⟨⟨t, m1, g1⟩, hone, ⟨rest, m2, g2⟩, hrest, hret⟩ := hrun
    cases hret
    have hstep : Building m1 g1 ∧ (∀ u, g.Owns u → g1.Owns u) ∧ g1.Owns t := by
      unfold getInput at hone
      split at hone
      · next t' hsome =>
        cases hone
        exact ⟨st, fun u hu => hu, htensors name _ hsome⟩
      · split at hone
        · rw [calling_ok_iff] at hone
          have hgives := Session.newWeight_gives st.adding hone
          exact ⟨newWeight_building st hone, fun u hu => ⟨hgives.keys _ hu.key, hu.own⟩, hgives.owns⟩
        · cases hone
    obtain ⟨hst1, hkeep1, ht⟩ := hstep
    obtain ⟨hst2, hkeep2, howns⟩ := ih hst1 (fun n u hu => hkeep1 u (htensors n u hu)) hrest
    refine ⟨hst2, fun u hu => hkeep2 u (hkeep1 u hu), fun u hu => ?_⟩
    rcases List.mem_cons.mp hu with rfl | hu
    · exact hkeep2 u ht
    · exact howns u hu

variable {R : Type} [Field R] [LinearOrder R] [IsStrictOrderedRing R]

/-- **`_gemm` computes what a `Gemm` node stands for exactly when `alpha` and `beta` make no
difference**, its operands are found, and no product that is stored under its key refuses `C`. -/
theorem gemm_computes_iff {calls : List Call} (hcalls : ∀ call ∈ calls, call.OnlyAdds) {s : Session}
    (hs : Session.start.builds calls = .ok s) (hm : s.models[s.current]? = some m)
    (htensors : ∀ name t, tensors name = some t → t ∈ s.handles) (node : NodeProto)
    (attrs : GemmAttributes R) (M K N : Nat)
    (hnode : ∀ inputs m1 g1,
      getInputs tensors initializer m s.graph node.input = .ok (inputs, m1, g1) →
      ∃ a b rest, inputs = a :: b :: rest ∧ GemmOperands attrs M K N a b rest) :
    (∃ a b rest m1 g1 h m' g',
      getInputs tensors initializer m s.graph node.input = .ok (a :: b :: rest, m1, g1) ∧
      gemm tensors initializer node attrs m s.graph = .ok (h, m', g') ∧
      ComputesGemm attrs M K N a b rest g1 g' h) ↔
    ∃ a b rest m1 g1,
      getInputs tensors initializer m s.graph node.input = .ok (a :: b :: rest, m1, g1) ∧
      (∀ c ∈ rest, ∀ p, lookupKey m1.matmul (gemmKey attrs a b) = some p →
        Model.broadcastable p.output c.tensor = true) ∧
      (attrs.alpha.getD 1 = 1 ∨ M * K * N = 0) ∧
      (rest = [] ∨ attrs.beta.getD 1 = 1 ∨ M * N = 0) := by
  have hloading := Session.loading_of_builds hcalls hs
  refine exists_congr fun a => exists_congr fun b => exists_congr fun rest =>
    exists_congr fun m1 => exists_congr fun g1 => ?_
  -- the operands are the same on both sides
  by_cases hfound : getInputs tensors initializer m s.graph node.input = .ok (a :: b :: rest, m1, g1)
  swap
  · simp only [hfound, false_and, exists_false]
  obtain ⟨st, -, howns⟩ := getInputs_owns (hloading.building hm)
    (fun name t ht => hloading.handles t (htensors name t ht)) hfound
  have hgemm : GemmOperands attrs M K N a b rest := by
    obtain ⟨a', b', rest', heq, hgemm⟩ := hnode _ _ _ hfound
    cases heq
    exact hgemm
  have hrun : gemm tensors initializer node attrs m s.graph =
      calling (gemmOn attrs (a :: b :: rest) m1 g1) := by
    rw [gemm, hfound]
    rfl
  rw [hrun]
  constructor
  · rintro ⟨h, m', g', -, hok, hcomputes⟩
    rw [calling_ok_iff] at hok
    have hstored := stored_of_gemmOn st howns hgemm hok
    obtain ⟨h', adds, m2, g2, hok', hstage, hplain⟩ := gemmOn_run st howns hgemm hstored
    rw [hok] at hok'
    cases hok'
    exact ⟨hfound, hstored, (computesGemm_iff hstage howns hgemm hplain).mp hcomputes⟩
  · rintro ⟨-, hstored, hscales⟩
    obtain ⟨h, adds, m', g', hok, hstage, hplain⟩ := gemmOn_run st howns hgemm hstored
    exact ⟨h, m', g', hfound, calling_ok_iff.mpr hok,
      (computesGemm_iff hstage howns hgemm hplain).mpr hscales⟩

/-- An input of 1×2, a weight of 3×2 and a bias of 3. -/
def smallCalls : List Call := [.newInput [1, 2], .newWeight [3, 2] (some 0), .newWeight [3] (some 1)]

/-- The tensors of a session by the names `A`, `B` and `C`. -/
def named (s : Session) (name : String) : Option Handle := s.handles[["A", "B", "C"].idxOf name]?

/-- `Gemm(A, B, C)`. -/
def smallNode : NodeProto := ⟨"Gemm", "", ["A", "B", "C"], ["Y"]⟩

theorem smallCalls_run :
    ∃ s m a b c, Session.start.builds smallCalls = .ok s ∧ s.models[s.current]? = some m ∧
      m.matmul = [] ∧ s.handles = [a, b, c] ∧ a.tensor.dims = [1, 2] ∧ b.tensor.dims = [3, 2] ∧
      c.tensor.dims = [3] := by
  have hrun : (Session.start.builds smallCalls).toOption.any (fun s =>
      decide ((s.models[s.current]?).any (fun m => m.matmul.isEmpty) = true ∧
        s.handles.map (fun h => h.tensor.dims) = [[1, 2], [3, 2], [3]])) = true := by
    decide +kernel
  obtain ⟨s, hs, hfacts⟩ := (Option.any_eq_true _ _).mp hrun
  obtain ⟨hmodel, hdims⟩ := of_decide_eq_true hfacts
  obtain ⟨m, hm, htable⟩ := (Option.any_eq_true _ _).mp hmodel
  obtain ⟨a, rest, hhandles, ha, hdims⟩ := List.map_eq_cons_iff.mp hdims
  obtain ⟨b, rest', rfl, hb, hdims⟩ := List.map_eq_cons_iff.mp hdims
  obtain ⟨c, rest'', rfl, hc, hdims⟩ := List.map_eq_cons_iff.mp hdims
  obtain rfl := List.map_eq_nil_iff.mp hdims
  exact ⟨s, m, a, b, c, toOption_eq_some.mp hs, hm, List.isEmpty_iff.mp htable, hhandles, ha, hb, hc⟩

theorem getInputs_named {s : Session} {a b c : Handle} (h : s.handles = [a, b, c]) :
    getInputs (named s) [] m s.graph smallNode.input = .ok ([a, b, c], m, s.graph) := by
  have hA : named s "A" = some a := by rw [named, h]; rfl
  have hB : named s "B" = some b := by rw [named, h]; rfl
  have hC : named s "C" = some c := by rw [named, h]; rfl
  simp only [smallNode, getInputs, getInput, hA, hB, hC]
  rfl

theorem gemmOperands_named {attrs : GemmAttributes ℚ} (hA : attrs.transA = none)
    (hB : attrs.transB = some 1) {a b c : Handle} (ha : a.tensor.dims = [1, 2])
    (hb : b.tensor.dims = [3, 2]) (hc : c.tensor.dims = [3]) : GemmOperands attrs 1 2 3 a b [c] where
  flagA := Or.inl hA
  flagB := Or.inr (Or.inr hB)
  left := by rw [hA, ha]; rfl
  right := by rw [hB, hb]; rfl
  atMost := le_rfl
  spreads := fun t ht => by
    rw [List.mem_singleton.mp ht, hc]
    exact ⟨1, 3, Or.inl rfl, Or.inr rfl, Or.inr (Or.inl ⟨rfl, rfl⟩)⟩

/-- `A * Bᵀ + C`. -/
theorem gemm_computes_affine :
    ∃ s m, Session.start.builds smallCalls = .ok s ∧ s.models[s.current]? = some m ∧
      ∃ a b rest m1 g1 h m' g',
        getInputs (named s) [] m s.graph smallNode.input = .ok (a :: b :: rest, m1, g1) ∧
        gemm (named s) [] smallNode (⟨none, none, none, some 1⟩ : GemmAttributes ℚ) m s.graph =
          .ok (h, m', g') ∧
        ComputesGemm (⟨none, none, none, some 1⟩ : GemmAttributes ℚ) 1 2 3 a b rest g1 g' h := by
  obtain ⟨s, m, a, b, c, hs, hm, htable, hhandles, ha, hb, hc⟩ := smallCalls_run
  have hfound := getInputs_named (m := m) hhandles
  have htensors : ∀ name t, named s name = some t → t ∈ s.handles :=
    fun name t ht => List.mem_of_getElem? ht
  refine ⟨s, m, hs, hm, (gemm_computes_iff (by simp [smallCalls, Call.OnlyAdds]) hs hm
    htensors smallNode ⟨none, none, none, some 1⟩ 1 2 3
    fun inputs m1 g1 hinputs => ?_).mpr ⟨a, b, [c], m, s.graph, hfound, ?_, Or.inl rfl,
      Or.inr (Or.inl rfl)⟩⟩
  · rw [hfound] at hinputs
    cases hinputs
    exact ⟨a, b, [c], rfl, gemmOperands_named rfl rfl ha hb hc⟩
  · intro t _ p hp
    rw [htable] at hp
    cases hp

/-- **`2 * A * Bᵀ + C`**: the operators are the same as before, and compute `A * Bᵀ + C`. -/
theorem gemm_drops_alpha :
    ∃ s m a b c h m' g', Session.start.builds smallCalls = .ok s ∧ s.models[s.current]? = some m ∧
      getInputs (named s) [] m s.graph smallNode.input = .ok ([a, b, c], m, s.graph) ∧
      gemm (named s) [] smallNode (⟨some 2, none, none, some 1⟩ : GemmAttributes ℚ) m s.graph =
        .ok (h, m', g') ∧
      ComputesGemm (⟨none, none, none, some 1⟩ : GemmAttributes ℚ) 1 2 3 a b [c] s.graph g' h ∧
      ¬ ComputesGemm (⟨some 2, none, none, some 1⟩ : GemmAttributes ℚ) 1 2 3 a b [c] s.graph g' h := by
  obtain ⟨s, m, a, b, c, hs, hm, htable, hhandles, ha, hb, hc⟩ := smallCalls_run
  have hfound := getInputs_named (m := m) hhandles
  have hloading := Session.loading_of_builds (by simp [smallCalls, Call.OnlyAdds]) hs
  obtain ⟨st, -, howns⟩ := getInputs_owns (hloading.building hm)
    (fun name t ht => hloading.handles t (List.mem_of_getElem? ht)) hfound
  have hgemm := @gemmOperands_named ⟨some 2, none, none, some 1⟩ rfl rfl a b c ha hb hc
  obtain ⟨h, adds, m', g', hok, hstage, hplain⟩ := gemmOn_run st howns hgemm fun t _ p hp => by
    rw [htable] at hp
    cases hp
  refine ⟨s, m, a, b, c, h, m', g', hs, hm, hfound, ?_, hplain, fun hscaled => ?_⟩
  · rw [gemm, hfound]
    exact calling_ok_iff.mpr hok
  · have hscales := (computesGemm_iff hstage howns hgemm hplain).mp hscaled
    revert hscales
    norm_num

end Node

end Onnx

end Peps
