import Peps.Dbocg.ModelCalls
import Peps.Dbocg.Substitution

/-!
# The tensor constraints of patterns

`create_matmul` and `create_concat` attach constraints on the operands to a pattern operator, which
`can_match` evaluates on the operators of a graph.

The constraint of a product compares the rows of the first operand with the columns of the second,
not the inner dimensions, so it turns away most products. The first constraint of a concatenation has
its number in the place of a tensor; looking that up fails, and the check raises for all operands
(`patternConstraints_iff`).
-/

namespace Peps

open Lib

/-! ## Building patterns -/

/-- What building a pattern can raise. -/
inductive PatternError where
  /-- `UnboundLocalError`: no branch has assigned `tnc`. -/
  | unboundLocal
  | assertion (text : String)
deriving DecidableEq

/-- `OpX.add_input_constraint`: the constraint that is appended. A number counts as missing if it is
0; and it goes to the place of `p2`, with no second dimension. -/
def addInputConstraint (comp : Compare) (para1 : TNParameter) (dim1 : DIMParameter)
    (para2 : Option TNParameter) (dim2 : Option DIMParameter) (value : Option Int) :
    Except PatternError TNConstraint :=
  match para2, dim2 with
  | some p2, some d2 => .ok ⟨comp, para1, dim1, some p2, some d2⟩
  | _, _ =>
    if value.getD 0 ≠ 0 then .ok ⟨comp, para1, dim1, none, none⟩ else .error .unboundLocal

/-- `to_tn_parameter`. -/
def toTnParameter (isInput : Bool) (n : Nat) : Except PatternError TNParameter :=
  match isInput, n with
  | true, 0 => .ok .IN_0
  | true, 1 => .ok .IN_1
  | true, 2 => .ok .IN_2
  | true, 3 => .ok .IN_3
  | true, 4 => .ok .IN_4
  | true, 5 => .ok .IN_5
  | false, 0 => .ok .OU_0
  | false, 1 => .ok .OU_1
  | false, 2 => .ok .OU_2
  | false, 3 => .ok .OU_3
  | false, 4 => .ok .OU_4
  | false, 5 => .ok .OU_5
  | _, _ => .error (.assertion "Invalid tn_parameter: n should be in the range [0, 5]")

/-- `to_dim_parameter`. -/
def toDimParameter (n : Nat) : Except PatternError DIMParameter :=
  match n with
  | 0 => .ok .DIM_0
  | 1 => .ok .DIM_1
  | 2 => .ok .DIM_2
  | 3 => .ok .DIM_3
  | _ => .error (.assertion "Invalid dim_parameter: n should be in the range [0, 3]")

/-- `create_matmul`. -/
def createMatmul (input weight : TensorX) (activation : ActiMode) : Except PatternError OpX := do
  let inner ← addInputConstraint .COMPARE_EQ .IN_0 .DIM_0 (some .IN_1) (some .DIM_1) none
  return { type := .OP_MATMUL
           inputs := [input, weight]
           pmConstraints := [⟨.COMPARE_EQ, .PM_ACTI, .acti activation⟩]
           tnConstraints := [inner] }

/-- The constraints of input `i` of a concatenation: as many dimensions as input 0, and the same
extents off the axis. -/
def concatConstraints (axis numDim : Int) (i : Nat) : Except PatternError (List TNConstraint) := do
  let in_i ← toTnParameter true i
  let rank ← addInputConstraint .COMPARE_EQ .IN_0 .DIM_ND (some in_i) (some .DIM_ND) none
  let dims ← (List.range numDim.toNat).mapM fun j => do
    let dim_j ← toDimParameter j
    if (j : Int) ≠ axis then
      let same ← addInputConstraint .COMPARE_EQ .IN_0 dim_j (some in_i) (some dim_j) none
      return [same]
    else return []
  return rank :: dims.flatten

/-- `create_concat`. -/
def createConcat (axis numDim : Int) (n : Nat) (ins : List TensorX) : Except PatternError OpX := do
  let first ← addInputConstraint .COMPARE_EQ .IN_0 .DIM_ND none none (some numDim)
  let rest ← (List.range' 1 (n - 1)).mapM (concatConstraints axis numDim)
  return { type := .OP_CONCAT
           inputs := ins
           pmConstraints := [⟨.COMPARE_EQ, .PM_AXIS, .int axis⟩]
           tnConstraints := first :: rest.flatten }

/-! ## Checking them -/

/-- The operands can be put side by side: the condition that `get_or_create_concat` tests, and that
their rank is the pattern's. -/
def ConcatFits (axis numDim : Int) (inputs : List Tensor) : Prop :=
  ∀ t ∈ inputs, (t.numDim : Int) = numDim ∧
    ∀ j < t.numDim, (j : Int) ≠ axis →
      t.dimAt (j : Nat) = (inputs.getD 0 Tensor.empty).dimAt (j : Nat)

/-- The pattern can be built, and checking its tensor constraints on `op` returns, with `True`
exactly if the operands of its body fit. -/
def ConcatChecked (axis numDim : Int) (ins : List TensorX) (op : Op) (p : OpBase) : Prop :=
  ∃ x, createConcat axis numDim p.inputs.length ins = .ok x ∧
    ∃ matched, allM (checkTnConstraint op) x.tnConstraints = .ok matched ∧
      (matched = true ↔ ConcatFits axis numDim p.inputs)

/-- The constraint of a product, on a body with two operands of two dimensions. -/
theorem check_matmul {op : Op} {p : OpBase} {a b : TensorX} {acti : ActiMode} {x : OpX}
    (hp : op.ptr = some p) (hinputs : p.numInputs = 2)
    (hrank : (p.inputAt 0).numDim = 2 ∧ (p.inputAt 1).numDim = 2)
    (hx : createMatmul a b acti = .ok x) :
    allM (checkTnConstraint op) x.tnConstraints =
      .ok (decide ((p.inputAt 0).dimAt 0 = (p.inputAt 1).dimAt 1)) := by
  have hrows : p.getInputParameter (some .IN_0) (some .DIM_0) = some ((p.inputAt 0).dimAt 0) := by
    simp [OpBase.getInputParameter, hinputs, hrank.1]
  have hcols : p.getInputParameter (some .IN_1) (some .DIM_1) = some ((p.inputAt 1).dimAt 1) := by
    simp [OpBase.getInputParameter, hinputs, hrank.2]
  have hone : checkTnConstraint op ⟨.COMPARE_EQ, .IN_0, .DIM_0, some .IN_1, some .DIM_1⟩ =
      .ok (decide ((p.inputAt 0).dimAt 0 = (p.inputAt 1).dimAt 1)) := by
    unfold checkTnConstraint Op.body
    rw [hp]
    show (pyUnwrap (p.getInputParameter (some .IN_0) (some .DIM_0)) >>= fun _ =>
      pyUnwrap (p.getInputParameter (some .IN_1) (some .DIM_1)) >>= fun _ => _) = _
    rw [hrows, hcols]
    show Except.ok (decide (KeyCell.int _ = KeyCell.int _)) = _
    simp only [KeyCell.int.injEq]
  cases hx
  show (checkTnConstraint op _ >>= fun ok => if ok then allM _ [] else .ok false) = _
  rw [hone]
  cases decide ((p.inputAt 0).dimAt 0 = (p.inputAt 1).dimAt 1) <;> rfl

/-- A constraint without a second tensor can not be checked. -/
theorem check_number {op : Op} {p : OpBase} (hp : op.ptr = some p) (comp : Compare)
    (para1 : TNParameter) (dim1 : DIMParameter) (dim2 : Option DIMParameter) :
    checkTnConstraint op ⟨comp, para1, dim1, none, dim2⟩ = .error .assertionError := by
  unfold checkTnConstraint Op.body
  rw [hp]
  show (pyUnwrap (p.getInputParameter (some para1) (some dim1)) >>= fun _ => _) = _
  cases p.getInputParameter (some para1) (some dim1) with
  | none => rfl
  | some act => rfl

theorem check_concat {op : Op} {p : OpBase} (hp : op.ptr = some p) {axis numDim : Int} {n : Nat}
    {ins : List TensorX} {x : OpX} (hx : createConcat axis numDim n ins = .ok x) :
    allM (checkTnConstraint op) x.tnConstraints = .error .assertionError := by
  simp only [createConcat, bind_ok_iff] at hx
  obtain ⟨first, hfirst, rest, -, hret⟩ := hx
  cases hret
  -- the number of dimensions comes first
  have hcell : first = ⟨.COMPARE_EQ, .IN_0, .DIM_ND, none, none⟩ := by
    simp only [addInputConstraint] at hfirst
    split at hfirst
    · exact (Except.ok.inj hfirst).symm
    · cases hfirst
  show (checkTnConstraint op first >>= fun _ => _) = _
  rw [hcell, check_number hp]
  rfl

/-- What `get_or_create_matmul` returns has two operands. -/
theorem matmul_returned_inputs {m m' : Model} {made : List ModelCall} {input weight : Tensor}
    {acti : ActiMode} {op : Op} {p : OpBase} (hm : m.Honest made)
    (h : m.getOrCreateMatmul input weight acti = .ok (op, m')) (hp : op.ptr = some p) :
    p.numInputs = 2 := by
  have htwo : ∀ {addr : Nat × Nat} {input weight : Tensor} {acti : ActiMode} {q : OpBase},
      mkMatmul addr input weight acti = .ok q → q.numInputs = 2 := by
    intro addr input weight acti q hq
    simp only [mkMatmul, bind_ok_iff] at hq
    obtain ⟨-, -, -, -, -, -, -, -, hret⟩ := hq
    cases hret
    rfl
  rcases Model.request_cases (r := .matmul input weight acti) h with
    ⟨rfl, -⟩ | ⟨q, table', hlook, hptr, -, -⟩
  · cases hp
  · rw [hp] at hptr
    cases hptr
    rcases lookupOrBuild_cases hlook with ⟨hhit, -⟩ | ⟨hbuild, -⟩
    · obtain ⟨r, -, -, hkind, addr, hbuild⟩ := (hm.binary .matmul).of_hit hhit
      cases r with
      | matmul => exact htwo hbuild
      | conv2d | element => exact absurd hkind (by simp [Request.kind])
    · exact htwo hbuild

/-- **The constraint of a product holds of an operator exactly if its first operand has as many rows
as its second has columns; and the constraints of a concatenation are never checked properly.** -/
theorem patternConstraints_iff (tag : Nat) (calls : List ModelCall) (input weight : Tensor)
    (acti : ActiMode) (op : Op) (m' : Model) (p : OpBase) (a b : TensorX) (x : OpX)
    (hmatmul : ((Model.new tag).afterCalls calls).getOrCreateMatmul input weight acti = .ok (op, m'))
    (hp : op.ptr = some p) (hrank : (p.inputAt 0).numDim = 2 ∧ (p.inputAt 1).numDim = 2)
    (hx : createMatmul a b acti = .ok x) (axis numDim : Int) (ins : List TensorX) (cat : Op)
    (q : OpBase) (hq : cat.ptr = some q) :
    (allM (checkTnConstraint op) x.tnConstraints = .ok true ↔
        (p.inputAt 0).dimAt 0 = (p.inputAt 1).dimAt 1) ∧
      ¬ ConcatChecked axis numDim ins cat q := by
  constructor
  · have htwo := matmul_returned_inputs (Model.honest_after tag calls) hmatmul hp
    rw [check_matmul hp htwo hrank hx]
    simp
  · rintro ⟨y, hy, matched, hmatched, -⟩
    rw [check_concat hq hy] at hmatched
    cases hmatched

/-- Two rows side by side. -/
def concatRows : OpBase where
  addr := (0, 200)
  type := .OP_CONCAT
  params := .none
  inputs := [tensorOf [1, 2], tensorOf [1, 3]]
  outputs := [tensorOf [1, 5]]

theorem patternConstraints_square :
    ∃ op m' p x, (Model.new 0).getOrCreateMatmul (tensorOf [3, 3]) (tensorOf [3, 3]) .AC_MODE_NONE =
        .ok (op, m') ∧ op.ptr = some p ∧ createMatmul (.ext 0) (.ext 1) .AC_MODE_NONE = .ok x ∧
      allM (checkTnConstraint op) x.tnConstraints = .ok true ∧
      ¬ ConcatChecked 1 2 [.ext 0, .ext 1] ⟨200, some concatRows⟩ concatRows := by
  obtain ⟨op, m', hrun⟩ : ∃ op m', (Model.new 0).getOrCreateMatmul (tensorOf [3, 3])
      (tensorOf [3, 3]) .AC_MODE_NONE = .ok (op, m') := ⟨_, _, rfl⟩
  obtain ⟨x, hx⟩ : ∃ x, createMatmul (.ext 0) (.ext 1) .AC_MODE_NONE = .ok x := ⟨_, rfl⟩
  obtain ⟨p, hp, hin⟩ : ∃ p, op.ptr = some p ∧ p.inputs = [tensorOf [3, 3], tensorOf [3, 3]] := by
    cases hrun
    exact ⟨_, rfl, rfl⟩
  have h0 : p.inputAt 0 = tensorOf [3, 3] := by rw [OpBase.inputAt, hin]; rfl
  have h1 : p.inputAt 1 = tensorOf [3, 3] := by rw [OpBase.inputAt, hin]; rfl
  obtain ⟨hiff, hconcat⟩ := patternConstraints_iff 0 [] _ _ _ op m' p (.ext 0) (.ext 1) x hrun hp
    (by rw [h0, h1]; exact ⟨rfl, rfl⟩) hx 1 2 [.ext 0, .ext 1] ⟨200, some concatRows⟩ concatRows rfl
  exact ⟨op, m', p, x, hrun, hp, hx, hiff.mpr (by rw [h0, h1]; rfl), hconcat⟩

/-- **A product of 2×3 and 3×4 is turned away, and two rows of lengths 2 and 3 abort the match**. -/
theorem patternConstraints_oblong :
    ((Model.new 0).getOrCreateMatmul (tensorOf [2, 3]) (tensorOf [3, 4]) .AC_MODE_NONE).toOption.any
        (fun out => (createMatmul (.ext 0) (.ext 1) .AC_MODE_NONE).toOption.any fun x =>
          (allM (checkTnConstraint out.1) x.tnConstraints).toOption == some false) = true ∧
      (createConcat 1 2 2 [.ext 0, .ext 1]).toOption.any (fun x =>
        decide (allM (checkTnConstraint ⟨200, some concatRows⟩) x.tnConstraints =
          .error .assertionError)) = true ∧
      ConcatFits 1 2 concatRows.inputs := by
  refine ⟨by decide +kernel, by decide +kernel, ?_⟩
  unfold ConcatFits
  decide

end Peps
