import Mathlib.Algebra.Field.Rat
import Mathlib.Algebra.Order.Ring.Unbundled.Rat
import Peps.Dbocg.NudfMeaning
import Peps.Dbocg.NudfTables

/-!
# What an exported query computes

If the calls that stand for the operators of a graph are plain, each relation holds the value of its
operator (`holds_foldl`), so the final `SELECT` reads the value of `resultOp`. That operator is never
the last one, which `export` leaves out; the query answers with the value of the sink exactly when
the two values are the same (`exportQuery_value_iff`).
-/

namespace Peps

open Lib

namespace Graph

variable {g : Graph} (hg : g.WellFormed) (hl : g.Laid)

/-- How many in-edges `export` reads of an operator of a type. -/
theorem Laid.slots_of_type (hl : g.Laid) {op : Op} (hop : op ∈ g.inEdges.keys) (hc : op.computes)
    {type : OpType} {name : String} {n : Nat} (htype : op.type = some type)
    (hk : (type, name, n) ∈ kinds) : op.slots = n ∧ n ≤ op.numInputs := by
  have hall : ∀ a ∈ kinds, ∀ b ∈ kinds, a.1 = b.1 → a = b := by decide
  obtain ⟨p, hp, hkind⟩ := hl.kind hop hc
  obtain ⟨type', name', n', hkind⟩ := hkind.isKind hp
  have hsame : type = type' := Option.some.inj (htype.symm.trans hkind.type)
  cases hall _ hk _ hkind.mem hsame
  exact ⟨hkind.slots, hkind.le⟩

/-! ## Values -/

section Values

variable {R : Type} [Field R] {val : Op → Nat → Grid R} {op : Op}

/-- The values that an operator reads. -/
def operands (g : Graph) (val : Op → Nat → Grid R) (op : Op) : List (Grid R) :=
  (List.range op.numInputs).map (inputValue g val op)

include hg hl in
theorem operands_getD (hop : op ∈ g.inEdges.keys) (hc : op.computes) {i : Nat}
    (hi : i < op.numInputs) {src : Op} (hsrc : g.source op i = some src) :
    (g.operands val op).getD i default = val src 0 := by
  obtain ⟨e, hslot, hsame⟩ := slot_of_source hg hl hop hc hi hsrc
  have hvalue : inputValue g val op i = val e.srcOp e.srcIdx := by
    unfold inputValue
    show (g.edgeAt op i).elim _ _ = _
    rw [hslot.edge]
    rfl
  rw [operands, List.getD_eq_getElem?_getD, List.getElem?_map, List.getElem?_range hi,
    Option.map_some, Option.getD_some, hvalue, hslot.src, hsame]

include hg hl in
theorem operand_of_kind (hop : op ∈ g.inEdges.keys) {p : OpBase} (hp : op.ptr = some p)
    {name : String} {n : Nat} (hk : (p.type, name, n) ∈ kinds) {i : Nat} (hi : i < n) {src : Op}
    (hsrc : g.source op i = some src) : (g.operands val op).getD i default = val src 0 := by
  have hall : ∀ k ∈ kinds, k.1 ≠ .OP_INPUT ∧ k.1 ≠ .OP_WEIGHT := by decide
  have htype := Op.type_of_ptr hp
  have hc : op.computes := by
    rw [Op.computes, htype]
    exact ⟨fun h => (hall _ hk).1 (Option.some.inj h), fun h => (hall _ hk).2 (Option.some.inj h)⟩
  obtain ⟨-, hle⟩ := hl.slots_of_type hop hc htype hk
  exact operands_getD hg hl hop hc (lt_of_lt_of_le hi hle) hsrc

variable [LinearOrder R] {N : Network R} {image : Grid R} (hval : (N.meaning image).Values g val)

include hval in
theorem value_eq {p : OpBase} (hp : op.ptr = some p) :
    val op 0 = N.apply image p (g.operands val op) := by
  have heq := congrFun (hval op) 0
  unfold Meaning.equation Meaning.value at heq
  rw [hp] at heq
  exact heq

section Kinds

variable (hkey : op ∈ g.inEdges.keys) {p : OpBase} (hp : op.ptr = some p) {src src' : Op}
  (hsrc : g.source op 0 = some src)

include hg hl hval hkey hp hsrc

theorem value_conv2d (htype : p.type = .OP_CONV2D) {strideH strideW : Int} {padding : PaddingMode}
    {activation : ActiMode} (hparams : p.params = .conv2d strideH strideW padding activation)
    (hsrc' : g.source op 1 = some src') :
    val op 0 = ((val src' 0).productTransposed
      ((val src 0).patches (p.convWindow strideH strideW padding))).map (N.activate activation) := by
  have hk : (p.type, "Conv", 2) ∈ kinds := by rw [htype]; decide
  rw [value_eq hval hp]
  unfold Network.apply
  rw [htype, hparams, operand_of_kind hg hl hkey hp hk (by decide) hsrc,
    operand_of_kind hg hl hkey hp hk (by decide) hsrc']

theorem value_add (htype : p.type = .OP_EW_ADD) (hsrc' : g.source op 1 = some src') :
    val op 0 = (val src 0).broadcastSum (val src' 0) := by
  have hk : (p.type, "Add", 2) ∈ kinds := by rw [htype]; decide
  rw [value_eq hval hp]
  unfold Network.apply
  rw [htype, operand_of_kind hg hl hkey hp hk (by decide) hsrc,
    operand_of_kind hg hl hkey hp hk (by decide) hsrc']

theorem value_relu (htype : p.type = .OP_RELU) : val op 0 = (val src 0).map (max 0) := by
  have hk : (p.type, "Relu", 1) ∈ kinds := by rw [htype]; decide
  rw [value_eq hval hp]
  unfold Network.apply
  rw [htype, operand_of_kind hg hl hkey hp hk (by decide) hsrc]

theorem value_avgpool (htype : p.type = .OP_POOL2D_AVG) {kernelH kernelW strideH strideW : Int}
    {padding : PaddingMode} {activation : ActiMode}
    (hparams : p.params = .pool2d kernelH kernelW strideH strideW padding activation) :
    val op 0 = ((val src 0).average
      ((p.inputAt 0).window kernelH kernelW strideH strideW padding)).map
        (N.activate activation) := by
  have hk : (p.type, "AveragePool", 1) ∈ kinds := by rw [htype]; decide
  rw [value_eq hval hp]
  unfold Network.apply
  rw [htype, hparams, operand_of_kind hg hl hkey hp hk (by decide) hsrc]

theorem value_matmul (htype : p.type = .OP_MATMUL) {activation : ActiMode}
    (hparams : p.params = .matmul activation) (hsrc' : g.source op 1 = some src') :
    val op 0 = ((val src 0).product (val src' 0)).map (N.activate activation) := by
  have hk : (p.type, "MatMul", 2) ∈ kinds := by rw [htype]; decide
  rw [value_eq hval hp]
  unfold Network.apply
  rw [htype, hparams, operand_of_kind hg hl hkey hp hk (by decide) hsrc,
    operand_of_kind hg hl hkey hp hk (by decide) hsrc']

theorem value_reshape (htype : p.type = .OP_RESHAPE) :
    val op 0 = (val src 0).reshape p.output.layout.1 p.output.layout.2 := by
  have hk : (p.type, "Reshape", 1) ∈ kinds := by rw [htype]; decide
  rw [value_eq hval hp]
  unfold Network.apply
  rw [htype, operand_of_kind hg hl hkey hp hk (by decide) hsrc]

theorem value_transpose (htype : p.type = .OP_TRANSPOSE) {permIdx : Int} {shuffle : Bool}
    (hparams : p.params = .transpose permIdx shuffle)
    (hperm : (permutationToIndex [1, 0]).toOption = some permIdx)
    (hmatrix : (p.inputAt 0).numDim = 2) : val op 0 = (val src 0).transpose := by
  have hk : (p.type, "Transpose", 1) ∈ kinds := by rw [htype]; decide
  rw [value_eq hval hp]
  unfold Network.apply
  rw [htype, hparams, operand_of_kind hg hl hkey hp hk (by decide) hsrc]
  exact if_pos ⟨hperm, hmatrix⟩

end Kinds

include hval in
theorem value_weight {src : Op} (hweight : src.type = some .OP_WEIGHT) :
    val src 0 = (src.ptr.bind fun q => (q.inputAt 0).data_ptr).elim default N.weights := by
  obtain ⟨q, hq, htype⟩ := Option.map_eq_some_iff.mp hweight
  rw [value_eq hval hq, hq]
  unfold Network.apply
  rw [htype]
  rfl

include hval in
theorem value_input {src : Op} (hinput : src.type = some .OP_INPUT) : val src 0 = image := by
  obtain ⟨q, hq, htype⟩ := Option.map_eq_some_iff.mp hinput
  rw [value_eq hval hq]
  unfold Network.apply
  rw [htype]

end Values

/-! ## Operands -/

section Operands

variable {R : Type} [Field R]

/-- The tables hold the columns of the image and the weights that are stored. -/
structure Tabled (g : Graph) (val : Op → Nat → Grid R) (image : Grid R) (ops : List Op)
    (tables : String → Grid R) : Prop where
  image : tables inputFeatureMap = im2colInit image
  weight : ∀ op ∈ ops, op.stores → ∀ i < op.slots, ∀ e, g.Slot op i e →
    e.srcOp.type = some .OP_WEIGHT → tables (e.name op) = val e.srcOp 0

/-- After the operators `done`, a relation holds the value of its operator. -/
structure Holds (g : Graph) (val : Op → Nat → Grid R) (tables : String → Grid R) (done : List Op)
    (env : String → Grid R) : Prop where
  given : ∀ r, g.Given r → env r = tables r
  cte : ∀ op ∈ done, g.emits op = true → env op.outName = val op 0

variable {val : Op → Nat → Grid R} {image : Grid R} {tables env : String → Grid R}
  {done : List Op} {op src : Op} {i : Nat}
  (hnext : g.Sorted (done ++ [op])) (hholds : g.Holds val tables done env)
  (hsrc : g.source op i = some src)

include hg hl hnext hholds hsrc in
/-- An operand with a relation of its own. -/
theorem env_nameAt (hi : i < op.numInputs) (hc : src.computes) (hvisible : g.visible src = true) :
    env (g.nameAt op i) = val src 0 := by
  obtain ⟨hkey, hop⟩ := hnext.known op (by simp)
  obtain ⟨e, hslot, rfl⟩ := slot_of_source hg hl hkey hop hi hsrc
  rw [hslot.nameAt, Edge.name_of_computes hc]
  rw [visible_of_computes hc] at hvisible
  exact hholds.cte _ (hnext.after done op [] rfl e hslot.mem hc) hvisible

include hg hl hnext hholds hsrc in
/-- An operand that is looked up and not replaced. -/
theorem env_resolve {skip_nodes : String → Option String} (hskip : g.Skipped done skip_nodes)
    (hi : i < op.numInputs) (hc : src.computes ∧ g.skips src = false)
    (hredirected : g.redirected src = true) :
    env (resolve skip_nodes (g.nameAt op i)) = val src 0 := by
  rw [redirected, hc.2, if_neg Bool.false_ne_true] at hredirected
  have hname := env_nameAt hg hl hnext hholds hsrc hi hc.1 hredirected
  obtain ⟨hkey, hop⟩ := hnext.known op (by simp)
  obtain ⟨e, hslot, rfl⟩ := slot_of_source hg hl hkey hop hi hsrc
  have hmem := hnext.after done op [] rfl e hslot.mem hc.1
  have hmiss : skip_nodes (g.nameAt op i) = none := by
    rw [hslot.nameAt, Edge.name_of_computes hc.1, hskip.hit _ hmem, if_neg]
    rw [hc.2]
    exact Bool.false_ne_true
  rw [resolve, hmiss]
  exact hname

end Operands

section Weights

variable {R : Type} [Field R] {val : Op → Nat → Grid R} {image : Grid R}
  {tables env : String → Grid R} {done ops : List Op} {op src : Op} {i : Nat}
  (hsorted : g.Sorted ops) (hholds : g.Holds val tables done env)
  (htabled : g.Tabled val image ops tables)

include hg hl hsorted hholds htabled in
/-- A weight that is stored. -/
theorem env_weight (hop : op ∈ ops) (hstores : op.stores) (hi : i < op.slots)
    (hsrc : g.source op i = some src) (hweight : src.type = some .OP_WEIGHT) :
    env (g.nameAt op i) = val src 0 := by
  obtain ⟨hkey, hc⟩ := hsorted.known op hop
  have hle : op.slots ≤ op.numInputs := by
    have := hg.arity op hkey
    unfold Op.slots
    split <;> omega
  obtain ⟨e, hslot, rfl⟩ := slot_of_source hg hl hkey hc (lt_of_lt_of_le hi hle) hsrc
  have hgiven := given_name hl hkey hc hslot hi (fun _ => hstores.ne_relu) fun h => h.2 hweight
  rw [hslot.nameAt, hholds.given _ hgiven]
  exact htabled.weight op hop hstores i hi e hslot hweight

end Weights

/-! ## Commands -/

section Step

variable {R : Type} [Field R] [LinearOrder R] {N : Network R} {image : Grid R}
  {val : Op → Nat → Grid R} {tables env : String → Grid R} {done : List Op} {op : Op}
  {skip_nodes : String → Option String} (hval : (N.meaning image).Values g val)
  (hnext : g.Sorted (done ++ [op])) (hvisible : g.operandsVisible op = true)
  (hskip : g.Skipped done skip_nodes) (hholds : g.Holds val tables done env)
  (htabled : g.Tabled val image (done ++ [op]) tables)

include hl in
/-- The arguments of the call for a convolution. -/
theorem conv2d_arguments (hkey : op ∈ g.inEdges.keys) {p : OpBase} (hp : op.ptr = some p)
    {strideH strideW : Int} {padding : PaddingMode} {activation : ActiMode}
    (hparams : p.params = .conv2d strideH strideW padding activation)
    (htype : p.type = .OP_CONV2D) :
    firstAttr (kernelShape op) = (p.inputAt 1).dimAt 2 ∧
      firstAttr (pads op) =
        sidePad padding ((p.inputAt 0).dimAt 2) ((p.inputAt 1).dimAt 2) strideH ∧
      firstAttr (strides op) = strideH := by
  have hc : op.computes := by
    rw [Op.computes, Op.type_of_ptr hp, htype]
    decide
  obtain ⟨p', hp', hkind⟩ := hl.kind hkey hc
  cases hp.symm.trans hp'
  cases hkind with
  | conv2d h hparams' hH hW hfour =>
    cases hparams.symm.trans hparams'
    obtain ⟨rest, hpads⟩ := pads_conv2d hp hparams hH hW h.inputs hfour
    have hheight : (p.inputAt 0).dims.getD 2 0 = (p.inputAt 0).dimAt 2 := by
      simp [Tensor.dims, hfour]
    rw [kernelShape_conv2d hp hparams, strides_conv2d hp hparams, hpads, hheight]
    exact ⟨rfl, rfl, rfl⟩
  | add h => exact absurd (h.type.symm.trans htype) (by decide)
  | relu h => exact absurd (h.type.symm.trans htype) (by decide)
  | avgpool h => exact absurd (h.type.symm.trans htype) (by decide)
  | matmul h => exact absurd (h.type.symm.trans htype) (by decide)
  | reshape h => exact absurd (h.type.symm.trans htype) (by decide)
  | transpose h => exact absurd (h.type.symm.trans htype) (by decide)

include hg hl hnext in
/-- A convolution knows the input by its name. -/
theorem nameAt_eq_input (hstores : op.stores) {i : Nat} (hi : i < op.numInputs) {src : Op}
    (hsrc : g.source op i = some src) :
    g.nameAt op i = inputFeatureMap ↔ src.type = some .OP_INPUT := by
  obtain ⟨hkey, hc⟩ := hnext.known op (by simp)
  obtain ⟨e, hslot, rfl⟩ := slot_of_source hg hl hkey hc hi hsrc
  rw [hslot.nameAt]
  by_cases hinput : e.srcOp.type = some .OP_INPUT
  · rw [Edge.name, if_pos hinput]
    exact iff_of_true rfl hinput
  refine iff_of_false ?_ hinput
  by_cases hweight : e.srcOp.type = some .OP_WEIGHT
  · rw [Edge.name, if_neg hinput, if_pos hweight]
    exact weightName_ne_input hstores _
  · rw [Edge.name, if_neg hinput, if_neg hweight]
    exact fun heq => @not_given_outName g e.srcOp (Or.inl heq)

include hg hl hval hnext hholds htabled in
/-- A convolution, on the columns of the image or on those that `im2col` makes. -/
theorem eval_conv2d {p : OpBase} {strideH strideW : Int} {padding : PaddingMode} {src weight : Op}
    (hp : op.ptr = some p) (htype : p.type = .OP_CONV2D)
    (hparams : p.params = .conv2d strideH strideW padding .AC_MODE_NONE)
    (hsrc : g.source op 0 = some src) (hweight : g.source op 1 = some weight)
    (hstored : weight.type = some .OP_WEIGHT) (hvisible : g.visible src = true)
    (hsquare : p.convWindow strideH strideW padding =
      .square (val src 0).side ((p.inputAt 1).dimAt 2)
        (sidePad padding ((p.inputAt 0).dimAt 2) ((p.inputAt 1).dimAt 2) strideH) strideH)
    (hinit : src.type = some .OP_INPUT →
      p.convWindow strideH strideW padding = .square (val src 0).side 3 1 1) :
    (if g.nameAt op 0 = inputFeatureMap then Command.kfmInit (g.nameAt op 0) (g.nameAt op 1)
      else .kfm (g.nameAt op 0) (g.nameAt op 1) (firstAttr (kernelShape op)) (firstAttr (pads op))
        (firstAttr (strides op))).eval env = val op 0 := by
  obtain ⟨hkey, hc⟩ := hnext.known op (by simp)
  have hop : op.type = some .OP_CONV2D := by rw [Op.type_of_ptr hp, htype]
  obtain ⟨hslots, hle⟩ :=
    hl.slots_of_type hkey hc hop (show (.OP_CONV2D, "Conv", 2) ∈ kinds by decide)
  have hstores : op.stores := Or.inl hop
  have htable : env (g.nameAt op 1) = val weight 0 :=
    env_weight hg hl hnext hholds htabled (by simp) hstores (by omega) hweight hstored
  have hvalue : val op 0 = (val weight 0).productTransposed
      ((val src 0).patches (p.convWindow strideH strideW padding)) := by
    rw [value_conv2d hg hl hval hkey hp hsrc htype hparams hweight]
    exact Grid.map_id _
  have hfirst := nameAt_eq_input hg hl hnext hstores (by omega) hsrc
  by_cases hinput : src.type = some .OP_INPUT
  · rw [if_pos (hfirst.mpr hinput), hfirst.mpr hinput, hvalue, hinit hinput]
    show (env (g.nameAt op 1)).productTransposed (env inputFeatureMap) = _
    rw [htable, hholds.given _ (Or.inl rfl), htabled.image, value_input hval hinput]
    rfl
  · obtain ⟨hkernel, hpad, hstride⟩ := conv2d_arguments hl hkey hp hparams htype
    have hread : env (g.nameAt op 0) = val src 0 := by
      by_cases hsrcweight : src.type = some .OP_WEIGHT
      · exact env_weight hg hl hnext hholds htabled (by simp) hstores (by omega) hsrc hsrcweight
      · exact env_nameAt hg hl hnext hholds hsrc (by omega) ⟨hinput, hsrcweight⟩ hvisible
    rw [if_neg (mt hfirst.mp hinput), hkernel, hpad, hstride, hvalue, hsquare]
    show (env (g.nameAt op 1)).productTransposed (im2colCall (env (g.nameAt op 0)) _ _ _) = _
    rw [htable, hread]
    rfl

include hg hl hval hnext hskip hholds htabled in
/-- A product with a transposed weight: the weight itself is read, as `mvm` has it. -/
theorem eval_matmul {p q : OpBase} {src t weight : Op} {permIdx : Int} {shuffle : Bool}
    (hp : op.ptr = some p) (htype : p.type = .OP_MATMUL)
    (hparams : p.params = .matmul .AC_MODE_NONE) (hsrc : g.source op 0 = some src)
    (hc : src.computes) (hvisible : g.visible src = true) (hrow : (val src 0).rows = 1)
    (ht : g.source op 1 = some t) (hq : t.ptr = some q) (hqtype : q.type = .OP_TRANSPOSE)
    (hqparams : q.params = .transpose permIdx shuffle)
    (hperm : (permutationToIndex [1, 0]).toOption = some permIdx)
    (hmatrix : (q.inputAt 0).numDim = 2) (hweight : g.source t 0 = some weight)
    (hstored : weight.type = some .OP_WEIGHT) :
    (Command.mvm (g.nameAt op 0) (resolve skip_nodes (g.nameAt op 1))).eval env = val op 0 := by
  obtain ⟨hkey, hopc⟩ := hnext.known op (by simp)
  have hop : op.type = some .OP_MATMUL := by rw [Op.type_of_ptr hp, htype]
  obtain ⟨-, hle⟩ :=
    hl.slots_of_type hkey hopc hop (show (.OP_MATMUL, "MatMul", 2) ∈ kinds by decide)
  -- the transposition, which the product reads, stands before it
  have htt : t.type = some .OP_TRANSPOSE := by rw [Op.type_of_ptr hq, hqtype]
  have htc : t.computes := by simp [Op.computes, htt]
  obtain ⟨e, hslot, rfl⟩ := slot_of_source hg hl hkey hopc (by omega) ht
  have hmem := hnext.after done op [] rfl e hslot.mem htc
  obtain ⟨htkey, -⟩ := hnext.of_append.known _ hmem
  obtain ⟨htslots, -⟩ :=
    hl.slots_of_type htkey htc htt (show (.OP_TRANSPOSE, "Transpose", 1) ∈ kinds by decide)
  have hskips : g.skips e.srcOp = true := by simp [skips, htt]
  have htable : env (resolve skip_nodes (g.nameAt op 1)) = val weight 0 := by
    rw [resolve, hslot.nameAt, Edge.name_of_computes htc, hskip.hit _ hmem, if_pos hskips]
    exact env_weight hg hl hnext hholds htabled (List.mem_append_left _ hmem) (Or.inr htt)
      (by omega) hweight hstored
  have hvalue : val op 0 = (val src 0).product (val weight 0).transpose := by
    rw [value_matmul hg hl hval hkey hp hsrc htype hparams ht,
      value_transpose hg hl hval htkey hq hweight hqtype hqparams hperm hmatrix]
    exact Grid.map_id _
  rw [hvalue, Grid.product_transpose _ hrow]
  show (env _).matrixVector (env _) = _
  rw [htable, env_nameAt hg hl hnext hholds hsrc (by omega) hc hvisible]

include hg hl hval hnext hvisible hskip hholds htabled in
/-- **The command of a plain operator** computes its value. -/
theorem eval_commandOf (hemits : g.emits op = true) (hplain : g.Plain val op) :
    ∃ command, g.commandOf skip_nodes op = some command ∧ command.eval env = val op 0 := by
  obtain ⟨hkey, hc⟩ := hnext.known op (by simp)
  have hresolve := fun {i : Nat} {src : Op} (hsrc : g.source op i = some src) =>
    env_resolve hg hl hnext hholds hsrc hskip
  unfold operandsVisible at hvisible
  unfold emits at hemits
  unfold commandOf
  cases hplain with
  | @conv2d p strideH strideW padding src weight hp htype hparams hsrc hweight hstored hsquare
      hinit =>
    have hop : op.type = some .OP_CONV2D := by rw [Op.type_of_ptr hp, htype]
    simp only [hop, hsrc, hweight, Option.any_some, Bool.and_eq_true] at hvisible ⊢
    exact ⟨_, rfl, eval_conv2d hg hl hval hnext hholds htabled hp htype hparams hsrc hweight hstored
      hvisible.1 hsquare hinit⟩
  | @add a b htype ha hb hac hbc hrows hcols =>
    obtain ⟨p, hp, hptype⟩ := Option.map_eq_some_iff.mp htype
    obtain ⟨-, hle⟩ := hl.slots_of_type hkey hc htype (show (.OP_EW_ADD, "Add", 2) ∈ kinds by decide)
    simp only [htype, Bool.not_eq_true'] at hemits
    simp only [htype, hemits, ha, hb, Bool.false_or, Option.any_some, Bool.and_eq_true] at hvisible ⊢
    refine ⟨_, rfl, ?_⟩
    rw [value_add hg hl hval hkey hp ha hptype hb, Grid.broadcastSum_eq hrows hcols]
    show (env _).sum (env _) = _
    rw [hresolve ha (by omega) hac hvisible.1, hresolve hb (by omega) hbc hvisible.2]
  | @relu src htype hsrc hsrcc =>
    obtain ⟨p, hp, hptype⟩ := Option.map_eq_some_iff.mp htype
    obtain ⟨-, hle⟩ := hl.slots_of_type hkey hc htype (show (.OP_RELU, "Relu", 1) ∈ kinds by decide)
    simp only [htype, hsrc, Option.any_some] at hvisible ⊢
    refine ⟨_, rfl, ?_⟩
    rw [value_relu hg hl hval hkey hp hsrc hptype]
    show (env _).map (max 0) = _
    rw [hresolve hsrc (by omega) hsrcc hvisible]
  | @avgpool p kernelH kernelW strideH strideW padding src hp htype hparams hsrc hsrcc hsquare =>
    have hop : op.type = some .OP_POOL2D_AVG := by rw [Op.type_of_ptr hp, htype]
    obtain ⟨-, hle⟩ :=
      hl.slots_of_type hkey hc hop (show (.OP_POOL2D_AVG, "AveragePool", 1) ∈ kinds by decide)
    simp only [hop, hsrc, Option.any_some] at hvisible ⊢
    refine ⟨_, rfl, ?_⟩
    have hkernel : firstAttr (kernelShape op) = kernelH := by
      rw [kernelShape_pool2d hp hparams]
      rfl
    rw [value_avgpool hg hl hval hkey hp hsrc htype hparams, hsquare, hkernel]
    show avgpoolCall (env _) kernelH 0 2 = Grid.map id _
    rw [env_nameAt hg hl hnext hholds hsrc (by omega) hsrcc hvisible, Grid.map_id]
    rfl
  | @matmul p q src t weight permIdx shuffle hp htype hparams hsrc hsrcc hrow ht hq hqtype hqparams
      hperm hmatrix hweight hstored =>
    have hop : op.type = some .OP_MATMUL := by rw [Op.type_of_ptr hp, htype]
    simp only [hop, hsrc, Option.any_some, Bool.and_eq_true] at hvisible ⊢
    exact ⟨_, rfl, eval_matmul hg hl hval hnext hskip hholds htabled hp htype hparams hsrc hsrcc
      hvisible.1 hrow ht hq hqtype hqparams hperm hmatrix hweight hstored⟩
  | @reshape p src hp htype hsrc hsrcc hrow =>
    have hop : op.type = some .OP_RESHAPE := by rw [Op.type_of_ptr hp, htype]
    obtain ⟨-, hle⟩ :=
      hl.slots_of_type hkey hc hop (show (.OP_RESHAPE, "Reshape", 1) ∈ kinds by decide)
    simp only [hop] at hemits
    simp only [hop, hemits, hsrc, Option.any_some, Bool.not_true, Bool.false_or] at hvisible ⊢
    refine ⟨_, rfl, ?_⟩
    rw [value_reshape hg hl hval hkey hp hsrc htype, hrow, Grid.reshape_row]
    show (env _).flatten = _
    rw [env_nameAt hg hl hnext hholds hsrc (by omega) hsrcc hvisible]

end Step

/-! ## The whole query -/

section Run

variable {R : Type} [Field R] [LinearOrder R] {N : Network R} {image : Grid R}
  {val : Op → Nat → Grid R} {tables : String → Grid R} (hval : (N.meaning image).Values g val)

include hg hl hval in
/-- **One operator more.** -/
theorem Holds.after {done : List Op} {op : Op} {s : ExportState} (hrun : g.Run done s)
    (hnext : g.Sorted (done ++ [op])) (hvisible : g.operandsVisible op = true)
    (hplain : g.emits op = true → g.Plain val op)
    (htabled : g.Tabled val image (done ++ [op]) tables)
    (h : g.Holds val tables done (evalCtes tables s.ctes)) :
    g.Holds val tables (done ++ [op]) (evalCtes tables (s.after g op).ctes) := by
  have hctes : (s.after g op).ctes =
      s.ctes ++ ((g.commandOf s.skip_nodes op).map (Cte.mk op.outName)).toList := rfl
  by_cases hemits : g.emits op = true
  · obtain ⟨command, hcommand, hvalue⟩ :=
      eval_commandOf hg hl hval hnext hvisible hrun.skipped h htabled hemits (hplain hemits)
    rw [hctes, hcommand]
    show g.Holds val tables _ (evalCtes tables (s.ctes ++ [⟨op.outName, command⟩]))
    rw [evalCtes, evaluate_concat]
    refine ⟨fun r hr => ?_, fun k hk hkemits => ?_⟩
    · have hne : r ≠ op.outName := fun heq => @not_given_outName g op (heq ▸ hr)
      rw [Function.update_of_ne hne]
      exact h.given r hr
    · rcases List.mem_append.mp hk with hk | hk
      · rw [Function.update_of_ne (outName_ne hg hnext hk)]
        exact h.cte k hk hkemits
      · rw [List.mem_singleton.mp hk, Function.update_self]
        exact hvalue
  · have hnone : g.commandOf s.skip_nodes op = none := by
      rw [← Option.isNone_iff_eq_none, ← Option.not_isSome, isSome_commandOf]
      simpa using hemits
    rw [hctes, hnone]
    show g.Holds val tables _ (evalCtes tables (s.ctes ++ []))
    rw [List.append_nil]
    refine ⟨h.given, fun k hk hkemits => ?_⟩
    rcases List.mem_append.mp hk with hk | hk
    · exact h.cte k hk hkemits
    · rw [List.mem_singleton.mp hk] at hkemits
      exact absurd hkemits hemits

include hg hl hval in
/-- **A whole run.** -/
theorem holds_foldl (ops : List Op) (hsorted : g.Sorted ops)
    (hread : ∀ op ∈ ops, g.readable op = true) (hvisible : ∀ op ∈ ops, g.operandsVisible op = true)
    (hplain : ∀ op ∈ ops, g.emits op = true → g.Plain val op)
    (htabled : g.Tabled val image ops tables) :
    g.Holds val tables ops
      (evalCtes tables (ops.foldl (ExportState.after g) ExportState.start).ctes) := by
  induction ops using List.reverseRecOn with
  | nil => exact ⟨fun r _ => rfl, fun op hop => (by cases hop)⟩
  | append_singleton done op ih =>
    have hdone : ∀ k ∈ done, k ∈ done ++ [op] := fun k hk => List.mem_append_left _ hk
    have hrun := run_foldl hg hl done hsorted.of_append fun k hk => hread k (hdone k hk)
    rw [List.foldl_append]
    refine Holds.after hg hl hval hrun hsorted (hvisible op (by simp)) (hplain op (by simp)) htabled
      (ih hsorted.of_append (fun k hk => hread k (hdone k hk)) (fun k hk => hvisible k (hdone k hk))
        (fun k hk => hplain k (hdone k hk)) ⟨htabled.image, fun k hk => ?_⟩)
    exact htabled.weight k (hdone k hk)

include hg hl hval in
theorem tabled_exported {q : Exported} (hweights : q.weights = g.exportedState.weights) :
    g.Tabled val image g.exportedOps (q.tables N image) where
  image := if_pos rfl
  weight := by
    intro op hop hstores i hi e hslot hweight
    have hname : e.name op ≠ inputFeatureMap := by
      rw [Edge.name, if_neg (by rw [hweight]; decide), if_pos hweight]
      exact weightName_ne_input hstores _
    have hstored := weights_stored hg hl (sorted_exportedOps hg hl) hop hstores hslot hi hweight
    rw [Exported.tables, if_neg hname, hweights, exportedState, hstored, value_weight hval hweight]
    rfl

include hg hl hval in
/-- **The final relation** of a query with plain calls. -/
theorem relation_result {q : Exported} (hq : exportQuery g = .ok q) (hscoped : q.WellScoped g)
    (hplain : ∀ op ∈ g.exportedOps, g.emits op = true → g.Plain val op) :
    ∃ op, g.resultOp = some op ∧ q.relation N image q.result = val op 0 := by
  obtain ⟨hread, hvisible, hemits⟩ := (exportable_iff hg hl).mp ⟨q, hq, hscoped⟩
  obtain ⟨-, op, hresult, hquery⟩ := exportQuery_ok hg hl hq
  rw [hresult, Option.any_some] at hemits
  have hholds := holds_foldl hg hl hval _ (sorted_exportedOps hg hl) hread hvisible hplain
    (tabled_exported hg hl hval (show q.weights = _ by rw [hquery]))
  rw [hquery] at hholds ⊢
  exact ⟨op, hresult, hholds.cte op (List.mem_of_find?_eq_some hresult) hemits⟩

end Run

end Graph

namespace Session

/-- A query for a graph that `load_onnx` built, with the sink of the graph. -/
structure Exports (s : Session) (calls : List Call) (q : Exported) (sink : Op) : Prop where
  loads : s.Loads calls
  query : exportQuery s.graph = .ok q
  wellScoped : q.WellScoped s.graph
  sinks : ∀ op, s.graph.IsSink op ↔ op = sink

variable {R : Type} [Field R] [LinearOrder R]

/-- A convolution of a 2 × 2 image with a 3 × 3 kernel, and a weight that has an array. -/
def firstConv (g : Graph) (op : Op) : Bool :=
  (op.ptr.any fun p =>
    decide (p.type = .OP_CONV2D ∧ p.params = .conv2d 1 1 .PD_MODE_SAME .AC_MODE_NONE ∧
      p.convWindow 1 1 .PD_MODE_SAME = .square 2 3 1 1)) &&
    ((g.source op 0).any fun src => decide (src.type = some .OP_INPUT)) &&
    ((g.source op 1).any fun src => decide (src.type = some .OP_WEIGHT ∧
      (src.ptr.bind fun q => (q.inputAt 0).data_ptr).isSome = true))

structure FirstConv (g : Graph) (op : Op) (p : OpBase) (src weight : Op) (n : Nat) : Prop where
  ptr : op.ptr = some p
  type : p.type = .OP_CONV2D
  params : p.params = .conv2d 1 1 .PD_MODE_SAME .AC_MODE_NONE
  window : p.convWindow 1 1 .PD_MODE_SAME = .square 2 3 1 1
  reads : g.source op 0 = some src
  input : src.type = some .OP_INPUT
  kernel : g.source op 1 = some weight
  stored : weight.type = some .OP_WEIGHT
  data : (weight.ptr.bind fun q => (q.inputAt 0).data_ptr) = some n

theorem firstConv_spec {g : Graph} {op : Op} (h : firstConv g op = true) :
    ∃ p src weight n, FirstConv g op p src weight n := by
  obtain ⟨hbody, hweight⟩ := Bool.and_eq_true_iff.mp h
  obtain ⟨hbody, hinput⟩ := Bool.and_eq_true_iff.mp hbody
  obtain ⟨p, hp, hbody⟩ := (Option.any_eq_true _ _).mp hbody
  obtain ⟨htype, hparams, hwindow⟩ := of_decide_eq_true hbody
  obtain ⟨src, hsrc, hinput⟩ := (Option.any_eq_true _ _).mp hinput
  obtain ⟨weight, hweight, hstored⟩ := (Option.any_eq_true _ _).mp hweight
  obtain ⟨hstored, hdata⟩ := of_decide_eq_true hstored
  obtain ⟨n, hdata⟩ := Option.isSome_iff_exists.mp hdata
  exact ⟨p, src, weight, n, hp, htype, hparams, hwindow, hsrc, of_decide_eq_true hinput, hweight,
    hstored, hdata⟩

def reluOf (g : Graph) (op src : Op) : Bool :=
  decide (op.type = some .OP_RELU ∧ g.source op 0 = some src)

/-- Nothing reads the operator, and something reads each of the others. -/
def lastOf (g : Graph) (op : Op) : Bool :=
  g.inEdges.keys.all fun k =>
    decide (k = op) != g.inEdges.keys.any fun v => (g.ins v).any fun e => decide (e.srcOp = k)

theorem dependent_of_source {g : Graph} {op src : Op} {i : Nat} (hsrc : g.source op i = some src)
    (h : g.Dependent src) : g.Dependent op := by
  obtain ⟨e, he, rfl⟩ := Option.map_eq_some_iff.mp hsrc
  exact .read (List.mem_of_find?_eq_some he) h

theorem isSink_iff_of_lastOf {g : Graph} {op : Op} (hop : op ∈ g.inEdges.keys)
    (hdep : g.Dependent op) (h : lastOf g op = true) (k : Op) : g.IsSink k ↔ k = op := by
  have hall := fun k hk => bne_iff_ne.mp (List.all_eq_true.mp h k hk)
  constructor
  · intro hk
    by_contra hne
    have hread := hall k hk.known
    rw [decide_eq_false hne] at hread
    obtain ⟨v, hv, hv'⟩ := List.any_eq_true.mp (Bool.ne_false_iff.mp hread.symm)
    obtain ⟨e, he, heq⟩ := List.any_eq_true.mp hv'
    exact hk.unread v hv e he (of_decide_eq_true heq)
  · rintro rfl
    refine ⟨hop, hdep, fun v hv e he heq => ?_⟩
    have hread := hall k hop
    rw [decide_eq_true rfl] at hread
    exact hread (List.any_eq_true.mpr ⟨v, hv, List.any_eq_true.mpr ⟨e, he, decide_eq_true heq⟩⟩).symm

section Chain

variable {g : Graph} (hg : g.WellFormed) (hl : g.Laid) {N : Network R} {image : Grid R}
  {val : Op → Nat → Grid R} (hval : (N.meaning image).Values g val) {op : Op}
  (hconv : firstConv g op = true)

include hconv in
theorem dependent_firstConv : g.Dependent op := by
  obtain ⟨p, src, weight, n, h⟩ := firstConv_spec hconv
  exact dependent_of_source h.reads (.input h.input)

include hconv in
theorem computes_firstConv : op.computes ∧ g.skips op = false := by
  obtain ⟨p, src, weight, n, h⟩ := firstConv_spec hconv
  have htype : op.type = some .OP_CONV2D := by rw [Op.type_of_ptr h.ptr, h.type]
  simp [Op.computes, Graph.skips, Graph.biasAdd, htype]

include hval hconv in
theorem plain_firstConv (hside : image.side = 2) : g.Plain val op := by
  obtain ⟨p, src, weight, n, h⟩ := firstConv_spec hconv
  have hvalue := Graph.value_input hval h.input
  -- the kernel and the padding are those of the window
  have hkernel : (p.inputAt 1).dimAt 2 = 3 := congrArg Grid.Window.kernelH h.window
  have hpad : sidePad .PD_MODE_SAME ((p.inputAt 0).dimAt 2) ((p.inputAt 1).dimAt 2) 1 = 1 :=
    congrArg Grid.Window.padH h.window
  have hsquare : p.convWindow 1 1 .PD_MODE_SAME = .square (val src 0).side 3 1 1 := by
    rw [h.window, hvalue, hside]
  refine .conv2d h.ptr h.type h.params h.reads h.kernel h.stored ?_ fun _ => hsquare
  rw [hpad, hkernel]
  exact hsquare

include hg hl hval hconv in
theorem value_firstConv (hkey : op ∈ g.inEdges.keys) :
    ∃ n, val op 0 = (N.weights n).productTransposed (image.patches (.square 2 3 1 1)) := by
  obtain ⟨p, src, weight, n, h⟩ := firstConv_spec hconv
  refine ⟨n, ?_⟩
  rw [Graph.value_conv2d hg hl hval hkey h.ptr h.reads h.type h.params h.kernel, h.window,
    Graph.value_input hval h.input, Graph.value_weight hval h.stored, h.data]
  exact Grid.map_id _

include hg hl hval in
theorem value_reluOf (hkey : op ∈ g.inEdges.keys) {src : Op} (h : reluOf g op src = true) :
    val op 0 = (val src 0).map (max 0) := by
  obtain ⟨htype, hsrc⟩ := of_decide_eq_true h
  obtain ⟨p, hp, hptype⟩ := Option.map_eq_some_iff.mp htype
  exact Graph.value_relu hg hl hval hkey hp hsrc hptype

end Chain

/-- A query whose operators can be read and are visible, for a graph that ends with `sink`. -/
def exportsTo (g : Graph) (sink : Op) : Bool :=
  (g.exportedOps.all fun op => g.readable op && g.operandsVisible op) &&
    g.resultOp.any g.emits && lastOf g sink

theorem exports_of_exportsTo {calls : List Call} {s : Session} (hloads : s.Loads calls) {sink : Op}
    (hkey : sink ∈ s.graph.inEdges.keys) (hdep : s.graph.Dependent sink)
    (h : exportsTo s.graph sink = true) : ∃ q, s.Exports calls q sink := by
  obtain ⟨h, hlast⟩ := Bool.and_eq_true_iff.mp h
  obtain ⟨hall, hresult⟩ := Bool.and_eq_true_iff.mp h
  have hops := fun op hop => Bool.and_eq_true_iff.mp (List.all_eq_true.mp hall op hop)
  obtain ⟨q, hq, hscoped⟩ :=
    (Graph.exportable_iff hloads.inv.sound.inv.graph hloads.inv.laid).mpr
      ⟨fun op hop => (hops op hop).1, fun op hop => (hops op hop).2, hresult⟩
  exact ⟨q, hloads, hq, hscoped, isSink_iff_of_lastOf hkey hdep hlast⟩

/-- A convolution and two activations, with a kernel for `im2col_init`. -/
def convReluRelu : List Call :=
  [.newInput [1, 1, 2, 2], .newWeight [1, 1, 3, 3] (some 0),
    .conv2d 0 1 1 1 .PD_MODE_SAME .AC_MODE_NONE, .relu 2 false, .relu 3 false]

/-- A convolution and an activation. -/
def convRelu : List Call :=
  [.newInput [1, 1, 2, 2], .newWeight [1, 1, 3, 3] (some 0),
    .conv2d 0 1 1 1 .PD_MODE_SAME .AC_MODE_NONE, .relu 2 false]

/-- A kernel of nine times `-1`. -/
def negative : Network ℚ :=
  ⟨fun _ => Grid.of 1 9 fun _ _ => -1, id, id, fun _ _ => default⟩

/-- Four bright pixels. -/
def bright : Grid ℚ := Grid.of 1 4 fun _ _ => 1

end Session

end Peps
