import Peps.Dbocg.ConvSizes
import Peps.Dbocg.Graph
import Peps.Dbocg.LoadOnnx

/-!
# Convolutions of an ONNX file

`_conv2d` of `nudf.py` turns a `Conv` node into a `Conv2D` operator, `utils.py` finding its operands
and its padding mode. ONNX gives the padding as four numbers of cells; the operator knows two modes.
`get_conv_pool_pads_attr` takes `SAME` for any pads that do not add up to 0, and for every 1×1 kernel.

The size of the operator is the one ONNX prescribes only for the pads that `SAME` stands for, up to
what the last step absorbs (`conv2d_size_iff`).
-/

namespace Peps

open Lib

/-! ## Operators -/

/-- The output of a `Conv2D` along the two axes, whatever the strides. -/
theorem mkConv2D_sizes {addr : Nat × Nat} {input weight : Tensor} {strideH strideW : Int}
    {padding : PaddingMode} {activation : ActiMode} {p : OpBase}
    (h : mkConv2D addr input weight strideH strideW padding activation = .ok p) :
    p.type = .OP_CONV2D ∧ p.inputAt 0 = input ∧ weight.numDim = 4 ∧ strideH ≠ 0 ∧ strideW ≠ 0 ∧
      p.output.dimAt 2 = (room padding (input.dimAt 2) (weight.dimAt 2)).fdiv strideH + 1 ∧
      p.output.dimAt 3 = (room padding (input.dimAt 3) (weight.dimAt 3)).fdiv strideW + 1 := by
  obtain ⟨htype, -, hinputs, -, hw4, outputH, outputW, hH, hW, hdims⟩ := mkConv2D_made h
  obtain ⟨hsH, rfl⟩ := windowExtent_ok hH
  obtain ⟨hsW, rfl⟩ := windowExtent_ok hW
  have hin : p.inputAt 0 = input := by
    rw [OpBase.inputAt, hinputs]
    rfl
  have hdim2 := p.output.dimAt_of_getElem? (i := 2) (by rw [hdims]; rfl)
  have hdim3 := p.output.dimAt_of_getElem? (i := 3) (by rw [hdims]; rfl)
  exact ⟨htype, hin, hw4, hsH, hsW, hdim2, hdim3⟩

namespace Onnx

/-! ## Reading a node -/

/-- What loading can raise: `InputNotFoundError`, or an exception of the code it calls. -/
inductive LoadError where
  | inputNotFound
  | python (e : PyError)
deriving DecidableEq, Repr

def calling {α : Type} (step : Except PyError α) : Except LoadError α :=
  step.mapError LoadError.python

/-- An initializer of the ONNX graph; `data` names its array. -/
structure Initializer where
  name : String
  dims : List Int
  data : Nat

/-- The attributes of a `Conv` node that are read, as `parse_attribute` finds them. -/
structure Attributes where
  autoPad : Option String
  kernelShape : Option (List Int)
  pads : Option (List Int)
  strides : Option (List Int)

/-- `attrs[name]`. -/
def attr {α : Type} (value : Option α) : Except PyError α := value.elim (.error .keyError) .ok

/-- `sum(xs)`. -/
def pySum (xs : List Int) : Int := xs.foldl (· + ·) 0

/-- `get_padding_mode`. -/
def getPaddingMode (padding : String) : Except PyError PaddingMode :=
  if padding = "SAME" then .ok .PD_MODE_SAME
  else if padding = "VALID" then .ok .PD_MODE_VALID
  else .error .assertionError

/-- `get_activation_mode`. -/
def getActivationMode (activation : String) : Except PyError ActiMode :=
  if activation = "NONE" then .ok .AC_MODE_NONE
  else if activation = "SIGMOID" then .ok .AC_MODE_SIGMOID
  else if activation = "RELU" then .ok .AC_MODE_RELU
  else if activation = "TANH" then .ok .AC_MODE_TANH
  else .error .assertionError

/-- What `get_conv_pool_pads_attr` makes of an `auto_pad` attribute; `NOTSET` leaves it to the pads. -/
def autoPadAttr (attrs : Attributes) (padding : String) : Except PyError (Option String) := do
  let pads ←
    if padding = "SAME_LOWER" ∨ padding = "SAME_UPPER" then pure (some "SAME")
    else if padding = "VALID" then pure (some "VALID")
    else do
      pyAssert (padding = "NOTSET")
      pure none
  -- a 1×1 convolution has `SAME` padding
  let shape ← attr attrs.kernelShape
  let pads := if pySum shape ≤ 2 then some "SAME" else pads
  return if padding ≠ "NOTSET" then pads else none

/-- `get_conv_pool_pads_attr`. -/
def getConvPoolPadsAttr (attrs : Attributes) : Except PyError String := do
  let chosen ← attrs.autoPad.elim (.ok none) (autoPadAttr attrs)
  match chosen with
  | some pads => return pads
  | none =>
    -- zero padding if the pads are missing
    let pads ← attrs.pads.elim
      (do let shape ← attr attrs.kernelShape
          return List.replicate (shape.length * 2) 0) .ok
    if pySum pads = 0 then
      let shape ← attr attrs.kernelShape
      return if 2 < pySum shape then "VALID" else "SAME"
    else return "SAME"

section

variable (tensors : String → Option Handle) (initializer : List Initializer)

/-- A round of the loop of `get_inputs`: a tensor that is there already, or a new weight. -/
def getInput (m : Model) (g : Graph) (name : String) :
    Except LoadError (Handle × Model × Graph) :=
  match tensors name with
  | some t => .ok (t, m, g)
  | none =>
    match initializer.find? (·.name = name) with
    | some init => calling (g.newWeight m init.dims (some init.data))
    | none => .error .inputNotFound

/-- `get_inputs`. -/
def getInputs (m : Model) (g : Graph) :
    List String → Except LoadError (List Handle × Model × Graph)
  | [] => .ok ([], m, g)
  | name :: names => do
    let (t, m, g) ← getInput tensors initializer m g name
    let (inputs, m, g) ← getInputs m g names
    .ok (t :: inputs, m, g)

/-! ## `_conv2d` -/

/-- What `_conv2d` holds when `graph.conv2d` has returned. -/
structure ConvSite where
  input : Handle
  weight : Handle
  /-- The inputs after the first two: a bias, if there is one. -/
  rest : List Handle
  conv : Handle
  model : Model
  graph : Graph

/-- `_conv2d` up to the call of `graph.conv2d`. The attribute `group` is read and not used. -/
def convSite (node : NodeProto) (attrs : Attributes) (m : Model) (g : Graph) :
    Except LoadError ConvSite := do
  let (inputs, m, g) ← getInputs tensors initializer m g node.input
  let pads ← calling (getConvPoolPadsAttr attrs)
  let strides ← calling (attr attrs.strides)
  let padding ← calling (getPaddingMode pads)
  let activation ← calling (getActivationMode "NONE")
  match inputs, strides with
  | input :: weight :: rest, strideH :: strideW :: _ =>
    let (conv, m, g) ← calling (g.conv2d m input weight strideH strideW padding activation)
    return ⟨input, weight, rest, conv, m, g⟩
  | _, _ => .error (.python .indexError)

/-- The rest of `_conv2d`: a bias is brought into the shape of the channels and added. -/
def addBias (site : ConvSite) : Except PyError (Handle × Model × Graph) :=
  match site.rest with
  | [] => .ok (site.conv, site.model, site.graph)
  | bias :: _ => do
    let (reshaped, m, g) ← site.graph.reshape site.model bias [1, bias.tensor.dimAt 0, 1, 1]
    g.element m .OP_EW_ADD site.conv reshaped

/-- `_conv2d`. -/
def conv2d (node : NodeProto) (attrs : Attributes) (m : Model) (g : Graph) :
    Except LoadError (Handle × Model × Graph) := do
  let site ← convSite tensors initializer node attrs m g
  calling (addBias site)

end

/-! ## What a run has done -/

theorem calling_ok_iff {α : Type} {step : Except PyError α} {out : α} :
    calling step = .ok out ↔ step = .ok out := by
  cases step with
  | error e => simp [calling, Except.mapError]
  | ok a => simp [calling, Except.mapError]

/-- The mode that explicit pads are turned into. -/
def padsMode (attrs : Attributes) (pads : List Int) : PaddingMode :=
  if pySum pads = 0 ∧ attrs.kernelShape.any (fun shape => decide (2 < pySum shape)) = true then
    .PD_MODE_VALID
  else .PD_MODE_SAME

theorem attr_ok_iff {α : Type} {value : Option α} {a : α} : attr value = .ok a ↔ value = some a := by
  cases value with
  | none => simp [attr]
  | some b => simp [attr]

theorem autoPadAttr_notset (attrs : Attributes) :
    autoPadAttr attrs "NOTSET" = attr attrs.kernelShape >>= fun _ => .ok none := by
  simp only [autoPadAttr, attr]
  cases attrs.kernelShape with
  | none => rfl
  | some shape => rfl

theorem padding_of_pads {attrs : Attributes} {pads : List Int} {text : String}
    {padding : PaddingMode} (hauto : attrs.autoPad = none ∨ attrs.autoPad = some "NOTSET")
    (hpads : attrs.pads = some pads) (htext : getConvPoolPadsAttr attrs = .ok text)
    (hmode : getPaddingMode text = .ok padding) : padding = padsMode attrs pads := by
  -- `NOTSET` decides nothing
  have hchosen : ∀ chosen, attrs.autoPad.elim (.ok none) (autoPadAttr attrs) = .ok chosen →
      chosen = none := by
    intro chosen h
    rcases hauto with hnone | hset
    · rw [hnone] at h
      exact (Except.ok.inj h).symm
    · rw [hset] at h
      simp only [Option.elim_some, autoPadAttr_notset, bind_ok_iff] at h
      obtain ⟨-, -, hret⟩ := h
      exact (Except.ok.inj hret).symm
  simp only [getConvPoolPadsAttr, bind_ok_iff] at htext
  obtain ⟨chosen, hc, htext⟩ := htext
  cases hchosen chosen hc
  simp only [hpads, Option.elim_some, bind_ok_iff] at htext
  obtain ⟨pads', hsame, htext⟩ := htext
  cases hsame
  unfold padsMode
  split at htext
  · next hzero =>
    simp only [bind_ok_iff, attr_ok_iff] at htext
    obtain ⟨shape, hshape, hret⟩ := htext
    cases hret
    rw [hshape]
    by_cases hbig : 2 < pySum shape
    · rw [if_pos hbig] at hmode
      rw [if_pos ⟨hzero, by simpa using hbig⟩]
      exact (Except.ok.inj hmode).symm
    · rw [if_neg hbig] at hmode
      rw [if_neg (fun h => hbig (by simpa using h.2))]
      exact (Except.ok.inj hmode).symm
  · next hnonzero =>
    cases htext
    rw [if_neg (fun h => hnonzero h.1)]
    exact (Except.ok.inj hmode).symm

/-- Looking up the inputs only adds weights to the model. -/
theorem getInputs_honest {tensors : String → Option Handle} {initializer : List Initializer}
    {names : List String} {m m' : Model} {g g' : Graph} {inputs : List Handle}
    {made : List ModelCall} (hm : m.Honest made)
    (h : getInputs tensors initializer m g names = .ok (inputs, m', g')) :
    m'.conv2d = m.conv2d ∧ ∃ made', m'.Honest made' := by
  induction names generalizing m g inputs made with
  | nil =>
    cases h
    exact ⟨rfl, made, hm⟩
  | cons name names ih =>
    simp only [getInputs, bind_ok_iff] at h
    obtain ⟨⟨t, m1, g1⟩, hone, ⟨rest, m2, g2⟩, hrest, hret⟩ := h
    cases hret
    -- one more weight at most
    have hstep : m1.conv2d = m.conv2d ∧ ∃ made', m1.Honest made' := by
      unfold getInput at hone
      split at hone
      · cases hone
        exact ⟨rfl, made, hm⟩
      · split at hone
        · rw [calling_ok_iff] at hone
          simp only [Graph.newWeight, bind_ok_iff] at hone
          obtain ⟨-, -, source, -, ⟨op, m1'⟩, hcreate, hbuild⟩ := hone
          have hmodel : m1' = m1 := by
            simp only [Graph.build, bind_ok_iff] at hbuild
            obtain ⟨_, -, hret⟩ := hbuild
            cases hret
            rfl
          subst hmodel
          have hsame : m1'.conv2d = m.conv2d := by
            rw [Model.createWeight, guard_ok_iff] at hcreate
            cases hcreate.2
            rfl
          exact ⟨hsame, _, Model.call_honest hm (c := .weight source.tensor) hcreate⟩
        · cases hone
    obtain ⟨htable, made1, hm1⟩ := hstep
    obtain ⟨htable', hm2⟩ := ih hm1 hrest
    exact ⟨htable'.trans htable, hm2⟩

/-! ## The size -/

/-- The tensor the output's size is computed from: the first operand of the body that is stored under
the key, or the input itself if there is none. -/
def sizedTensor (m : Model) (input weight : Tensor) (strideH strideW : Int) (padding : PaddingMode) :
    Tensor :=
  (lookupKey m.conv2d (convKey input weight strideH strideW padding .AC_MODE_NONE)).elim input
    (·.inputAt 0)

/-- What `get_or_create_conv2d` returns was built for the tensor above, and a kernel of the layout
asked for. -/
theorem conv2d_returned {m m' : Model} {made : List ModelCall} {input weight : Tensor}
    {strideH strideW : Int} {padding : PaddingMode} {op : Op} (hm : m.Honest made)
    (h : m.getOrCreateConv2d input weight strideH strideW padding .AC_MODE_NONE = .ok (op, m'))
    (hop : op ≠ Op.invalid) :
    ∃ p addr w, op.ptr = some p ∧ w.SameLayout weight ∧
      mkConv2D addr (sizedTensor m input weight strideH strideW padding) w strideH strideW padding
        .AC_MODE_NONE = .ok p := by
  rcases Model.request_cases (r := .conv2d input weight strideH strideW padding .AC_MODE_NONE) h with
    ⟨hinvalid, -⟩ | ⟨p, table', hlook, hptr, -, -⟩
  · exact absurd hinvalid hop
  · replace hlook : lookupOrBuild m.conv2d (convKey input weight strideH strideW padding
        .AC_MODE_NONE) (mkConv2D m.nextAddr input weight strideH strideW padding .AC_MODE_NONE) =
          .ok (p, table') := hlook
    refine ⟨p, ?_⟩
    unfold sizedTensor
    cases hstored : lookupKey m.conv2d
      (convKey input weight strideH strideW padding .AC_MODE_NONE) with
    | some q =>
      rw [lookupOrBuild, hstored] at hlook
      cases hlook
      obtain ⟨r, -, hkey, hkind, addr, hbuild⟩ := (hm.binary .conv2d).of_hit hstored
      replace hkind : r.kind =
        (Request.conv2d input weight strideH strideW padding .AC_MODE_NONE).kind := hkind
      have hlayout := Request.layout_second_of_key_eq hkind hkey
      have hlead := Request.lead_eq_of_key_eq hkind hkey
      cases r with
      | conv2d t w =>
        cases hlead
        obtain ⟨-, hin, -⟩ := mkConv2D_sizes hbuild
        rw [Option.elim_some, hin]
        exact ⟨addr, w, hptr, hlayout, hbuild⟩
      | element | matmul => exact absurd hkind (by simp [Request.kind])
    | none =>
      rcases lookupOrBuild_cases hlook with ⟨hhit, -⟩ | ⟨hbuild, -⟩
      · rw [hstored] at hhit
        cases hhit
      · exact ⟨_, weight, hptr, ⟨rfl, fun _ _ => ⟨rfl, rfl⟩⟩, hbuild⟩

/-- The kernel's extent along the two axes (0 and 1): the attribute, or that of the weight. -/
def kernelAt (attrs : Attributes) (weight : Tensor) (axis : Nat) : Int :=
  (attrs.kernelShape.getD [weight.dimAt 2, weight.dimAt 3]).getD axis 0

/-- The size ONNX prescribes for an axis with explicit pads. -/
def specSize (extent padBegin padEnd kernel stride : Int) : Int :=
  (extent + padBegin + padEnd - kernel).fdiv stride + 1

/-- The cells ONNX has more than the mode are absorbed by the last step: added to its remainder they
leave one. For `SAME`, the axis's own tensor and the kernel's own extent they are the pads less
`kernel - 1`. -/
def PadsSuit (padding : PaddingMode) (sized weightK extent padBegin padEnd kernel stride : Int) :
    Prop :=
  Axis.IsResidue stride ((room padding sized weightK).fmod stride +
    (extent + padBegin + padEnd - kernel - room padding sized weightK))

instance (padding : PaddingMode) (sized weightK extent padBegin padEnd kernel stride : Int) :
    Decidable (PadsSuit padding sized weightK extent padBegin padEnd kernel stride) :=
  inferInstanceAs (Decidable (Axis.IsResidue _ _))

theorem size_eq_specSize_iff {padding : PaddingMode} {stride : Int} (hs : stride ≠ 0)
    (sized weightK extent padBegin padEnd kernel : Int) :
    (room padding sized weightK).fdiv stride + 1 = specSize extent padBegin padEnd kernel stride ↔
      PadsSuit padding sized weightK extent padBegin padEnd kernel stride := by
  unfold PadsSuit specSize
  rw [← Axis.fdiv_add_eq_iff hs, add_sub_cancel]
  constructor <;> intro h <;> omega

/-- **The size of the operator that a `Conv` node becomes is the one ONNX prescribes for its pads**
exactly if on both axes the pads suit the mode they are turned into. -/
theorem conv2d_size_iff (tag : Nat) (calls : List ModelCall) (g : Graph)
    (tensors : String → Option Handle) (initializer : List Initializer) (node : NodeProto)
    (attrs : Attributes) (top left bottom right strideH strideW : Int)
    (out : Handle × Model × Graph)
    (hauto : attrs.autoPad = none ∨ attrs.autoPad = some "NOTSET")
    (hpads : attrs.pads = some [top, left, bottom, right])
    (hstrides : attrs.strides = some [strideH, strideW])
    (hrun : conv2d tensors initializer node attrs ((Model.new tag).afterCalls calls) g = .ok out) :
    ∃ site p, convSite tensors initializer node attrs ((Model.new tag).afterCalls calls) g = .ok site ∧
      addBias site = .ok out ∧ site.conv.op.ptr = some p ∧ p.type = .OP_CONV2D ∧
      ((p.output.dimAt 2 = specSize (site.input.tensor.dimAt 2) top bottom
            (kernelAt attrs site.weight.tensor 0) strideH ∧
          p.output.dimAt 3 = specSize (site.input.tensor.dimAt 3) left right
            (kernelAt attrs site.weight.tensor 1) strideW) ↔
        (let padding := padsMode attrs [top, left, bottom, right]
         let sized := sizedTensor ((Model.new tag).afterCalls calls) site.input.tensor
           site.weight.tensor strideH strideW padding
         PadsSuit padding (sized.dimAt 2) (site.weight.tensor.dimAt 2) (site.input.tensor.dimAt 2)
            top bottom (kernelAt attrs site.weight.tensor 0) strideH ∧
          PadsSuit padding (sized.dimAt 3) (site.weight.tensor.dimAt 3) (site.input.tensor.dimAt 3)
            left right (kernelAt attrs site.weight.tensor 1) strideW)) := by
  have hm := Model.honest_after tag calls
  obtain ⟨m, hmodel⟩ : ∃ m, m = (Model.new tag).afterCalls calls := ⟨_, rfl⟩
  rw [← hmodel] at hm hrun ⊢
  simp only [conv2d, bind_ok_iff, calling_ok_iff] at hrun
  obtain ⟨site, hsite, hbias⟩ := hrun
  have hsite' := hsite
  simp only [convSite, bind_ok_iff, calling_ok_iff, attr_ok_iff, hstrides, Option.some.injEq]
    at hsite'
  obtain ⟨⟨inputs, m1, g1⟩, hinputs, text, htext, strides, rfl, padding, hmode, acti, hacti, hbuild⟩ :=
    hsite'
  cases padding_of_pads hauto hpads htext hmode
  cases hacti
  obtain ⟨htable, made, hm1⟩ := getInputs_honest hm hinputs
  rcases inputs with _ | ⟨input, _ | ⟨weight, rest⟩⟩
  · cases hbuild
  · cases hbuild
  · simp only [bind_ok_iff, calling_ok_iff] at hbuild
    obtain ⟨⟨conv, m2, g2⟩, hconv, hret⟩ := hbuild
    cases hret
    simp only [Graph.conv2d, bind_ok_iff, pyAssert_eq_ok] at hconv
    obtain ⟨⟨op, m2'⟩, hcreate, _, hop, hattach⟩ := hconv
    have hhandle : conv = Handle.ofOp op := by
      simp only [Graph.build, bind_ok_iff] at hattach
      obtain ⟨_, -, hret⟩ := hattach
      cases hret
      rfl
    obtain ⟨p, addr, w, hptr, hlayout, hp⟩ := conv2d_returned hm1 hcreate hop
    obtain ⟨htype, -, hw4, hsH, hsW, hheight, hwidth⟩ := mkConv2D_sizes hp
    have hw2 : w.dimAt 2 = weight.tensor.dimAt 2 := hlayout.dimAt (by omega) (by omega)
    have hw3 : w.dimAt 3 = weight.tensor.dimAt 3 := hlayout.dimAt (by omega) (by omega)
    have hsized : ∀ mode, sizedTensor m1 input.tensor weight.tensor strideH strideW mode =
        sizedTensor m input.tensor weight.tensor strideH strideW mode := by
      intro mode
      unfold sizedTensor
      rw [htable]
    refine ⟨_, p, hsite, hbias, by rw [hhandle]; exact hptr, htype, ?_⟩
    rw [hheight, hwidth, hw2, hw3, hsized]
    exact and_congr (size_eq_specSize_iff hsH ..) (size_eq_specSize_iff hsW ..)

/-- A 3×3 convolution of an image, with the same pads on all sides. -/
def convNode : NodeProto := ⟨"Conv", "conv", ["x", "w"], ["y"]⟩

def imageOnly (name : String) : Option Handle :=
  if name = "x" then some ⟨plain4d 1 3 32 32, ⟨GUID_INPUT, none⟩⟩ else none

def kernelOnly : List Initializer := [⟨"w", [64, 3, 3, 3], 0⟩]

def padded (pad : Int) : Attributes := ⟨none, some [3, 3], some [pad, pad, pad, pad], some [1, 1]⟩

theorem conv2d_size_pad1 :
    ∃ out site p, conv2d imageOnly kernelOnly convNode (padded 1) (Model.new 0) Graph.new = .ok out ∧
      convSite imageOnly kernelOnly convNode (padded 1) (Model.new 0) Graph.new = .ok site ∧
      site.conv.op.ptr = some p ∧
      p.output.dimAt 2 = specSize (site.input.tensor.dimAt 2) 1 1
        (kernelAt (padded 1) site.weight.tensor 0) 1 ∧
      p.output.dimAt 3 = specSize (site.input.tensor.dimAt 3) 1 1
        (kernelAt (padded 1) site.weight.tensor 1) 1 := by
  have hsome : (conv2d imageOnly kernelOnly convNode (padded 1) (Model.new 0)
      Graph.new).toOption.isSome = true := by decide +kernel
  obtain ⟨out, hout⟩ := Option.isSome_iff_exists.mp hsome
  rw [toOption_eq_some] at hout
  obtain ⟨site, p, hsite, -, hptr, -, hiff⟩ := conv2d_size_iff 0 [] Graph.new imageOnly
    kernelOnly convNode (padded 1) 1 1 1 1 1 1 out (.inl rfl) rfl rfl hout
  -- the pads are what `SAME` stands for
  have hsuit : (convSite imageOnly kernelOnly convNode (padded 1) (Model.new 0)
      Graph.new).toOption.any (fun site =>
        decide (PadsSuit .PD_MODE_SAME ((sizedTensor (Model.new 0) site.input.tensor
            site.weight.tensor 1 1 .PD_MODE_SAME).dimAt 2) (site.weight.tensor.dimAt 2)
            (site.input.tensor.dimAt 2) 1 1 (kernelAt (padded 1) site.weight.tensor 0) 1) &&
          decide (PadsSuit .PD_MODE_SAME ((sizedTensor (Model.new 0) site.input.tensor
            site.weight.tensor 1 1 .PD_MODE_SAME).dimAt 3) (site.weight.tensor.dimAt 3)
            (site.input.tensor.dimAt 3) 1 1 (kernelAt (padded 1) site.weight.tensor 1) 1)) = true := by
    decide +kernel
  have hsite0 : convSite imageOnly kernelOnly convNode (padded 1) (Model.new 0) Graph.new =
      .ok site := hsite
  rw [hsite0] at hsuit
  simp only [Except.toOption, Option.any_some, Bool.and_eq_true, decide_eq_true_eq] at hsuit
  obtain ⟨hheight, hwidth⟩ := hiff.mpr hsuit
  exact ⟨out, site, p, hout, hsite0, hptr, hheight, hwidth⟩

/-- **Wider pads**: with two cells on each side ONNX's output has 34 rows, the operator's 32. -/
theorem conv2d_size_pad2 :
    (convSite imageOnly kernelOnly convNode (padded 2) (Model.new 0) Graph.new).toOption.any
        (fun site => site.conv.tensor.dims == [1, 64, 32, 32]) = true ∧
      (conv2d imageOnly kernelOnly convNode (padded 2) (Model.new 0)
        Graph.new).toOption.isSome = true ∧
      specSize 32 2 2 3 1 = 34 := by
  decide +kernel

end Onnx

end Peps
