import Peps.Dbocg.ModelCalls
import Peps.Dbocg.NudfStep
import Peps.Lib.Windows

/-!
# The sizes of convolutions

A `Conv2D` infers the size of its output from the padding mode; `get_operator_attr` turns the mode
back into pads, and `get_or_create_conv2d` decides which operands are worth an operator at all. Both
are compared here with the sizes.

The pads of `SAME` are made even, which is one cell too many where the stride is 1 and the kernel
even; and those of the width are computed from the kernel's height (`pads_reproduce_iff`). A request
for a convolution that can not be is answered by an exception if the groups do not divide the output
channels, and not at all if the kernel is larger than the image (`conv2d_answers_iff`).
-/

namespace Peps

open Lib

/-! ## Extents -/

section Extents

variable {extent kernel stride : Int}

/-- The padding of one axis: what the kernel has more than the last step, made even. -/
def evenPad (extent kernel stride : Int) : Int :=
  max (kernel - Axis.tail extent stride) 0 + max (kernel - Axis.tail extent stride) 0 % 2

theorem padExtent_eq (hs : 0 < stride) (extent kernel : Int) :
    padExtent extent kernel stride = .ok (evenPad extent kernel stride) := by
  have hpad : (if extent % stride = 0 then max (kernel - stride) 0
      else max (kernel - extent % stride) 0) = max (kernel - Axis.tail extent stride) 0 := by
    unfold Axis.tail
    split <;> rfl
  unfold padExtent pyMod
  rw [if_neg (show stride ≠ 0 by omega), Int.fmod_eq_emod_of_nonneg _ (by omega)]
  show Except.ok _ = Except.ok _
  rw [hpad]
  unfold evenPad
  split <;> congr 1 <;> omega

theorem windowExtent_same (hs : 0 < stride) (extent kernel : Int) :
    windowExtent .PD_MODE_SAME extent kernel stride = .ok (Axis.sameSize extent stride) := by
  rw [windowExtent, pyFloorDiv, if_neg (by omega), Int.fdiv_eq_ediv_of_nonneg _ (by omega)]
  rfl

theorem windowExtent_valid (hs : 0 < stride) (extent kernel : Int) :
    windowExtent .PD_MODE_VALID extent kernel stride = .ok (Axis.validSize extent kernel stride) := by
  rw [windowExtent, pyFloorDiv, if_neg (by omega), Int.fdiv_eq_ediv_of_nonneg _ (by omega)]
  rfl

/-- The size a window operator infers for one axis. -/
def windowSize (padding : PaddingMode) (extent kernel stride : Int) : Int :=
  match padding with
  | .PD_MODE_SAME => Axis.sameSize extent stride
  | .PD_MODE_VALID => Axis.validSize extent kernel stride

theorem windowExtent_eq (hs : 0 < stride) (padding : PaddingMode) (extent kernel : Int) :
    windowExtent padding extent kernel stride = .ok (windowSize padding extent kernel stride) := by
  cases padding with
  | PD_MODE_SAME => exact windowExtent_same hs extent kernel
  | PD_MODE_VALID => exact windowExtent_valid hs extent kernel

/-- The even padding reproduces the size of the axis it was computed for, unless the stride is 1 and
the kernel even. -/
theorem evenPad_reproduces_iff (hs : 0 < stride) (hk : 0 < kernel) :
    Axis.validSize (extent + evenPad extent kernel stride) kernel stride =
        Axis.sameSize extent stride ↔ 2 ≤ stride ∨ kernel % 2 = 1 := by
  have hpos := Axis.tail_pos extent hs
  have hle := Axis.tail_le extent hs
  rw [Axis.validSize_eq_sameSize_iff hs]
  unfold evenPad
  omega

/-- The padding computed for another kernel reproduces the size in two cases: both kernels fit into
the last step, or the padded one is at most as much larger as the stride leaves room for. -/
theorem evenPad_other_iff (hs : 0 < stride) (hk : 0 < kernel) (other : Int) :
    Axis.validSize (extent + evenPad extent other stride) kernel stride =
        Axis.sameSize extent stride ↔
      if other ≤ Axis.tail extent stride then kernel ≤ Axis.tail extent stride
      else kernel ≤ other + (other - Axis.tail extent stride) % 2 ∧
        other + (other - Axis.tail extent stride) % 2 < kernel + stride := by
  have hle := Axis.tail_le extent hs
  rw [Axis.validSize_eq_sameSize_iff hs]
  unfold evenPad
  split <;> omega

/-! For steps of any sign both modes count what is left after the first window. -/

/-- What the first window leaves of an axis; with padding it counts as one cell. -/
def room (padding : PaddingMode) (extent kernel : Int) : Int :=
  match padding with
  | .PD_MODE_SAME => extent - 1
  | .PD_MODE_VALID => extent - kernel

theorem windowExtent_ok {padding : PaddingMode} {extent kernel stride size : Int}
    (h : windowExtent padding extent kernel stride = .ok size) :
    stride ≠ 0 ∧ size = (room padding extent kernel).fdiv stride + 1 := by
  cases padding with
  | PD_MODE_SAME =>
    obtain ⟨hs, rfl⟩ := pyFloorDiv_eq_ok.mp h
    have hsum : extent + stride - 1 = extent - 1 + stride := by omega
    refine ⟨hs, ?_⟩
    rw [hsum, Int.add_fdiv_of_dvd_right (Int.dvd_refl stride), Int.fdiv_self hs]
    rfl
  | PD_MODE_VALID =>
    simp only [windowExtent, bind_ok_iff, pyFloorDiv_eq_ok] at h
    obtain ⟨q, ⟨hs, rfl⟩, hret⟩ := h
    cases hret
    exact ⟨hs, rfl⟩

end Extents

/-! ## The pads of a convolution -/

/-- What `Conv2D.__init__` builds, whatever the strides. -/
theorem mkConv2D_made {addr : Nat × Nat} {input weight : Tensor} {strideH strideW : Int}
    {padding : PaddingMode} {activation : ActiMode} {p : OpBase}
    (h : mkConv2D addr input weight strideH strideW padding activation = .ok p) :
    p.type = .OP_CONV2D ∧ p.params = .conv2d strideH strideW padding activation ∧
      p.inputs = [input, weight] ∧ input.numDim = 4 ∧ weight.numDim = 4 ∧
      ∃ outputH outputW,
        windowExtent padding (input.dimAt 2) (weight.dimAt 2) strideH = .ok outputH ∧
        windowExtent padding (input.dimAt 3) (weight.dimAt 3) strideW = .ok outputW ∧
        p.output.dims = [input.dimAt 0, weight.dimAt 0, outputH, outputW] := by
  simp only [mkConv2D, bind_ok_iff, pyAssert_eq_ok, exists_const] at h
  obtain ⟨hi4, hw4, _, -, -, _, -, _, -, -, outputH, hH, outputW, hW, -, -, hp⟩ := h
  cases hp
  exact ⟨rfl, rfl, rfl, hi4, hw4, outputH, outputW, hH, hW, rfl⟩

theorem mkConv2D_ok {addr : Nat × Nat} {input weight : Tensor} {strideH strideW : Int}
    {padding : PaddingMode} {activation : ActiMode} {p : OpBase} (hH : 0 < strideH)
    (hW : 0 < strideW)
    (h : mkConv2D addr input weight strideH strideW padding activation = .ok p) :
    p.type = .OP_CONV2D ∧ p.params = .conv2d strideH strideW padding activation ∧
      p.inputs = [input, weight] ∧ input.numDim = 4 ∧ weight.numDim = 4 ∧
      p.output.dims = [input.dimAt 0, weight.dimAt 0,
        windowSize padding (input.dimAt 2) (weight.dimAt 2) strideH,
        windowSize padding (input.dimAt 3) (weight.dimAt 3) strideW] := by
  obtain ⟨htype, hparams, hinputs, hi4, hw4, outputH, outputW, hoH, hoW, hdims⟩ := mkConv2D_made h
  rw [windowExtent_eq hH] at hoH
  rw [windowExtent_eq hW] at hoW
  cases hoH
  cases hoW
  exact ⟨htype, hparams, hinputs, hi4, hw4, hdims⟩

theorem pads_same {op : Op} {p : OpBase} {strideH strideW : Int} {activation : ActiMode}
    (hp : op.ptr = some p) (hparams : p.params = .conv2d strideH strideW .PD_MODE_SAME activation)
    (hH : 0 < strideH) (hW : 0 < strideW) (hinputs : 0 < p.numInputs)
    (hfour : (p.inputAt 0).numDim = 4) :
    pads op = .ok
      (let padH := evenPad ((p.inputAt 0).dimAt 2) ((p.inputAt 1).dimAt 2) strideH
       let padW := evenPad ((p.inputAt 0).dimAt 3) ((p.inputAt 1).dimAt 2) strideW
       [padH / 2, padW / 2, padH - padH / 2, padW - padW / 2]) := by
  have hdim : ∀ i < 4, (p.inputAt 0).dims.getD i 0 = (p.inputAt 0).dimAt (i : Nat) := by
    intro i hi
    rw [List.getD_eq_getElem?_getD, Tensor.getElem?_dims (by omega), Option.getD_some]
  refine pads_of_extents hp hparams hinputs hfour ?_ ?_
  · rw [hdim 2 (by decide)]
    exact padExtent_eq hH _ _
  · rw [hdim 3 (by decide)]
    exact padExtent_eq hW _ _

/-- The pads of the width, which are computed for a kernel as wide as it is high, suit its width. -/
def WidthSuits (extent kernelH kernelW stride : Int) : Prop :=
  if kernelH ≤ Axis.tail extent stride then kernelW ≤ Axis.tail extent stride
  else kernelW ≤ kernelH + (kernelH - Axis.tail extent stride) % 2 ∧
    kernelH + (kernelH - Axis.tail extent stride) % 2 < kernelW + stride

/-- **The pads of a `SAME` convolution reproduce its size** exactly if the vertical stride is at least
2 or the kernel's height odd, and the pads of the width suit the kernel's width. -/
theorem pads_reproduce_iff (addr : Nat × Nat) (input weight : Tensor) (strideH strideW : Int)
    (activation : ActiMode) (p : OpBase) (op : Op)
    (hbuild : mkConv2D addr input weight strideH strideW .PD_MODE_SAME activation = .ok p)
    (hop : op.ptr = some p) (hkernel : 0 < weight.dimAt 2 ∧ 0 < weight.dimAt 3)
    (hstride : 0 < strideH ∧ 0 < strideW) :
    ∃ top left bottom right, pads op = .ok [top, left, bottom, right] ∧
      (((input.dimAt 2 + top + bottom - weight.dimAt 2) / strideH + 1 = p.output.dimAt 2 ∧
          (input.dimAt 3 + left + right - weight.dimAt 3) / strideW + 1 = p.output.dimAt 3) ↔
        (2 ≤ strideH ∨ weight.dimAt 2 % 2 = 1) ∧
          WidthSuits (input.dimAt 3) (weight.dimAt 2) (weight.dimAt 3) strideW) := by
  obtain ⟨-, hparams, hinputs, hi4, hw4, hdims⟩ := mkConv2D_ok hstride.1 hstride.2 hbuild
  have h0 : p.inputAt 0 = input := by rw [OpBase.inputAt, hinputs]; rfl
  have h1 : p.inputAt 1 = weight := by rw [OpBase.inputAt, hinputs]; rfl
  have hpads := pads_same hop hparams hstride.1 hstride.2
    (by rw [OpBase.numInputs, hinputs]; exact Nat.zero_lt_two) (by rw [h0]; exact hi4)
  rw [h0, h1] at hpads
  have hout2 : p.output.dimAt 2 = Axis.sameSize (input.dimAt 2) strideH :=
    Tensor.dimAt_of_getElem? (i := 2) (by rw [hdims]; rfl)
  have hout3 : p.output.dimAt 3 = Axis.sameSize (input.dimAt 3) strideW :=
    Tensor.dimAt_of_getElem? (i := 3) (by rw [hdims]; rfl)
  refine ⟨_, _, _, _, hpads, ?_⟩
  -- the two pads of an axis add up to its padding
  have hsum : ∀ extent pad : Int, extent + pad / 2 + (pad - pad / 2) = extent + pad := by
    intro extent pad
    omega
  rw [hout2, hout3, hsum, hsum]
  exact and_congr (evenPad_reproduces_iff hstride.1 hkernel.1)
    (evenPad_other_iff hstride.2 hkernel.2 _)

/-- A 3×3 convolution with padding. -/
def conv3x3 : Except PyError OpBase :=
  mkConv2D (0, 100) (plain4d 1 3 32 32) (plain4d 64 3 3 3) 1 1 .PD_MODE_SAME .AC_MODE_NONE

/-- A 2×2 one, whose pads have to be uneven. -/
def conv2x2 : Except PyError OpBase :=
  mkConv2D (0, 100) (plain4d 1 3 32 32) (plain4d 64 3 2 2) 1 1 .PD_MODE_SAME .AC_MODE_NONE

theorem pads_reproduce_conv3x3 :
    ∃ p top left bottom right, conv3x3 = .ok p ∧
      pads ⟨100, some p⟩ = .ok [top, left, bottom, right] ∧
      (32 + top + bottom - 3) / 1 + 1 = p.output.dimAt 2 ∧
      (32 + left + right - 3) / 1 + 1 = p.output.dimAt 3 := by
  obtain ⟨p, hp⟩ : ∃ p, conv3x3 = .ok p := ⟨_, rfl⟩
  obtain ⟨top, left, bottom, right, hpads, hiff⟩ :=
    pads_reproduce_iff _ _ _ _ _ _ p ⟨100, some p⟩ hp rfl (by decide) (by decide)
  have hcond : (2 ≤ (1 : Int) ∨ (plain4d 64 3 3 3).dimAt 2 % 2 = 1) ∧
      WidthSuits ((plain4d 1 3 32 32).dimAt 3) ((plain4d 64 3 3 3).dimAt 2)
        ((plain4d 64 3 3 3).dimAt 3) 1 := by
    unfold WidthSuits
    decide
  obtain ⟨hheight, hwidth⟩ := hiff.mpr hcond
  exact ⟨p, top, left, bottom, right, hp, hpads, hheight, hwidth⟩

/-- **One row and column too many**: 32 + 1 + 1 cells hold 33 windows of two, where 32 are inferred. -/
theorem pads_reproduce_conv2x2 :
    conv2x2.toOption.any (fun p =>
      (pads ⟨100, some p⟩).toOption == some [1, 1, 1, 1] && p.output.dimAt 2 == 32 &&
        (32 + 1 + 1 - 2) / 1 + 1 == (33 : Int)) = true := by
  decide +kernel

/-! ## Requests for convolutions -/

/-- The key of a convolution that passes the assertions. -/
def convKey (input weight : Tensor) (strideH strideW : Int) (padding : PaddingMode)
    (activation : ActiMode) : Key :=
  binaryKey [.int strideH, .int strideW, .padding padding, .acti activation]
    (Tensor.MAX_KEY_LENGTH * 2 + 4) input weight

/-- The request is refused, and nothing has changed, or it is answered by an operator with four
positive output dims. -/
def ConvAnswers (m : Model) (input weight : Tensor) (strideH strideW : Int) (padding : PaddingMode)
    (activation : ActiMode) : Prop :=
  ∃ op m', m.getOrCreateConv2d input weight strideH strideW padding activation = .ok (op, m') ∧
    ((op = Op.invalid ∧ m'.conv2d = m.conv2d ∧ m'.global_unique_id = m.global_unique_id) ∨
      ∃ p, op.ptr = some p ∧ p.output.numDim = 4 ∧ ∀ i < 4, 0 < p.output.dimAt (i : Nat))

/-- The input channels are not a multiple of the kernel's; or the groups divide the output channels,
and a body that is already there for the key has positive dims, or there is none, the height and width
are not split, and without padding the kernel is not larger than the image. -/
def ConvAnswerable (m : Model) (input weight : Tensor) (strideH strideW : Int)
    (padding : PaddingMode) (activation : ActiMode) : Prop :=
  input.dimAt 1 % weight.dimAt 1 ≠ 0 ∨
    weight.dimAt 0 % (input.dimAt 1 / weight.dimAt 1) = 0 ∧
      ((∃ p, lookupKey m.conv2d (convKey input weight strideH strideW padding activation) = some p ∧
          ∀ i < 4, 0 < p.output.dimAt (i : Nat)) ∨
        (lookupKey m.conv2d (convKey input weight strideH strideW padding activation) = none ∧
          input.splitAt 2 = SplitInfo.noSplit ∧ input.splitAt 3 = SplitInfo.noSplit ∧
          (padding = .PD_MODE_VALID →
            weight.dimAt 2 ≤ input.dimAt 2 ∧ weight.dimAt 3 ≤ input.dimAt 3)))

section Requests

variable {m : Model} {input weight : Tensor} {strideH strideW : Int} {padding : PaddingMode}
  {activation : ActiMode}

theorem pyMod_pos {a b : Int} (hb : 0 < b) : pyMod a b = .ok (a % b) := by
  rw [pyMod, if_neg (by omega), Int.fmod_eq_emod_of_nonneg _ (by omega)]

theorem pyFloorDiv_pos {a b : Int} (hb : 0 < b) : pyFloorDiv a b = .ok (a / b) := by
  rw [pyFloorDiv, if_neg (by omega), Int.fdiv_eq_ediv_of_nonneg _ (by omega)]

theorem groups_pos {c w : Int} (hc : 0 < c) (hw : 0 < w) (hmod : c % w = 0) : 0 < c / w :=
  Int.ediv_pos_of_pos_of_dvd hc (by omega) (Int.dvd_of_emod_eq_zero hmod)

theorem conv2d_refused (hw : 0 < weight.dimAt 1) (hmod : input.dimAt 1 % weight.dimAt 1 ≠ 0) :
    m.getOrCreateConv2d input weight strideH strideW padding activation = .ok (Op.invalid, m) := by
  unfold Model.getOrCreateConv2d
  rw [pyMod_pos hw]
  show (if input.dimAt 1 % weight.dimAt 1 ≠ 0 then _ else _) = _
  rw [if_pos hmod]
  rfl

theorem conv2DKey_eq (hc : 0 < input.dimAt 1) (hw : 0 < weight.dimAt 1)
    (hmod : input.dimAt 1 % weight.dimAt 1 = 0) :
    conv2DKey input weight strideH strideW padding activation =
      if weight.dimAt 0 % (input.dimAt 1 / weight.dimAt 1) = 0 then
        .ok (convKey input weight strideH strideW padding activation)
      else .error .assertionError := by
  unfold conv2DKey
  rw [pyMod_pos hw, pyFloorDiv_pos hw]
  show (pyAssert (input.dimAt 1 % weight.dimAt 1 = 0) >>= fun _ =>
    pyMod (weight.dimAt 0) (input.dimAt 1 / weight.dimAt 1) >>= fun _ => _) = _
  rw [pyAssert_of hmod, pyMod_pos (groups_pos hc hw hmod)]
  show (pyAssert (weight.dimAt 0 % (input.dimAt 1 / weight.dimAt 1) = 0) >>= fun _ => _) = _
  unfold pyAssert
  split <;> rfl

-- the test of the caller has let the operands through
theorem conv2d_keyed (hw : 0 < weight.dimAt 1) (hmod : input.dimAt 1 % weight.dimAt 1 = 0) :
    m.getOrCreateConv2d input weight strideH strideW padding activation =
      conv2DKey input weight strideH strideW padding activation >>= fun key =>
        lookupOrBuild m.conv2d key
          (mkConv2D m.nextAddr input weight strideH strideW padding activation) >>= fun out =>
        .ok ({ m with conv2d := out.2 }.wrap out.1) := by
  unfold Model.getOrCreateConv2d
  rw [pyMod_pos hw]
  show (if input.dimAt 1 % weight.dimAt 1 ≠ 0 then _ else _) = _
  rw [if_neg (not_not.mpr hmod)]
  rfl

theorem conv2d_comparable {made : List ModelCall} (hm : m.Honest made) :
    ∀ entry ∈ m.conv2d, keysComparable
      (convKey input weight strideH strideW padding activation) entry.1 = true := by
  rintro ⟨k, p⟩ hmem
  obtain ⟨r, -, hkey, hkind, -⟩ := hm.binary .conv2d k p hmem
  rw [← hkey]
  exact Request.keysComparable_key (r := .conv2d input weight strideH strideW padding activation)
    hkind.symm fun h => absurd h (by simp [Request.kind])

/-- What `Conv2D.__init__` asks for, the channels apart. -/
theorem mkConv2D_ok_iff {addr : Nat × Nat} (hH : 0 < strideH) (hW : 0 < strideW)
    (hc : 0 < input.dimAt 1) (hw : 0 < weight.dimAt 1)
    (hrank : input.numDim = 4 ∧ weight.numDim = 4)
    (hmod : input.dimAt 1 % weight.dimAt 1 = 0)
    (hgroups : weight.dimAt 0 % (input.dimAt 1 / weight.dimAt 1) = 0) :
    (∃ p, mkConv2D addr input weight strideH strideW padding activation = .ok p) ↔
      input.splitAt 2 = SplitInfo.noSplit ∧ input.splitAt 3 = SplitInfo.noSplit := by
  simp only [mkConv2D, bind_ok_iff, pyAssert_eq_ok, exists_const, pyMod_pos hw, pyFloorDiv_pos hw,
    windowExtent_eq hH, windowExtent_eq hW, Except.ok.injEq]
  constructor
  · rintro ⟨p, -, -, _, rfl, -, _, rfl, h⟩
    simp only [pyMod_pos (groups_pos hc hw hmod), Except.ok.injEq] at h
    obtain ⟨_, -, -, _, -, _, -, h2, h3, -⟩ := h
    exact ⟨h2, h3⟩
  · rintro ⟨h2, h3⟩
    refine ⟨_, hrank.1, hrank.2, _, rfl, hmod, _, rfl, _, pyMod_pos (groups_pos hc hw hmod), hgroups,
      _, rfl, _, rfl, h2, h3, rfl⟩

theorem windowSize_pos_iff {extent kernel stride : Int} (he : 0 < extent) (hs : 0 < stride) :
    0 < windowSize padding extent kernel stride ↔ (padding = .PD_MODE_VALID → kernel ≤ extent) := by
  cases padding with
  | PD_MODE_SAME =>
    have hpos : 1 ≤ (extent + stride - 1) / stride :=
      (Int.le_ediv_iff_mul_le hs).mpr (by omega)
    simp only [windowSize, Axis.sameSize, reduceCtorEq, false_implies, iff_true]
    omega
  | PD_MODE_VALID =>
    have hnonneg : 0 ≤ (extent - kernel) / stride ↔ 0 ≤ extent - kernel :=
      Int.ediv_nonneg_iff_of_pos hs
    simp only [windowSize, Axis.validSize, forall_const]
    omega

/-- A body in the table has an output of rank 4. -/
theorem conv2d_stored_rank {made : List ModelCall} (hm : m.Honest made) {key : Key} {p : OpBase}
    (hhit : lookupKey m.conv2d key = some p) : p.output.numDim = 4 := by
  obtain ⟨r, -, -, hkind, addr, hbuild⟩ := (hm.binary .conv2d).of_hit hhit
  cases r with
  | conv2d =>
    obtain ⟨-, -, -, -, -, outputH, outputW, -, -, hdims⟩ := mkConv2D_made hbuild
    rw [← Tensor.length_dims, hdims]
    rfl
  | element | matmul => exact absurd hkind (by simp [Request.kind])

/-- A body with four dims that are all positive. -/
theorem dims_pos_iff {p : OpBase} {d0 d1 d2 d3 : Int} (h : p.output.dims = [d0, d1, d2, d3]) :
    (∀ i < 4, 0 < p.output.dimAt (i : Nat)) ↔ 0 < d0 ∧ 0 < d1 ∧ 0 < d2 ∧ 0 < d3 := by
  have hget : ∀ (i : Nat) (d : Int), [d0, d1, d2, d3][i]? = some d → p.output.dimAt (i : Nat) = d :=
    fun i d hd => Tensor.dimAt_of_getElem? (by rw [h, hd])
  rw [← hget 0 d0 rfl, ← hget 1 d1 rfl, ← hget 2 d2 rfl, ← hget 3 d3 rfl]
  constructor
  · intro hall
    exact ⟨hall 0 (by decide), hall 1 (by decide), hall 2 (by decide), hall 3 (by decide)⟩
  · rintro ⟨h0, h1, h2, h3⟩ i hi
    have hcases : i = 0 ∨ i = 1 ∨ i = 2 ∨ i = 3 := by omega
    rcases hcases with rfl | rfl | rfl | rfl <;> assumption

/-- What the key is looked up for, if its assertions pass. -/
theorem conv2d_looked_up (hc : 0 < input.dimAt 1) (hw : 0 < weight.dimAt 1)
    (hmod : input.dimAt 1 % weight.dimAt 1 = 0)
    (hgroups : weight.dimAt 0 % (input.dimAt 1 / weight.dimAt 1) = 0) :
    m.getOrCreateConv2d input weight strideH strideW padding activation =
      lookupOrBuild m.conv2d (convKey input weight strideH strideW padding activation)
        (mkConv2D m.nextAddr input weight strideH strideW padding activation) >>= fun out =>
      .ok ({ m with conv2d := out.2 }.wrap out.1) := by
  rw [conv2d_keyed hw hmod, conv2DKey_eq hc hw hmod, if_pos hgroups]
  rfl

/-- The key of a request whose groups do not divide the output channels can not be built. -/
theorem conv2d_raises (hc : 0 < input.dimAt 1) (hw : 0 < weight.dimAt 1)
    (hmod : input.dimAt 1 % weight.dimAt 1 = 0)
    (hgroups : ¬ weight.dimAt 0 % (input.dimAt 1 / weight.dimAt 1) = 0) :
    m.getOrCreateConv2d input weight strideH strideW padding activation =
      .error .assertionError := by
  rw [conv2d_keyed hw hmod, conv2DKey_eq hc hw hmod, if_neg hgroups]
  rfl

/-- An answer that is wrapped is not `INVALID_OP`. -/
theorem convAnswers_of_looked_up {p : OpBase} {table : OpTable}
    (h : m.getOrCreateConv2d input weight strideH strideW padding activation =
      .ok ({ m with conv2d := table }.wrap p)) :
    ConvAnswers m input weight strideH strideW padding activation ↔
      p.output.numDim = 4 ∧ ∀ i < 4, 0 < p.output.dimAt (i : Nat) := by
  constructor
  · rintro ⟨op, m', hret, hgood⟩
    rw [h] at hret
    cases hret
    rcases hgood with ⟨hinvalid, -⟩ | ⟨p', hp', hdims⟩
    · exact absurd (congrArg Op.ptr hinvalid) (by simp [Op.invalid])
    · cases hp'
      exact hdims
  · intro hdims
    exact ⟨_, _, h, .inr ⟨p, rfl, hdims⟩⟩

/-- The body that is stored is returned as it is. -/
theorem convAnswers_hit {made : List ModelCall} (hm : m.Honest made) {p : OpBase}
    (hc : 0 < input.dimAt 1) (hw : 0 < weight.dimAt 1)
    (hmod : input.dimAt 1 % weight.dimAt 1 = 0)
    (hgroups : weight.dimAt 0 % (input.dimAt 1 / weight.dimAt 1) = 0)
    (hlook : lookupKey m.conv2d (convKey input weight strideH strideW padding activation) = some p) :
    ConvAnswers m input weight strideH strideW padding activation ↔
      ∀ i < 4, 0 < p.output.dimAt (i : Nat) := by
  have hrun : m.getOrCreateConv2d input weight strideH strideW padding activation =
      .ok ({ m with conv2d := m.conv2d }.wrap p) := by
    rw [conv2d_looked_up hc hw hmod hgroups, lookupOrBuild, hlook]
    rfl
  rw [convAnswers_of_looked_up hrun]
  exact and_iff_right (conv2d_stored_rank hm hlook)

/-- Without one, a body is built from the operands. -/
theorem convAnswers_miss {made : List ModelCall} (hm : m.Honest made)
    (hrank : input.numDim = 4 ∧ weight.numDim = 4)
    (hpos : ∀ i < 4, 0 < input.dimAt (i : Nat) ∧ 0 < weight.dimAt (i : Nat))
    (hstride : 0 < strideH ∧ 0 < strideW) (hmod : input.dimAt 1 % weight.dimAt 1 = 0)
    (hgroups : weight.dimAt 0 % (input.dimAt 1 / weight.dimAt 1) = 0)
    (hlook : lookupKey m.conv2d (convKey input weight strideH strideW padding activation) = none) :
    ConvAnswers m input weight strideH strideW padding activation ↔
      input.splitAt 2 = SplitInfo.noSplit ∧ input.splitAt 3 = SplitInfo.noSplit ∧
        (padding = .PD_MODE_VALID →
          weight.dimAt 2 ≤ input.dimAt 2 ∧ weight.dimAt 3 ≤ input.dimAt 3) := by
  obtain ⟨hi0, hw0⟩ : 0 < input.dimAt 0 ∧ 0 < weight.dimAt 0 := hpos 0 (by decide)
  obtain ⟨hi1, hw1⟩ : 0 < input.dimAt 1 ∧ 0 < weight.dimAt 1 := hpos 1 (by decide)
  have hi2 : 0 < input.dimAt 2 := (hpos 2 (by decide)).1
  have hi3 : 0 < input.dimAt 3 := (hpos 3 (by decide)).1
  have hok := @mkConv2D_ok_iff input weight strideH strideW padding activation m.nextAddr hstride.1
    hstride.2 hi1 hw1 hrank hmod hgroups
  cases hbuild : mkConv2D m.nextAddr input weight strideH strideW padding activation with
  | error e =>
    have hsplit : ¬ (input.splitAt 2 = SplitInfo.noSplit ∧ input.splitAt 3 = SplitInfo.noSplit) := by
      intro h
      obtain ⟨p, hp⟩ := hok.mpr h
      rw [hbuild] at hp
      cases hp
    constructor
    · rintro ⟨op, m', hret, -⟩
      rw [conv2d_looked_up hi1 hw1 hmod hgroups, lookupOrBuild, hlook, hbuild] at hret
      cases hret
    · rintro ⟨h2, h3, -⟩
      exact absurd ⟨h2, h3⟩ hsplit
  | ok p =>
    obtain ⟨-, -, -, -, -, hdims⟩ := mkConv2D_ok hstride.1 hstride.2 hbuild
    have hrank4 : p.output.numDim = 4 := by
      rw [← Tensor.length_dims, hdims]
      rfl
    obtain ⟨⟨q, table⟩, hrun⟩ := lookupOrBuild_ok (p := p) (conv2d_comparable hm)
    have hq : q = p := by
      rcases lookupOrBuild_cases hrun with ⟨hhit, -⟩ | ⟨hnew, -⟩
      · rw [hlook] at hhit
        cases hhit
      · exact (Except.ok.inj hnew).symm
    subst hq
    have hanswer : m.getOrCreateConv2d input weight strideH strideW padding activation =
        .ok ({ m with conv2d := table }.wrap q) := by
      rw [conv2d_looked_up hi1 hw1 hmod hgroups, hbuild, hrun]
      rfl
    rw [convAnswers_of_looked_up hanswer, dims_pos_iff hdims, windowSize_pos_iff hi2 hstride.1,
      windowSize_pos_iff hi3 hstride.2]
    obtain ⟨h2, h3⟩ := hok.mp ⟨q, hbuild⟩
    constructor
    · rintro ⟨-, -, -, hheight, hwidth⟩
      exact ⟨h2, h3, fun hvalid => ⟨hheight hvalid, hwidth hvalid⟩⟩
    · rintro ⟨-, -, hfits⟩
      exact ⟨hrank4, hi0, hw0, fun hvalid => (hfits hvalid).1, fun hvalid => (hfits hvalid).2⟩

end Requests

/-- **A request for a convolution of 4-D tensors is refused or answered properly, in any state a
`Model` can be in, exactly if it is answerable**; otherwise it raises or the operator has an output
dim that is not positive. -/
theorem conv2d_answers_iff (tag : Nat) (calls : List ModelCall) (input weight : Tensor)
    (strideH strideW : Int) (padding : PaddingMode) (activation : ActiMode)
    (hrank : input.numDim = 4 ∧ weight.numDim = 4)
    (hpos : ∀ i < 4, 0 < input.dimAt (i : Nat) ∧ 0 < weight.dimAt (i : Nat))
    (hstride : 0 < strideH ∧ 0 < strideW) :
    ConvAnswers ((Model.new tag).afterCalls calls) input weight strideH strideW padding activation ↔
      ConvAnswerable ((Model.new tag).afterCalls calls) input weight strideH strideW padding
        activation := by
  have hm := Model.honest_after tag calls
  obtain ⟨m, hmodel⟩ : ∃ m, m = (Model.new tag).afterCalls calls := ⟨_, rfl⟩
  rw [← hmodel] at hm ⊢
  obtain ⟨hi1, hw1⟩ : 0 < input.dimAt 1 ∧ 0 < weight.dimAt 1 := hpos 1 (by decide)
  unfold ConvAnswerable
  by_cases hmod : input.dimAt 1 % weight.dimAt 1 = 0
  · rw [or_iff_right (not_not.mpr hmod)]
    by_cases hgroups : weight.dimAt 0 % (input.dimAt 1 / weight.dimAt 1) = 0
    · rw [and_iff_right hgroups]
      cases hlook : lookupKey m.conv2d (convKey input weight strideH strideW padding activation) with
      | some p => simp [convAnswers_hit hm hi1 hw1 hmod hgroups hlook]
      | none => simp [convAnswers_miss hm hrank hpos hstride hmod hgroups hlook]
    · constructor
      · rintro ⟨op, m', hret, -⟩
        rw [conv2d_raises hi1 hw1 hmod hgroups] at hret
        cases hret
      · rintro ⟨hdvd, -⟩
        exact absurd hdvd hgroups
  · exact ⟨fun _ => .inl hmod, fun _ => ⟨Op.invalid, m, conv2d_refused hw1 hmod, .inl ⟨rfl, rfl, rfl⟩⟩⟩

/-- A 3×3 convolution of a fresh model. -/
theorem conv2d_answers_plain :
    ConvAnswers (Model.new 0) (plain4d 1 3 32 32) (plain4d 64 3 3 3) 1 1 .PD_MODE_SAME
      .AC_MODE_NONE :=
  (conv2d_answers_iff 0 [] (plain4d 1 3 32 32) (plain4d 64 3 3 3) 1 1 .PD_MODE_SAME .AC_MODE_NONE
    ⟨rfl, rfl⟩ (by decide) (by decide)).mpr
    (.inr ⟨rfl, .inr ⟨rfl, rfl, rfl, fun h => PaddingMode.noConfusion h⟩⟩)

/-- **Three groups of a kernel with four outputs**: the test of `get_or_create_conv2d` lets the
operands through, and the key raises; and a kernel of five rows over an image of three gives an
operator with an output of -1 rows. -/
theorem conv2d_answers_grouped :
    (Model.new 0).getOrCreateConv2d (plain4d 1 6 8 8) (plain4d 4 2 3 3) 1 1 .PD_MODE_SAME
        .AC_MODE_NONE = .error .assertionError ∧
      ((Model.new 0).getOrCreateConv2d (plain4d 1 3 3 3) (plain4d 4 3 5 5) 1 1 .PD_MODE_VALID
        .AC_MODE_NONE).toOption.any (fun out =>
          out.1.ptr.any fun p => p.output.dimAt 2 == -1) = true := by
  refine ⟨rfl, ?_⟩
  decide +kernel

end Peps
