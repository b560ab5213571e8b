import Mathlib.Algebra.CharZero.Defs
import Peps.Dbocg.ConvSizes
import Peps.Kernel.FusedPool

/-!
# The call that a pooling becomes

`export` writes `avgpool(I.value, kernel:=k)` for an `AveragePool`, and nothing about its strides and
padding; the SQL function then pads by 0 and moves by 2. `Pool2D` has inferred its size from its own
strides and padding mode.

The elements of the call are the averages of the operator's windows exactly if there is nothing to pad
and the strides are 2, or both take only one window (`avgpool_call_iff`); with a kernel larger than
the image the result has no element, or some that nothing was stored in.
-/

namespace Peps

open Lib

/-! ## Windows -/

/-- The positions of a `w × w` image under the `k × k` window with this corner. -/
def windowAt (w k : Nat) (row col : Int) : Finset (Nat × Nat) :=
  (Finset.range w ×ˢ Finset.range w).filter fun q =>
    (row ≤ q.1 ∧ (q.1 : Int) < row + k) ∧ col ≤ q.2 ∧ (q.2 : Int) < col + k

theorem mem_windowAt {w k : Nat} {row col : Int} {y x : Nat} :
    (y, x) ∈ windowAt w k row col ↔
      (y < w ∧ x < w) ∧ (row ≤ y ∧ (y : Int) < row + k) ∧ col ≤ x ∧ (x : Int) < col + k := by
  simp [windowAt]

/-- The windows of the loops without padding. -/
theorem imageWindow_eq_windowAt (w k s i j : Nat) :
    imageWindow w k 0 s i j = windowAt w k ((i : Int) * s) ((j : Int) * s) := by
  ext ⟨y, x⟩
  rw [mem_windowAt, imageWindow, Finset.mem_filter, Finset.mem_product, Finset.mem_range,
    Finset.mem_range]
  have hi : ((i * s : Nat) : Int) = (i : Int) * s := Nat.cast_mul i s
  have hj : ((j * s : Nat) : Int) = (j : Int) * s := Nat.cast_mul j s
  simp only
  omega

/-- A window inside the image is told from all others. -/
theorem corner_eq_of_windowAt_eq {w k : Nat} {row col : Int} {i j : Nat} (hk : 1 ≤ k)
    (hi : i + k ≤ w) (hj : j + k ≤ w) (h : windowAt w k row col = windowAt w k i j) :
    row = i ∧ col = j := by
  have hfirst : (i, j) ∈ windowAt w k row col := by
    rw [h, mem_windowAt]
    omega
  have hlast : (i + k - 1, j + k - 1) ∈ windowAt w k row col := by
    rw [h, mem_windowAt]
    omega
  rw [mem_windowAt] at hfirst hlast
  omega

section Means

variable {α : Type} [Field α]

/-- The average of the pixels at these positions; what a window has outside the image counts as 0. -/
def windowMean (input : ArrayType α) (w k ch : Nat) (positions : Finset (Nat × Nat)) : α :=
  (∑ q ∈ positions, pixel input w ch q) / ((k : α) * k)

/-- An image that is 1 at one position of its first channel. -/
def spot (channels w : Nat) (mark : Nat × Nat) : ArrayType α :=
  ArrayType.matrix channels ((w : Int) * w)
    ((List.range (channels * (w * w))).map fun n => if n = mark.1 * w + mark.2 then 1 else 0) fun _ => 0

theorem length_spot (channels w : Nat) (mark : Nat × Nat) :
    (spot (α := α) channels w mark).data.length = channels * (w * w) := by
  simp [spot, ArrayType.matrix]

theorem pixel_spot {channels w : Nat} (hc : 1 ≤ channels) {mark q : Nat × Nat}
    (ha : mark.2 < w) (hq : q.1 < w ∧ q.2 < w) :
    pixel (spot (α := α) channels w mark) w 0 q = if q = mark then 1 else 0 := by
  have hlt : q.1 * w + q.2 < channels * (w * w) := by
    have h1 : q.1 * w + q.2 < w * w := slot_lt hq.1 hq.2
    have h2 : 1 * (w * w) ≤ channels * (w * w) := Nat.mul_le_mul_right _ hc
    omega
  have hpos : 0 * (w * w) + (q.1 * w + q.2) = q.1 * w + q.2 := by omega
  rw [pixel, hpos, ArrayType.elem_of_lt _ (by simpa [spot, ArrayType.matrix] using hlt)]
  simp only [spot, ArrayType.matrix, List.getElem_map, List.getElem_range]
  have hiff : q.1 * w + q.2 = mark.1 * w + mark.2 ↔ q = mark := by
    rw [slot_inj hq.2 ha, Prod.ext_iff]
  simp only [hiff]

variable [CharZero α]

/-- Two windows with the same average in every image are the same. -/
theorem windowAt_eq_of_means {channels w k : Nat} (hc : 1 ≤ channels) (hk : 1 ≤ k)
    {row col row' col' : Int}
    (h : ∀ input : ArrayType α, input.dims = [(channels : Int), (w : Int) * w] →
      input.data.length = channels * (w * w) →
      windowMean input w k 0 (windowAt w k row col) =
        windowMean input w k 0 (windowAt w k row' col')) :
    windowAt w k row col = windowAt w k row' col' := by
  have hk0 : (k : α) * k ≠ 0 := by
    have : (k : α) ≠ 0 := Nat.cast_ne_zero.mpr (by omega)
    exact mul_ne_zero this this
  ext q
  by_cases hq : q.1 < w ∧ q.2 < w
  · have hsum : ∀ row col : Int, (∑ r ∈ windowAt w k row col,
        pixel (spot (α := α) channels w q) w 0 r) = if q ∈ windowAt w k row col then 1 else 0 := by
      intro row col
      rw [Finset.sum_congr rfl fun r hr => ?_, Finset.sum_ite_eq' _ q]
      obtain ⟨y, x⟩ := r
      exact pixel_spot hc hq.2 (mem_windowAt.mp hr).1
    have hmean := h (spot channels w q) rfl (length_spot ..)
    rw [windowMean, windowMean, hsum, hsum, div_left_inj' hk0] at hmean
    by_cases hin : q ∈ windowAt w k row col <;> by_cases hin' : q ∈ windowAt w k row' col' <;>
      simp_all
  · obtain ⟨y, x⟩ := q
    rw [mem_windowAt, mem_windowAt]
    exact iff_of_false (fun hin => hq hin.1) fun hin => hq hin.1

end Means

/-! ## The call -/

section Call

variable {α : Type} [Field α]

/-- What the call of a pooling's command returns: the arguments that are not passed are those of the
declaration in `aqua--0.0.1.sql`. -/
def callAvgpool (env : KernelEnv α) (input : ArrayType α) :
    Command → Option (Except PgError (ArrayType α))
  | .avgpool _ kernel => some (avgpool env input kernel 0 2)
  | _ => none

/-- The elements of every channel are the averages of the windows of an `oh × ow` output, row by
row. -/
def PooledAs (out input : ArrayType α) (channels w k : Nat) (top left strideH strideW oh ow : Int) :
    Prop :=
  out.dims = [(channels : Int), oh * ow] ∧
    ∀ ch < channels, ∀ e : Nat, (e : Int) < oh * ow → 0 < ow ∧
      out.data[ch * (oh * ow).toNat + e]? = some (windowMean input w k ch
        (windowAt w k (e / ow * strideH - top) (e % ow * strideW - left)))

variable {input : ArrayType α} {channels w k : Nat}

/-- The call on an image at least as large as the kernel. -/
theorem avgpool_fits (env : KernelEnv α) (hdims : input.dims = [(channels : Int), (w : Int) * w])
    (hk : k ≤ w) :
    ∃ out, avgpool env input k 0 2 = .ok out ∧
      PooledAs out input channels w k 0 0 2 2 (outSide w 0 k 2 : Nat) (outSide w 0 k 2 : Nat) := by
  obtain ⟨avg_data, hcore, -, hrun⟩ := avgpool_eq (p := 0) (s := 2) env hdims (by decide)
    (by omega : k ≤ w + 2 * 0)
  obtain ⟨avg_data', hcore', -, hcells⟩ := getElem?_avgpoolCore (p := 0) (s := 2) input (by decide)
    (by omega : k ≤ w + 2 * 0) (length_palloc_square env (outSide w 0 k 2) channels)
  rw [Nat.cast_mul, hcore] at hcore'
  cases hcore'
  refine ⟨_, hrun, rfl, fun ch hch e he => ?_⟩
  have ho : 0 < outSide w 0 k 2 := Nat.succ_pos _
  have hlt : e < outSide w 0 k 2 * outSide w 0 k 2 := by exact_mod_cast he
  refine ⟨by exact_mod_cast ho, ?_⟩
  have hcell := hcells ch hch (e / outSide w 0 k 2) ((Nat.div_lt_iff_lt_mul ho).mpr hlt)
    (e % outSide w 0 k 2) (Nat.mod_lt e ho)
  rw [Nat.div_add_mod', imageWindow_eq_windowAt] at hcell
  rw [← Nat.cast_mul, Int.toNat_natCast, sub_zero, sub_zero, windowMean]
  exact hcell

/-- The call on a smaller one: the loops make no round, and the elements are what was in memory. -/
theorem avgpool_outgrown (env : KernelEnv α) (hdims : input.dims = [(channels : Int), (w : Int) * w])
    (hk : w < k) :
    avgpool env input k 0 2 = .ok (ArrayType.matrix channels
      (outExtent w 0 k 2 * outExtent w 0 k 2)
      (env.palloc (outExtent w 0 k 2 * outExtent w 0 k 2 * channels)) env.junk) := by
  have h0 : input.dimWord 0 = channels := by simp [ArrayType.dimWord, hdims]
  have h1 : input.dimWord 1 = (w : Int) * w := by simp [ArrayType.dimWord, hdims]
  have hsteps : steps 0 ((w : Int) + 0 - k + 1) 2 = [] :=
    steps_eq_range (n := 0) (by decide) (.inl rfl) (by omega)
  have hcorners : poolCorners (w : Int) w k 0 2 = [] := by
    rw [poolCorners, neg_zero, hsteps]
    rfl
  have hfill : ∀ (pos : Nat → Nat) (buf : List α) (cs : List Nat),
      fillTiles pos (poolRow input.elem w w k 0 2) buf cs = buf := by
    intro pos buf cs
    refine List.ext_getElem? fun n => getElem?_fillTiles_frame (fun c _ => ?_) buf
    rw [poolRow, hcorners]
    show n < pos c ∨ pos c + 0 ≤ n
    omega
  unfold avgpool
  simp only [h0, h1, side_sq, if_neg (show ¬ (2 : Int) = 0 by decide)]
  rw [avgpoolCore, if_neg (by omega), hfill]
  rfl

end Call

/-! ## The operator -/

/-- The padding of an axis is 0. -/
def NothingPadded (padding : PaddingMode) (extent kernel stride : Int) : Prop :=
  padding = .PD_MODE_SAME → 0 < stride ∧ kernel ≤ Axis.tail extent stride

theorem sidePad_eq_zero_iff {padding : PaddingMode} {extent kernel stride : Int} (hs : stride ≠ 0)
    (hk : 1 ≤ kernel) :
    sidePad padding extent kernel stride = 0 ↔ NothingPadded padding extent kernel stride := by
  cases padding with
  | PD_MODE_VALID => exact iff_of_true rfl fun h => PaddingMode.noConfusion h
  | PD_MODE_SAME =>
    simp only [sidePad, NothingPadded, forall_const]
    rcases Int.lt_or_gt_of_ne hs with hneg | hpos
    · -- a remainder of a negative stride leaves the whole kernel to be padded
      refine iff_of_false ?_ fun h => by omega
      have hrest := Axis.isResidue_fmod hs extent
      unfold Axis.IsResidue at hrest
      unfold padExtent pyMod
      rw [if_neg hs]
      show ¬ (Except.toOption (Except.ok _)).getD 0 / 2 = 0
      simp only [Except.toOption, Option.getD_some]
      split <;> split <;> omega
    · have htail := Axis.tail_le extent hpos
      rw [padExtent_eq hpos]
      simp only [Except.toOption, Option.getD_some, evenPad]
      omega

/-- The mode and the strides say what the call does: nothing is padded, and the strides are 2 or there
is one window only; or the kernel is two or three cells larger than the image, and the output has no
rows or no columns. -/
def CallAgrees (padding : PaddingMode) (w k : Nat) (strideH strideW : Int) : Prop :=
  if k ≤ w then
    NothingPadded padding w k strideH ∧ NothingPadded padding w k strideW ∧
      ((strideH = 2 ∧ strideW = 2) ∨
        (w < k + 2 ∧ Axis.IsResidue strideH (room padding w k) ∧
          Axis.IsResidue strideW (room padding w k)))
  else
    (k = w + 2 ∨ k = w + 3) ∧
      (Axis.IsResidue strideH (room padding w k + strideH) ∨
        Axis.IsResidue strideW (room padding w k + strideW))

section Sizes

variable {padding : PaddingMode} {w k : Nat} {stride : Int}

theorem size_eq_one_iff (hs : stride ≠ 0) {r : Int} :
    r.fdiv stride + 1 = 1 ↔ Axis.IsResidue stride r := by
  have h := Axis.fdiv_eq_iff (a := r) (q := 0) hs
  rw [zero_mul, sub_zero] at h
  rw [← h]
  constructor <;> intro h <;> omega

theorem size_eq_zero_iff (hs : stride ≠ 0) {r : Int} :
    r.fdiv stride + 1 = 0 ↔ Axis.IsResidue stride (r + stride) := by
  have h := Axis.fdiv_eq_iff (a := r) (q := -1) hs
  rw [neg_one_mul, sub_neg_eq_add] at h
  rw [← h]
  constructor <;> intro h <;> omega

/-- A stride of 2 gives the size of the call, if nothing is padded. -/
theorem size_stride_two (hk1 : 1 ≤ k) (hk : k ≤ w) (hpad : NothingPadded padding w k 2) :
    (room padding w k).fdiv 2 + 1 = (outSide w 0 k 2 : Nat) := by
  rw [Int.fdiv_eq_ediv_of_nonneg _ (by decide), outSide]
  cases padding with
  | PD_MODE_VALID =>
    show ((w : Int) - k) / 2 + 1 = _
    omega
  | PD_MODE_SAME =>
    obtain ⟨-, htail⟩ := hpad rfl
    unfold Axis.tail at htail
    show ((w : Int) - 1) / 2 + 1 = _
    split at htail <;> omega

/-- The size of the call is 0 for kernels two or three cells too large. -/
theorem outExtent_eq_zero_iff (hk : w < k) : outExtent w 0 k 2 = 0 ↔ k = w + 2 ∨ k = w + 3 := by
  have hneg : (w : Int) + 2 * 0 - k = -((k - w : Nat) : Int) := by omega
  rw [outExtent, hneg, Int.neg_tdiv, Int.tdiv_eq_ediv_of_nonneg (by omega)]
  omega

end Sizes

section Refinement

variable (α : Type) [Field α]

/-- The call that `export` writes for `op` returns, for any image, the elements of the pooling with
these parameters. -/
def CallPools (op : Op) (names : List String) (skip_nodes : String → Option String)
    (channels w k : Nat) (padding : PaddingMode) (strideH strideW oh ow : Int) : Prop :=
  ∃ mytype command skip_nodes', getOperatorType op = .ok mytype ∧
    exportCommand op mytype names skip_nodes = .ok (some command, skip_nodes') ∧
    ∀ (env : KernelEnv α) (input : ArrayType α),
      input.dims = [(channels : Int), (w : Int) * w] → input.data.length = channels * (w * w) →
        ∃ out, callAvgpool env input command = some (.ok out) ∧
          PooledAs out input channels w k (sidePad padding w k strideH) (sidePad padding w k strideW)
            strideH strideW oh ow

variable {α} {op : Op} {p : OpBase} {names : List String} {skip_nodes : String → Option String}
  {channels w k : Nat} {padding : PaddingMode} {strideH strideW oh ow : Int}

/-- What is written for a pooling. -/
theorem export_avgpool (name : String) (rest : List String) {kernelW : Int} {activation : ActiMode}
    (skip_nodes : String → Option String) (hp : op.ptr = some p) (htype : p.type = .OP_POOL2D_AVG)
    (hparams : p.params = .pool2d k kernelW strideH strideW padding activation) :
    getOperatorType op = .ok "AveragePool" ∧
      exportCommand op "AveragePool" (name :: rest) skip_nodes =
        .ok (some (.avgpool name k), skip_nodes) := by
  constructor
  · rw [getOperatorType, Op.body, hp]
    show lookupOr _ (opTable p.type) = _
    rw [htype]
    rfl
  · show (kernelShape op >>= fun _ => lookupOr _ (name :: rest)[0]? >>= fun _ => _) = _
    rw [kernelShape_pool2d hp hparams]
    rfl

/-- The call has only the kernel, so only what it does with that matters. -/
theorem callPools_iff {name : String} {rest : List String} {kernelW : Int} {activation : ActiMode}
    (hp : op.ptr = some p) (htype : p.type = .OP_POOL2D_AVG)
    (hparams : p.params = .pool2d k kernelW strideH strideW padding activation) :
    CallPools α op (name :: rest) skip_nodes channels w k padding strideH strideW oh ow ↔
      ∀ (env : KernelEnv α) (input : ArrayType α),
        input.dims = [(channels : Int), (w : Int) * w] → input.data.length = channels * (w * w) →
          ∃ out, avgpool env input k 0 2 = .ok out ∧
            PooledAs out input channels w k (sidePad padding w k strideH)
              (sidePad padding w k strideW) strideH strideW oh ow := by
  obtain ⟨hname, hexport⟩ := export_avgpool name rest skip_nodes hp htype hparams
  constructor
  · rintro ⟨mytype, command, skip', hm, hc, hall⟩ env input hdims hlen
    rw [hname] at hm
    cases hm
    rw [hexport] at hc
    cases hc
    obtain ⟨out, hout, hpooled⟩ := hall env input hdims hlen
    exact ⟨out, Option.some.inj hout, hpooled⟩
  · intro hall
    refine ⟨_, _, _, hname, hexport, fun env input hdims hlen => ?_⟩
    obtain ⟨out, hout, hpooled⟩ := hall env input hdims hlen
    exact ⟨out, congrArg some hout, hpooled⟩

variable [CharZero α]

/-- The windows of the operator are those of the call, element by element. -/
theorem corners_of_pooled {top left : Int} (hc : 1 ≤ channels) (hk1 : 1 ≤ k) (hk : k ≤ w)
    (hall : ∀ (env : KernelEnv α) (input : ArrayType α),
      input.dims = [(channels : Int), (w : Int) * w] → input.data.length = channels * (w * w) →
        ∃ out, avgpool env input k 0 2 = .ok out ∧
          PooledAs out input channels w k top left strideH strideW oh ow) :
    oh * ow = ((outSide w 0 k 2 * outSide w 0 k 2 : Nat) : Int) ∧
      ∀ e < outSide w 0 k 2 * outSide w 0 k 2, 0 < ow ∧
        e / ow * strideH - top = (e / outSide w 0 k 2 : Nat) * 2 ∧
        e % ow * strideW - left = (e % outSide w 0 k 2 : Nat) * 2 := by
  obtain ⟨o, ho⟩ : ∃ o, o = outSide w 0 k 2 := ⟨_, rfl⟩
  have hside : (o - 1) * 2 + k ≤ w := by
    rw [ho, outSide]
    omega
  rw [← ho]
  -- the sizes are the same for every image
  have hboth : ∀ (env : KernelEnv α) (input : ArrayType α),
      input.dims = [(channels : Int), (w : Int) * w] → input.data.length = channels * (w * w) →
      oh * ow = ((o * o : Nat) : Int) ∧ ∀ e < o * o, 0 < ow ∧
        windowMean input w k 0 (windowAt w k (e / ow * strideH - top) (e % ow * strideW - left)) =
          windowMean input w k 0 (windowAt w k ((e / o * 2 : Nat) : Int) ((e % o * 2 : Nat) : Int)) := by
    intro env input hdims hlen
    obtain ⟨out, hrun, hpooled⟩ := hall env input hdims hlen
    obtain ⟨out', hrun', hcall⟩ := avgpool_fits env hdims hk
    rw [hrun] at hrun'
    cases hrun'
    rw [← ho] at hcall
    have hsize : oh * ow = ((o * o : Nat) : Int) := by
      have hdims' := hpooled.1.symm.trans hcall.1
      simp only [List.cons.injEq, and_true, true_and] at hdims'
      rw [hdims', Nat.cast_mul]
    refine ⟨hsize, fun e he => ?_⟩
    obtain ⟨hpos, hcell⟩ := hpooled.2 0 (by omega) e (by rw [hsize]; exact_mod_cast he)
    obtain ⟨-, hcell'⟩ := hcall.2 0 (by omega) e (by rw [← Nat.cast_mul]; exact_mod_cast he)
    rw [hsize, Nat.zero_mul] at hcell
    rw [← Nat.cast_mul, Nat.zero_mul, hcell] at hcell'
    refine ⟨hpos, (Option.some.inj hcell').trans ?_⟩
    push_cast
    rw [sub_zero, sub_zero]
  have hsize := (hboth ⟨none, fun _ _ _ _ _ => [], fun _ => 0⟩ (spot channels w (0, 0)) rfl
    (length_spot ..)).1
  refine ⟨hsize, fun e he => ?_⟩
  have hpos : 0 < ow := ((hboth ⟨none, fun _ _ _ _ _ => [], fun _ => 0⟩ (spot channels w (0, 0)) rfl
    (length_spot ..)).2 e he).1
  have hopos : 0 < o := by
    rcases Nat.eq_zero_or_pos o with rfl | h
    · omega
    · exact h
  have hdiv : e / o < o := (Nat.div_lt_iff_lt_mul hopos).mpr he
  have hmod : e % o < o := Nat.mod_lt e hopos
  have hwindow := windowAt_eq_of_means (α := α) hc hk1 fun input hdims hlen =>
    ((hboth ⟨none, fun _ _ _ _ _ => [], fun _ => 0⟩ input hdims hlen).2 e he).2
  obtain ⟨hrow, hcol⟩ := corner_eq_of_windowAt_eq hk1 (by omega) (by omega) hwindow
  refine ⟨hpos, ?_, ?_⟩
  · rw [hrow]
    push_cast
    rfl
  · rw [hcol]
    push_cast
    rfl

/-- An image at least as large as the kernel. -/
theorem pools_iff_fits (hc : 1 ≤ channels) (hk1 : 1 ≤ k) (hk : k ≤ w) (hsH : strideH ≠ 0)
    (hsW : strideW ≠ 0) :
    (∀ (env : KernelEnv α) (input : ArrayType α),
      input.dims = [(channels : Int), (w : Int) * w] → input.data.length = channels * (w * w) →
        ∃ out, avgpool env input k 0 2 = .ok out ∧
          PooledAs out input channels w k (sidePad padding w k strideH) (sidePad padding w k strideW)
            strideH strideW ((room padding w k).fdiv strideH + 1)
            ((room padding w k).fdiv strideW + 1)) ↔
      NothingPadded padding w k strideH ∧ NothingPadded padding w k strideW ∧
        ((strideH = 2 ∧ strideW = 2) ∨
          (w < k + 2 ∧ Axis.IsResidue strideH (room padding w k) ∧
            Axis.IsResidue strideW (room padding w k))) := by
  have hk' : (1 : Int) ≤ k := by omega
  rw [← sidePad_eq_zero_iff hsH hk', ← sidePad_eq_zero_iff hsW hk', ← size_eq_one_iff hsH,
    ← size_eq_one_iff hsW]
  obtain ⟨o, ho⟩ : ∃ o, o = outSide w 0 k 2 := ⟨_, rfl⟩
  have hone : o = 1 ↔ w < k + 2 := by
    rw [ho, outSide]
    omega
  have hopos : 0 < o := by
    rw [ho]
    exact Nat.succ_pos _
  constructor
  · intro hall
    obtain ⟨hsize, hcorners⟩ := corners_of_pooled hc hk1 hk hall
    rw [← ho] at hsize hcorners
    -- the first window says that nothing is padded
    obtain ⟨hpos, htop, hleft⟩ := hcorners 0 (Nat.mul_pos hopos hopos)
    simp only [Nat.cast_zero, Int.zero_ediv, Int.zero_emod, Nat.zero_div, Nat.zero_mod, zero_mul,
      zero_sub, neg_eq_zero] at htop hleft
    refine ⟨htop, hleft, ?_⟩
    rcases Nat.lt_or_ge o 2 with hlt | hge
    · -- one window
      have ho1 : o = 1 := by omega
      rw [ho1] at hsize
      have hunit : (room padding w k).fdiv strideW + 1 = 1 :=
        Int.eq_one_of_mul_eq_one_left (by omega) hsize
      rw [hunit, mul_one] at hsize
      exact .inr ⟨hone.mp ho1, hsize, hunit⟩
    · -- the second window lies beside the first, by the stride of the call
      have hsecond := hcorners 1 (by
        have := Nat.mul_le_mul hge hge
        omega)
      rw [htop, hleft, sub_zero, sub_zero, Nat.div_eq_of_lt hge, Nat.mod_eq_of_lt hge] at hsecond
      obtain ⟨-, hrow, hcol⟩ := hsecond
      simp only [Nat.cast_one, Nat.cast_zero, zero_mul, mul_eq_zero, hsH, or_false, one_mul] at hrow hcol
      have hwide : 1 < (room padding w k).fdiv strideW + 1 := by
        by_contra hle
        have heq : (room padding w k).fdiv strideW + 1 = 1 := by omega
        rw [heq] at hrow
        cases hrow
      rw [Int.emod_eq_of_lt (by decide) hwide, one_mul] at hcol
      have hpadW : NothingPadded padding w k strideW := (sidePad_eq_zero_iff hsW hk').mp hleft
      rw [hcol] at hpadW hcorners hsize
      rw [size_stride_two hk1 hk hpadW, ← ho] at hcorners hsize
      -- and the first of the second row below it
      have hbelow := (hcorners o (by
        have := Nat.mul_le_mul_right o hge
        omega)).2.1
      rw [htop, sub_zero, Int.ediv_self (by omega), Nat.div_self hopos] at hbelow
      exact .inl ⟨by omega, hcol⟩
  · rintro ⟨htop, hleft, hcase⟩ env input hdims hlen
    obtain ⟨out, hrun, hpooled⟩ := avgpool_fits env hdims hk
    refine ⟨out, hrun, ?_⟩
    rw [← ho] at hpooled
    rw [htop, hleft]
    rcases hcase with ⟨rfl, rfl⟩ | ⟨hlt, hH, hW⟩
    · rw [size_stride_two hk1 hk ((sidePad_eq_zero_iff hsH hk').mp htop), ← ho]
      exact hpooled
    · rw [hH, hW]
      rw [hone.mpr hlt] at hpooled
      refine ⟨hpooled.1, fun ch hch e he => ?_⟩
      obtain ⟨hpos, hcell⟩ := hpooled.2 ch hch e he
      have he0 : e = 0 := by omega
      subst he0
      refine ⟨hpos, hcell.trans ?_⟩
      simp

/-- A smaller one. -/
theorem pools_iff_outgrown (hc : 1 ≤ channels) (hk : w < k) {top left : Int} :
    (∀ (env : KernelEnv α) (input : ArrayType α),
      input.dims = [(channels : Int), (w : Int) * w] → input.data.length = channels * (w * w) →
        ∃ out, avgpool env input k 0 2 = .ok out ∧
          PooledAs out input channels w k top left strideH strideW oh ow) ↔
      (k = w + 2 ∨ k = w + 3) ∧ (oh = 0 ∨ ow = 0) := by
  rw [← outExtent_eq_zero_iff hk, ← mul_eq_zero (a := oh)]
  obtain ⟨o, ho⟩ : ∃ o, o = outExtent w 0 k 2 := ⟨_, rfl⟩
  rw [← ho]
  constructor
  · intro hall
    -- an element that nothing is stored in can be anything
    have hcell : ∀ junk : α, oh * ow = o * o ∧ (o ≠ 0 → junk =
        windowMean (spot channels w (0, 0)) w k 0
          (windowAt w k (0 / ow * strideH - top) (0 % ow * strideW - left))) := by
      intro junk
      obtain ⟨out, hrun, hpooled⟩ := hall ⟨none, fun _ _ _ _ _ => [], fun _ => junk⟩
        (spot channels w (0, 0)) rfl (length_spot ..)
      rw [avgpool_outgrown _ rfl hk, ← ho] at hrun
      cases hrun
      have hsize : oh * ow = o * o := by
        have hdims := hpooled.1
        simp only [ArrayType.matrix, List.cons.injEq, and_true, true_and] at hdims
        exact hdims.symm
      refine ⟨hsize, fun hne => ?_⟩
      have hpos : 0 < o * o := by
        rcases Int.lt_or_gt_of_ne hne with h | h
        · exact Int.mul_pos_of_neg_of_neg h h
        · exact Int.mul_pos h h
      obtain ⟨-, hread⟩ := hpooled.2 0 (by omega) 0 (by rw [hsize]; exact_mod_cast hpos)
      have hcount : 0 < (o * o * channels).toNat := by
        have := Int.mul_pos hpos (show (0 : Int) < channels by omega)
        omega
      simp only [ArrayType.matrix, KernelEnv.palloc, Nat.zero_mul, Nat.add_zero, List.getElem?_map,
        List.getElem?_range hcount, Option.map_some, Nat.cast_zero] at hread
      exact Option.some.inj hread
    obtain ⟨hsize, hzero⟩ := hcell 0
    have ho0 : o = 0 := by
      by_contra hne
      exact zero_ne_one ((hzero hne).trans ((hcell 1).2 hne).symm)
    rw [ho0, mul_zero] at hsize
    exact ⟨ho0, hsize⟩
  · rintro ⟨ho0, hsize⟩ env input hdims hlen
    refine ⟨_, avgpool_outgrown env hdims hk, ?_, fun ch hch e he => ?_⟩
    · rw [← ho, ho0, hsize]
      rfl
    · rw [hsize] at he
      omega

end Refinement

/-- **The call that `export` writes for an `AveragePool` of square images returns the size that
`Pool2D` inferred, with the averages of its windows**, exactly if the mode and the strides agree with
the defaults of the call. -/
theorem avgpool_call_iff (α : Type) [Field α] [CharZero α] (addr : Nat × Nat) (t weight : Tensor)
    (channels w k : Nat) (strideH strideW : Int) (padding : PaddingMode) (activation : ActiMode)
    (op : Op) (p : OpBase) (name : String) (rest : List String)
    (skip_nodes : String → Option String)
    (hbuild : mkPool2D addr t weight .OP_POOL2D_AVG k k strideH strideW padding activation = .ok p)
    (hop : op.ptr = some p) (hdims : t.dimAt 1 = channels ∧ t.dimAt 2 = w ∧ t.dimAt 3 = w)
    (hc : 1 ≤ channels) (hk : 1 ≤ k) :
    CallPools α op (name :: rest) skip_nodes channels w k padding strideH strideW
        (p.output.dimAt 2) (p.output.dimAt 3) ↔
      CallAgrees padding w k strideH strideW := by
  simp only [mkPool2D, bind_ok_iff, pyAssert_eq_ok, exists_const] at hbuild
  obtain ⟨-, -, outputH, hH, outputW, hW, hret⟩ := hbuild
  obtain ⟨hsH, rfl⟩ := windowExtent_ok hH
  obtain ⟨hsW, rfl⟩ := windowExtent_ok hW
  cases hret
  rw [callPools_iff (k := k) hop rfl rfl]
  show (∀ (env : KernelEnv α) (input : ArrayType α), _ → _ → ∃ out, _ ∧
    PooledAs out input channels w k _ _ _ _ ((room padding (t.dimAt 2) k).fdiv strideH + 1)
      ((room padding (t.dimAt 3) k).fdiv strideW + 1)) ↔ _
  rw [hdims.2.1, hdims.2.2]
  unfold CallAgrees
  split
  · next hle => exact pools_iff_fits hc hk hle hsH hsW
  · next hlt =>
    rw [pools_iff_outgrown hc (by omega), size_eq_zero_iff hsH, size_eq_zero_iff hsW]

/-- A 2×2 pooling without padding. -/
def pool2x2 (side stride : Int) : Except PyError OpBase :=
  mkPool2D (0, 100) (plain4d 1 1 side side) (plain4d 1 1 2 2) .OP_POOL2D_AVG 2 2 stride stride
    .PD_MODE_VALID .AC_MODE_NONE

theorem avgpool_call_halving :
    ∃ p, pool2x2 4 2 = .ok p ∧
      CallPools Rat ⟨100, some p⟩ ["Relu7_fwd0"] (fun _ => none) 1 4 2 .PD_MODE_VALID 2 2
        (p.output.dimAt 2) (p.output.dimAt 3) := by
  obtain ⟨p, hp⟩ : ∃ p, pool2x2 4 2 = .ok p := ⟨_, rfl⟩
  have hagrees : CallAgrees .PD_MODE_VALID 4 2 2 2 := by
    rw [CallAgrees, if_pos (by decide)]
    exact ⟨fun h => PaddingMode.noConfusion h, fun h => PaddingMode.noConfusion h, .inl ⟨rfl, rfl⟩⟩
  exact ⟨p, hp, (avgpool_call_iff Rat (0, 100) (plain4d 1 1 4 4) (plain4d 1 1 2 2) 1 4 2 2 2
    .PD_MODE_VALID .AC_MODE_NONE ⟨100, some p⟩ p "Relu7_fwd0" [] (fun _ => none) hp rfl
    ⟨rfl, rfl, rfl⟩ (by decide) (by decide)).mpr hagrees⟩

/-- **Overlapping windows**: with stride 1 there are 2 × 2 windows over a 3 × 3 image, and the call
returns one element. -/
theorem avgpool_call_overlapping :
    (pool2x2 3 1).toOption.any (fun p => p.output.dims == [1, 1, 2, 2] &&
        decide ((exportCommand ⟨100, some p⟩ "AveragePool" ["Relu7_fwd0"] fun _ => none).map
          Prod.fst = .ok (some (.avgpool "Relu7_fwd0" 2)))) = true ∧
      ∀ env : KernelEnv Rat, ∃ out,
        callAvgpool env (spot 1 3 (0, 0)) (.avgpool "Relu7_fwd0" 2) = some (.ok out) ∧
          out.dims = [1, 1] := by
  refine ⟨by decide +kernel, fun env => ?_⟩
  obtain ⟨out, hrun, hpooled⟩ := avgpool_fits (k := 2) (w := 3) env
    (show (spot 1 3 (0, 0) : ArrayType Rat).dims = [((1 : Nat) : Int), ((3 : Nat) : Int) * (3 : Nat)]
      from rfl) (by decide)
  exact ⟨out, congrArg some hrun, hpooled.1⟩

end Peps
