import Mathlib.Algebra.Field.Basic
import Mathlib.Algebra.CharZero.Defs
import Mathlib.Algebra.Group.Action.Defs
import Mathlib.Algebra.Field.Rat
import Mathlib.Algebra.Order.Monoid.Unbundled.WithTop
import Mathlib.Algebra.Order.Ring.Abs
import Mathlib.Data.Rat.Cast.CharZero
import Peps.Kernel.IntSizes
import Peps.Kernel.Pooling

/-!
# `maxpool` and `avgpool`, in `int`

The two functions of `pool.c` with every `int` of theirs in 32-bit arithmetic that wraps: the sizes,
the loop variables, the guards, the addresses they read and the running index they store through. The
elements are exact. The channels are shared out among threads; `order` is the order in which they
come, and the stores of a run are kept as a log.

As long as the sizes fit an `int`, wrapping does no harm, not even where the single sums wrap: the
guards turn down what has wrapped, and an address that is in the array comes out right. `Sized` is
what has to fit, and nothing less will do (`pooling_meets_iff`). `avgpool` also divides by
`kernel_size * kernel_size`, which is an `int` as well.
-/

namespace Peps

open Lib

/-! ## The functions -/

section Definitions

variable {α β : Type}

namespace WindowCall

variable (c : WindowCall)

/-- `avgpool` up to `avgpool_core`; the size is computed in `size_t`. -/
def avgpoolSizes : Except PgError Counts := do
  let out_width ← c.outExtent32
  let out_height ← c.outExtent32
  let out_nelems_channel := i32 (out_width * out_height)
  palloc (4 * out_nelems_channel * c.num_channel)
  return ⟨out_width, out_height, i32 (out_nelems_channel * c.num_channel),
    out_nelems_channel * c.num_channel⟩

/-- `matrix_head`. -/
def head (ch : Nat) (rn cn : Int) : Int :=
  let matrix_head_c := i32 (c.nelems_channel * ch)
  i32 (i32 (matrix_head_c + i32 (rn * c.width)) + cn)

/-- `data[matrix_head + ky * width + kx]`. -/
def plainVisit (input : ArrayType α) (ch : Nat) (rn cn : Int) (ky kx : Nat) : Option α :=
  some (input.elem (i32 (i32 (c.head ch rn cn + i32 (ky * c.width)) + kx)))

/-- The same under `ky + rn >= 0 && ky + rn < height && kx + cn >= 0 && kx + cn < width`. -/
def guardedVisit (input : ArrayType α) (ch : Nat) (rn cn : Int) (ky kx : Nat) : Option α :=
  if 0 ≤ i32 (ky + rn) ∧ i32 (ky + rn) < c.width ∧ 0 ≤ i32 (kx + cn) ∧ i32 (kx + cn) < c.width then
    c.plainVisit input ch rn cn ky kx
  else none

/-- `pool_max` of one window, on the path with the guard or on the other. -/
def poolMax [Max α] [Bot α] (guarded : Bool) (input : ArrayType α) (ch : Nat) (rn cn : Int) : α :=
  foldWindow max ⊥ c.kernel_size
    (if guarded then c.guardedVisit input ch rn cn else c.plainVisit input ch rn cn)

/-- `div_kernel_size_2`; there is none when the square wraps to zero. -/
def reciprocal {K : Type} [DivisionRing K] : Option K :=
  let kernel_size_2 := i32 (c.kernel_size * c.kernel_size)
  if kernel_size_2 = 0 then none else some (1 / (kernel_size_2 : K))

/-- `avg_sum * div_kernel_size_2`. -/
def poolAvg {K : Type} [DivisionRing K] (input : ArrayType K) (ch : Nat) (rn cn : Int) : Option K :=
  c.reciprocal.map fun div_kernel_size_2 =>
    foldWindow (· + ·) 0 c.kernel_size (c.guardedVisit input ch rn cn) * div_kernel_size_2

/-- `res_data[res_idx_local++] = …` of all channels, when the two outer loops take `n` rounds. -/
def poolLog (z : Counts) (n : Nat) (order : List Nat) (value : Nat → Int → Int → β) :
    List (Int × β) :=
  let out_nelems_channel := i32 (z.out_width * z.out_height)
  order.flatMap fun (ch : Nat) => (rect n n).zipIdx.map fun e =>
    (i32 (i32 ((ch : Int) * out_nelems_channel) + e.2), value ch (c.corner e.1.1) (c.corner e.1.2))

end WindowCall

/-- The result of a pooling, and the cells that were stored to, in that order. -/
structure PoolResult (β : Type) where
  dims : List Int
  cells : List β
  written : List Int

namespace WindowCall

variable (c : WindowCall)

/-- The sizes are computed, the loops end and store inside the allocation only, whose first content
is `buf`. -/
def Fills (sizes : Except PgError Counts) (buf : Nat → List β) (value : Nat → Int → Int → β)
    (order : List Nat) (z : Counts) (res : PoolResult β) : Prop :=
  ∃ n, sizes = .ok z ∧ Rounds c.first c.bound c.stride n ∧
    (∀ e ∈ c.poolLog z n order value, 0 ≤ e.1 ∧ e.1 < z.cells) ∧
    res = ⟨[c.num_channel, i32 (z.out_width * z.out_height)],
      applyStores (buf z.cells.toNat)
        ((c.poolLog z n order value).map fun e => (e.1.toNat, e.2)),
      (c.poolLog z n order value).map Prod.fst⟩

end WindowCall

/-- `float4construct_md_array`: the allocation, and the array with the cells that are copied. -/
def float4Construct (z : Counts) (res : PoolResult β) : Except PgError (PoolResult β) := do
  let nbytes := i32 (4 * z.out_nelems)
  palloc (nbytes + 32)
  return { res with cells := res.cells.take (nbytes.toNat / 4) }

/-! ## What they should do -/

/-- Channel by channel and window by window the cells `cell`, each stored once. -/
structure PoolResult.IsPool (res : PoolResult β) (channels o : Nat) (cell : Nat → Nat → Nat → β) :
    Prop where
  dims : res.dims = [(channels : Int), ((o * o : Nat) : Int)]
  size : res.cells.length = channels * (o * o)
  cells : ∀ ch < channels, ∀ i < o, ∀ j < o,
    res.cells[ch * (o * o) + (i * o + j)]? = some (cell ch i j)
  once : res.written.Perm ((List.range (channels * (o * o))).map Nat.cast)

namespace WindowCall

variable (c : WindowCall) (channels w k p s : Nat)

/-- The calls with at least one window, on images of `w * w` elements. -/
structure Windowed : Prop where
  channels : c.num_channel = channels
  square : c.nelems_channel = (w : Int) * w
  kernel : c.kernel_size = k
  padding : c.padding = p
  stride : c.stride = s
  kernel_pos : 1 ≤ k
  kernel_le : k ≤ w + 2 * p
  stride_pos : 1 ≤ s

/-- `maxpool` is refused, or returns the maxima. -/
def MaxMeets [LinearOrder α] [OrderBot α] [Zero α] (input : ArrayType α) (order : List Nat) : Prop :=
  Refused c.maxpoolSizes ∨
    ∃ z res, c.Fills c.maxpoolSizes (fun n => List.replicate n 0)
        (c.poolMax (c.padding ≠ 0) input) order z res ∧
      res.IsPool channels (outSide w p k s) fun ch i j =>
        (imageWindow w k p s i j).sup (pixel input w ch)

/-- Without padding, the path with the guard stores the same. -/
def PathsAgree [LinearOrder α] [OrderBot α] (input : ArrayType α) (order : List Nat) : Prop :=
  c.padding = 0 → ∀ z n, Rounds c.first c.bound c.stride n →
    c.poolLog z n order (c.poolMax true input) = c.poolLog z n order (c.poolMax false input)

/-- `avgpool` is refused, or returns the averages. -/
def AvgMeets {K : Type} [Field K] (input : ArrayType K) (junk : Nat → Option K) (order : List Nat) :
    Prop :=
  Refused c.avgpoolSizes ∨
    ∃ z res, c.Fills c.avgpoolSizes (fun n => (List.range n).map junk) (c.poolAvg input) order z res ∧
      (Refused (float4Construct z res) ∨ ∃ res', float4Construct z res = .ok res' ∧
        res'.IsPool channels (outSide w p k s) fun ch i j =>
          some ((∑ q ∈ imageWindow w k p s i j, pixel input w ch q) / ((k : K) * k)))

end WindowCall

/-! ## When they do -/

/-- What has to fit an `int`: the span, the bytes of the result, and the value that ends the loops. -/
structure Sized (channels w k p s : Nat) : Prop where
  span : w + 2 * p - k < 2 ^ 31
  bytes : 4 * (channels * (outSide w p k s * outSide w p k s)) < 2 ^ 31
  last : outSide w p k s * s < 2 ^ 31 + p

/-- The square of the kernel size fits an `int`, or it does not matter. -/
def Scaled {K : Type} [Field K] (input : ArrayType K) (channels w k p s : Nat) : Prop :=
  k * k < 2 ^ 31 ∨ i32 ((k : Int) * k) ≠ 0 ∧ ∀ ch < channels, ∀ i < outSide w p k s,
    ∀ j < outSide w p k s, ∑ q ∈ imageWindow w k p s i j, pixel input w ch q = 0

end Definitions

/-! ## The loops -/

theorem Sized.fits {channels w k p s : Nat} (h : Sized channels w k p s) (hchannels : 1 ≤ channels) :
    outSide w p k s * outSide w p k s ≤ channels * (outSide w p k s * outSide w p k s) ∧
      outSide w p k s ≤ outSide w p k s * outSide w p k s ∧
      channels * (outSide w p k s * outSide w p k s) < 2 ^ 29 := by
  have := h.bytes
  exact ⟨Nat.le_mul_of_pos_left _ hchannels, Nat.le_mul_self _, by omega⟩

namespace WindowCall

variable {c : WindowCall} {channels w k p s : Nat}

/-- What PostgreSQL and the argument types bound. -/
structure Bounds (channels w k p s : Nat) : Prop where
  channels_pos : 1 ≤ channels
  width_pos : 1 ≤ w
  held : channels * (w * w) ≤ MaxArraySize
  width_lt : w < 2 ^ 27
  kernel_lt : k < 2 ^ 31
  padding_lt : p < 2 ^ 31
  stride_lt : s < 2 ^ 31

theorem Windowed.bounds (h : c.Windowed channels w k p s) : Bounds channels w k p s := by
  have hmax : MaxArraySize = 2 ^ 27 - 1 := by decide
  obtain ⟨hchannels, hnelems, hheld⟩ := c.hheld
  rw [h.channels, h.square] at hheld
  rw [h.channels] at hchannels
  rw [h.square] at hnelems
  have hwidth : 1 ≤ w := by
    rcases Nat.eq_zero_or_pos w with rfl | hpos
    · omega
    · exact hpos
  have hheld' : channels * (w * w) ≤ MaxArraySize := by exact_mod_cast hheld
  have hsquare : w * w ≤ channels * (w * w) := Nat.le_mul_of_pos_left _ (by omega)
  have hself : w ≤ w * w := Nat.le_mul_self w
  have hk := c.hkernel.2
  have hp := c.hpadding.2
  have hs := c.hstride.2
  rw [h.kernel] at hk
  rw [h.padding] at hp
  rw [h.stride] at hs
  exact ⟨by omega, hwidth, hheld', by omega, by omega, by omega, by omega⟩

theorem Windowed.width (h : c.Windowed channels w k p s) : c.width = w := by
  rw [WindowCall.width, h.square, side_sq]

/-- The last corner, and the value that ends the loops. -/
theorem outSide_bounds (hs : 1 ≤ s) :
    (outSide w p k s - 1) * s ≤ w + 2 * p - k ∧ w + 2 * p - k < outSide w p k s * s ∧
      outSide w p k s * s = (outSide w p k s - 1) * s + s ∧ 1 ≤ outSide w p k s := by
  have hlow : (w + 2 * p - k) / s * s ≤ w + 2 * p - k := Nat.div_mul_le_self ..
  have hhigh : w + 2 * p - k < ((w + 2 * p - k) / s + 1) * s :=
    Nat.lt_mul_of_div_lt (Nat.lt_succ_self _) hs
  refine ⟨hlow, hhigh, ?_, Nat.le_add_left ..⟩
  rw [outSide, Nat.add_sub_cancel, Nat.add_mul, Nat.one_mul]

theorem corner_le (hs : 1 ≤ s) {i : Nat} (hi : i < outSide w p k s) : i * s ≤ w + 2 * p - k :=
  (Nat.mul_le_mul_right s (by omega : i ≤ outSide w p k s - 1)).trans (outSide_bounds hs).1

theorem Windowed.first (h : c.Windowed channels w k p s) : c.first = -(p : Int) := by
  have hp := h.bounds.padding_lt
  rw [WindowCall.first, h.padding]
  exact i32_eq_self ⟨by omega, by omega⟩

theorem Windowed.bound (h : c.Windowed channels w k p s) (hbound : w + p + 1 < 2 ^ 31 + k) :
    c.bound = (w : Int) + p - k + 1 := by
  have hp := h.bounds.padding_lt
  have hk := h.kernel_le
  rw [WindowCall.bound, h.width, h.padding, h.kernel, i32_i32_sub, i32_i32_add]
  exact i32_eq_self ⟨by omega, by omega⟩

/-- If the span fits, so does the bound of the loops. -/
theorem Windowed.bound_fits (h : c.Windowed channels w k p s) (hspan : w + 2 * p - k < 2 ^ 31) :
    w + p + 1 < 2 ^ 31 + k := by
  have := h.kernel_le
  have := h.kernel_pos
  have := h.bounds.width_lt
  omega

/-- The corners that are visited are the exact ones. -/
theorem Windowed.corner (h : c.Windowed channels w k p s) (hbound : w + p + 1 < 2 ^ 31 + k) {i : Nat}
    (hi : i < outSide w p k s) : c.corner i = (i * s : Nat) - (p : Int) := by
  have hp := h.bounds.padding_lt
  have hk := h.kernel_le
  rw [WindowCall.corner, h.first, h.stride, loopVar_eq]
  · push_cast
    ring
  · intro j hj
    have hj := corner_le (w := w) (p := p) (k := k) h.stride_pos (Nat.lt_of_le_of_lt hj hi)
    rw [← Nat.cast_mul]
    exact ⟨by omega, by omega⟩

/-- No corner is left out. -/
theorem Windowed.le_rounds (h : c.Windowed channels w k p s) (hbound : w + p + 1 < 2 ^ 31 + k)
    {n : Nat} (hn : Rounds c.first c.bound c.stride n) : outSide w p k s ≤ n := by
  by_contra hlt
  apply hn.2
  have hcorner := h.corner hbound (not_le.mp hlt)
  have hle := corner_le (w := w) (p := p) (k := k) h.stride_pos (not_le.mp hlt)
  have hk := h.kernel_le
  unfold WindowCall.corner at hcorner
  rw [hcorner, h.bound hbound]
  omega

/-- The loops take the right number of rounds if the value that ends them does not wrap. -/
theorem Windowed.rounds_iff (h : c.Windowed channels w k p s) (hspan : w + 2 * p - k < 2 ^ 31) :
    Rounds c.first c.bound c.stride (outSide w p k s) ↔ outSide w p k s * s < 2 ^ 31 + p := by
  have hk := h.kernel_le
  have hp := h.bounds.padding_lt
  have hs := h.bounds.stride_lt
  have hbound := h.bound_fits hspan
  obtain ⟨hlow, hhigh, hstep, hpos⟩ := outSide_bounds (w := w) (p := p) (k := k) h.stride_pos
  constructor
  · intro hn
    by_contra hwrap
    apply hn.2
    obtain ⟨o, ho⟩ : ∃ o, outSide w p k s = o + 1 := ⟨outSide w p k s - 1, by omega⟩
    have hlast := h.corner hbound (by omega : o < outSide w p k s)
    unfold WindowCall.corner at hlast
    -- the next value has left the `int`, and comes back from below
    have hnext : i32 (((o * s : Nat) : Int) - p + s) = ((o * s + s : Nat) : Int) - p - 2 ^ 32 := by
      rw [ho, Nat.add_sub_cancel] at hstep hlow
      rw [ho] at hwrap
      have hsum : ((o * s : Nat) : Int) - p + s = ((o * s + s : Nat) : Int) - p := by
        push_cast
        ring
      rw [hsum]
      exact i32_eq_sub ⟨by omega, by omega⟩
    rw [ho, loopVar, hlast, h.stride, hnext, h.bound hbound]
    rw [ho, Nat.add_sub_cancel] at hlow
    omega
  · intro hlast
    have hend : -(p : Int) + (outSide w p k s : Nat) * (s : Int) = ((outSide w p k s * s : Nat) : Int) - p := by
      push_cast
      ring
    rw [h.first, h.bound hbound, h.stride]
    refine rounds_of_ends (by omega) ⟨by omega, by omega⟩ ?_ (fun i hi => ?_) ?_
    · rw [hend]
      exact ⟨by omega, by omega⟩
    · have hle := corner_le (w := w) (p := p) (k := k) h.stride_pos hi
      rw [← Nat.cast_mul]
      omega
    · rw [hend]
      omega

/-! ## The number of windows that is computed -/

/-- `(width + 2 * padding - kernel_size) / stride + 1`. -/
def extent32 (w k p s : Nat) : Int := i32 ((i32 ((w : Int) + 2 * p - k)).tdiv s + 1)

theorem Windowed.outExtent32 (h : c.Windowed channels w k p s) :
    c.outExtent32 = .ok (extent32 w k p s) := by
  have hs := h.stride_pos
  rw [WindowCall.outExtent32, h.width, h.padding, h.kernel, h.stride]
  simp only [i32_add_i32, i32_i32_sub]
  rw [if_neg (by omega)]
  rfl

/-- It is the right one, if that fits an `int`. -/
theorem extent32_eq (hk : k ≤ w + 2 * p) (hspan : w + 2 * p - k < 2 ^ 31)
    (ho : outSide w p k s < 2 ^ 31) : extent32 w k p s = (outSide w p k s : Nat) := by
  have hnum : (w : Int) + 2 * p - k = ((w + 2 * p - k : Nat) : Int) := by omega
  have hfits : i32 ((w + 2 * p - k : Nat) : Int) = ((w + 2 * p - k : Nat) : Int) :=
    i32_eq_self ⟨by omega, by omega⟩
  rw [extent32, hnum, hfits, ← Int.ofNat_tdiv]
  show i32 ((outSide w p k s : Nat) : Int) = _
  exact i32_eq_self ⟨by omega, by omega⟩

/-- A span that does not fit comes out as what it exceeds `2³²` by. -/
theorem i32_span (hb : Bounds channels w k p s) (hk : k ≤ w + 2 * p)
    (hspan : 2 ^ 31 ≤ w + 2 * p - k) :
    i32 ((w : Int) + 2 * p - k) = ((w + 2 * p - k : Nat) : Int) - 2 ^ 32 := by
  have hw := hb.width_lt
  have hp := hb.padding_lt
  have hnum : (w : Int) + 2 * p - k = ((w + 2 * p - k : Nat) : Int) := by omega
  rw [hnum]
  exact i32_eq_sub ⟨by omega, by omega⟩

/-- The count of such a span, below and above `2³²`. -/
theorem extent32_cases (hb : Bounds channels w k p s) (hk : k ≤ w + 2 * p)
    (hspan : 2 ^ 31 ≤ w + 2 * p - k) :
    w + 2 * p - k < 2 ^ 32 ∧
        extent32 w k p s = 1 - (((2 ^ 32 - (w + 2 * p - k)) / s : Nat) : Int) ∨
      2 ^ 32 ≤ w + 2 * p - k ∧
        extent32 w k p s = (((w + 2 * p - k - 2 ^ 32) / s + 1 : Nat) : Int) := by
  have hw := hb.width_lt
  have hp := hb.padding_lt
  rw [extent32, i32_span hb hk hspan]
  rcases Nat.lt_or_ge (w + 2 * p - k) (2 ^ 32) with hlt | hge
  · refine .inl ⟨hlt, ?_⟩
    have hle : (2 ^ 32 - (w + 2 * p - k)) / s ≤ 2 ^ 32 - (w + 2 * p - k) := Nat.div_le_self ..
    rw [show ((w + 2 * p - k : Nat) : Int) - 2 ^ 32 = -((2 ^ 32 - (w + 2 * p - k) : Nat) : Int) by omega,
      Int.neg_tdiv, ← Int.ofNat_tdiv]
    generalize (2 ^ 32 - (w + 2 * p - k)) / s = d at hle ⊢
    rw [i32_eq_self ⟨by omega, by omega⟩]
    omega
  · refine .inr ⟨hge, ?_⟩
    have hle : (w + 2 * p - k - 2 ^ 32) / s ≤ w + 2 * p - k - 2 ^ 32 := Nat.div_le_self ..
    rw [show ((w + 2 * p - k : Nat) : Int) - 2 ^ 32 = ((w + 2 * p - k - 2 ^ 32 : Nat) : Int) by omega,
      ← Int.ofNat_tdiv]
    generalize (w + 2 * p - k - 2 ^ 32) / s = d at hle ⊢
    exact i32_eq_self ⟨by omega, by omega⟩

/-- A span that does not fit is counted too small. -/
theorem extent32_sq_lt (hb : Bounds channels w k p s) (hk : k ≤ w + 2 * p) (hs : 1 ≤ s)
    (hspan : 2 ^ 31 ≤ w + 2 * p - k) :
    extent32 w k p s * extent32 w k p s < ((outSide w p k s * outSide w p k s : Nat) : Int) := by
  have hstride := hb.stride_lt
  have hone : 1 ≤ (w + 2 * p - k) / s := (Nat.one_le_div_iff (by omega)).mpr (by omega)
  have habs : |extent32 w k p s| < |((outSide w p k s : Nat) : Int)| := by
    rw [abs_of_nonneg (Int.natCast_nonneg _), abs_lt, outSide]
    rcases extent32_cases hb hk hspan with ⟨hlt, he⟩ | ⟨hge, he⟩
    · have hle : (2 ^ 32 - (w + 2 * p - k)) / s ≤ (w + 2 * p - k) / s :=
        Nat.div_le_div_right (by omega)
      rw [he]
      generalize (2 ^ 32 - (w + 2 * p - k)) / s = d at hle ⊢
      generalize (w + 2 * p - k) / s = e at hle hone ⊢
      omega
    · have hlt : (w + 2 * p - k - 2 ^ 32) / s + 1 ≤ (w + 2 * p - k) / s := by
        rw [← Nat.add_div_right _ (by omega : 0 < s)]
        exact Nat.div_le_div_right (by omega)
      rw [he]
      generalize (w + 2 * p - k - 2 ^ 32) / s = d at hlt ⊢
      generalize (w + 2 * p - k) / s = e at hlt ⊢
      omega
  rw [Nat.cast_mul]
  exact abs_lt_iff_mul_self_lt.mp habs

/-- If even the bound of the loops does not fit, next to nothing is counted. -/
theorem extent32_sq_le (hb : Bounds channels w k p s) (hkpos : 1 ≤ k) (hk : k ≤ w + 2 * p)
    (hbound : 2 ^ 31 + k ≤ w + p + 1) :
    extent32 w k p s * extent32 w k p s ≤ ((w * w : Nat) : Int) := by
  have hp := hb.padding_lt
  have hw := hb.width_pos
  have hw' := hb.width_lt
  have habs : |extent32 w k p s| ≤ |(w : Int)| := by
    rw [abs_of_nonneg (Int.natCast_nonneg w), abs_le]
    rcases extent32_cases hb hk (by omega) with ⟨hlt, he⟩ | ⟨hge, he⟩
    · have hle : (2 ^ 32 - (w + 2 * p - k)) / s ≤ 2 ^ 32 - (w + 2 * p - k) := Nat.div_le_self ..
      rw [he]
      generalize (2 ^ 32 - (w + 2 * p - k)) / s = d at hle ⊢
      omega
    · have hle : (w + 2 * p - k - 2 ^ 32) / s ≤ w + 2 * p - k - 2 ^ 32 := Nat.div_le_self ..
      rw [he]
      generalize (w + 2 * p - k - 2 ^ 32) / s = d at hle ⊢
      omega
  rw [Nat.cast_mul]
  exact abs_le_iff_mul_self_le.mp habs

/-! ## What the windows read -/

section Reads

variable {α : Type} {input : ArrayType α} {ch i j : Nat}

/-- A guard is not taken in by a sum that has wrapped. -/
theorem i32_in_image {x : Int} (hlow : -2 ^ 31 ≤ x) (hhigh : x < 2 ^ 32) (hw : w < 2 ^ 27) :
    (0 ≤ i32 x ∧ i32 x < w) ↔ 0 ≤ x ∧ x < w := by
  rcases lt_or_ge x (2 ^ 31) with hfits | hwraps
  · rw [i32_eq_self ⟨hlow, hfits⟩]
  · rw [i32_eq_sub ⟨by omega, by omega⟩]
    omega

/-- The address of an element of the image, whatever wrapped on the way. -/
theorem Windowed.address (h : c.Windowed channels w k p s) (hch : ch < channels) {y x ky kx : Nat}
    {rn cn : Int} (hy : y < w) (hx : x < w) (hrow : (ky : Int) + rn = y) (hcol : (kx : Int) + cn = x) :
    i32 (i32 (c.head ch rn cn + i32 (ky * c.width)) + kx) = (ch * (w * w) + (y * w + x) : Nat) := by
  have hmax : MaxArraySize = 2 ^ 27 - 1 := by decide
  have hslot : ch * (w * w) + (y * w + x) < channels * (w * w) := slot_lt hch (slot_lt hy hx)
  have hheld := h.bounds.held
  have hexact : (w : Int) * w * ch + rn * w + cn + ky * w + kx =
      (ch * (w * w) + (y * w + x) : Nat) := by
    push_cast
    rw [← hrow, ← hcol]
    ring
  rw [head, h.width, h.square]
  simp only [i32_i32_add, i32_add_i32, hexact]
  exact i32_eq_self ⟨by omega, by omega⟩

theorem Windowed.guarded_reads (h : c.Windowed channels w k p s) (hbound : w + p + 1 < 2 ^ 31 + k)
    (hch : ch < channels) (hi : i < outSide w p k s) (hj : j < outSide w p k s) :
    ReadsWindow input w k p s ch i j (c.guardedVisit input ch (c.corner i) (c.corner j)) := by
  intro ky hky kx hkx
  have hw := h.bounds.width_lt
  have hp := h.bounds.padding_lt
  have hk := h.kernel_le
  have hrow := corner_le (w := w) (p := p) (k := k) h.stride_pos hi
  have hcol := corner_le (w := w) (p := p) (k := k) h.stride_pos hj
  have hguard_row := i32_in_image (x := ky + ((i * s : Nat) - (p : Int))) (by omega) (by omega) hw
  have hguard_col := i32_in_image (x := kx + ((j * s : Nat) - (p : Int))) (by omega) (by omega) hw
  rw [h.corner hbound hi, h.corner hbound hj, guardedVisit, imagePosition, h.width]
  by_cases hin : (p ≤ i * s + ky ∧ i * s + ky < w + p) ∧ p ≤ j * s + kx ∧ j * s + kx < w + p
  · rw [if_pos (by omega), if_pos hin, plainVisit,
      h.address hch (y := i * s + ky - p) (x := j * s + kx - p) (by omega) (by omega) (by omega)
        (by omega)]
    rfl
  · rw [if_neg (by omega), if_neg hin]
    rfl

/-- Without padding every window lies in the image. -/
theorem Windowed.plain_reads (h : c.Windowed channels w k 0 s) (hch : ch < channels)
    (hi : i < outSide w 0 k s) (hj : j < outSide w 0 k s) :
    ReadsWindow input w k 0 s ch i j (c.plainVisit input ch (c.corner i) (c.corner j)) := by
  intro ky hky kx hkx
  have hw := h.bounds.width_lt
  have hk := h.kernel_le
  have hbound : w + 0 + 1 < 2 ^ 31 + k := by omega
  have hrow := corner_le (w := w) (p := 0) (k := k) h.stride_pos hi
  have hcol := corner_le (w := w) (p := 0) (k := k) h.stride_pos hj
  rw [h.corner hbound hi, h.corner hbound hj, imagePosition, if_pos (by omega), plainVisit,
    h.address hch (y := i * s + ky - 0) (x := j * s + kx - 0) (by omega) (by omega) (by omega)
      (by omega)]
  rfl

/-- The maximum of a window, on the path that the padding selects or on the one with the guard. -/
theorem Windowed.poolMax_eq [LinearOrder α] [OrderBot α] (h : c.Windowed channels w k p s)
    (hbound : w + p + 1 < 2 ^ 31 + k) {guarded : Bool} (hpath : p = 0 ∨ guarded = true)
    (hch : ch < channels) (hi : i < outSide w p k s) (hj : j < outSide w p k s) :
    c.poolMax guarded input ch (c.corner i) (c.corner j) =
      (imageWindow w k p s i j).sup (pixel input w ch) := by
  rw [poolMax, h.kernel]
  cases guarded with
  | true => exact (h.guarded_reads hbound hch hi hj).max_eq
  | false =>
    obtain rfl : p = 0 := hpath.resolve_right (by decide)
    exact (h.plain_reads hch hi hj).max_eq

end Reads

/-! ## What the loops store -/

section Stores

variable {β : Type} {z : Counts} {n o : Nat} {order : List Nat} {value : Nat → Int → Int → β}
  {cell : Nat → Nat → Nat → β}

theorem length_poolLog : (c.poolLog z n order value).length = order.length * (n * n) := by
  unfold poolLog
  simp only [List.length_flatMap, List.length_map, List.length_zipIdx, length_rect, List.map_const',
    List.sum_replicate, smul_eq_mul]

/-- Where the running index lands, if the result fits. -/
theorem poolLog_eq (hwidth : z.out_width = o) (hheight : z.out_height = o)
    (hfits : channels * (o * o) < 2 ^ 31) (horder : ∀ ch ∈ order, ch < channels)
    (hvalue : ∀ ch < channels, ∀ i < o, ∀ j < o, value ch (c.corner i) (c.corner j) = cell ch i j) :
    c.poolLog z o order value = order.flatMap fun ch => (rect o o).map fun q =>
      (((ch * (o * o) + (q.1 * o + q.2) : Nat) : Int), cell ch q.1 q.2) := by
  unfold poolLog
  refine List.flatMap_congr fun ch hch => ?_
  rw [zipIdx_rect, List.map_map]
  refine List.map_congr_left fun q hq => ?_
  obtain ⟨hi, hj⟩ := mem_rect.mp hq
  have hslot : ch * (o * o) + (q.1 * o + q.2) < channels * (o * o) :=
    slot_lt (horder ch hch) (slot_lt hi hj)
  have hindex : i32 (i32 ((ch : Int) * i32 (z.out_width * z.out_height)) + ((q.1 * o + q.2 : Nat) : Int)) =
      ((ch * (o * o) + (q.1 * o + q.2) : Nat) : Int) := by
    rw [hwidth, hheight, i32_mul_i32, i32_i32_add,
      show (ch : Int) * ((o : Int) * o) + ((q.1 * o + q.2 : Nat) : Int) =
        ((ch * (o * o) + (q.1 * o + q.2) : Nat) : Int) by push_cast; ring]
    exact i32_eq_self ⟨by omega, by omega⟩
  exact Prod.ext hindex (hvalue ch (horder ch hch) q.1 hi q.2 hj)

/-- The positions of that log, whatever the order of the channels. -/
theorem written_perm (horder : order.Perm (List.range channels)) :
    (order.flatMap fun ch => (rect o o).map fun q => ch * (o * o) + (q.1 * o + q.2)).Perm
      (List.range (channels * (o * o))) := by
  have hblocks : ((List.range channels).flatMap fun ch => (rect o o).map fun q =>
      ch * (o * o) + (q.1 * o + q.2)) = List.range (channels * (o * o)) := by
    rw [← flatMap_range_blocks]
    refine List.flatMap_congr fun ch _ => ?_
    rw [← rect_map_slot, List.map_map]
    rfl
  rw [← hblocks]
  exact horder.flatMap_right _

/-- **A pooling whose sizes fit** fills its result. -/
theorem fills_of_fits {sizes : Except PgError Counts} (buf : Nat → List β)
    (hsizes : sizes = .ok z) (hwidth : z.out_width = o) (hheight : z.out_height = o)
    (hcells : z.cells = (channels * (o * o) : Nat)) (hfits : channels * (o * o) < 2 ^ 31)
    (hchannels : c.num_channel = channels) (hbuf : ∀ n, (buf n).length = n)
    (horder : order.Perm (List.range channels)) (hn : Rounds c.first c.bound c.stride o)
    (hvalue : ∀ ch < channels, ∀ i < o, ∀ j < o, value ch (c.corner i) (c.corner j) = cell ch i j) :
    ∃ res, c.Fills sizes buf value order z res ∧ res.IsPool channels o cell := by
  have hlt : ∀ ch ∈ order, ch < channels := fun ch hch => List.mem_range.mp (horder.mem_iff.mp hch)
  have hlog := poolLog_eq hwidth hheight hfits hlt hvalue
  have hpositions : (c.poolLog z o order value).map Prod.fst =
      (order.flatMap fun ch => (rect o o).map fun q => ch * (o * o) + (q.1 * o + q.2)).map Nat.cast := by
    rw [hlog, List.map_flatMap, List.map_flatMap]
    simp only [List.map_map]
    rfl
  have hperm := written_perm (o := o) horder
  have hstores : ((c.poolLog z o order value).map fun e => (e.1.toNat, e.2)) =
      order.flatMap fun ch => (rect o o).map fun q =>
        (ch * (o * o) + (q.1 * o + q.2), cell ch q.1 q.2) := by
    rw [hlog, List.map_flatMap]
    simp only [List.map_map]
    rfl
  refine ⟨_, ⟨o, hsizes, hn, fun e he => ?_, rfl⟩, ?_, ?_, ?_, ?_⟩
  · have hmem : e.1 ∈ (c.poolLog z o order value).map Prod.fst := List.mem_map_of_mem he
    rw [hpositions] at hmem
    obtain ⟨a, ha, hae⟩ := List.mem_map.mp hmem
    have := List.mem_range.mp (hperm.mem_iff.mp ha)
    rw [hcells]
    omega
  · have hproduct : i32 ((o : Int) * o) = ((o * o : Nat) : Int) := by
      have hle : o * o ≤ channels * (o * o) ∨ channels = 0 := by
        rcases Nat.eq_zero_or_pos channels with h0 | hpos
        · exact .inr h0
        · exact .inl (Nat.le_mul_of_pos_left _ hpos)
      have := c.hheld.1
      rw [← Nat.cast_mul]
      exact i32_eq_self ⟨by omega, by omega⟩
    dsimp only
    rw [hchannels, hwidth, hheight, hproduct]
  · dsimp only
    rw [length_applyStores, hbuf, hcells, Int.toNat_natCast]
  · intro ch hch i hi j hj
    dsimp only
    rw [hstores, hcells, Int.toNat_natCast]
    refine getElem?_applyStores ?_ ?_ ?_
    · rw [List.map_flatMap]
      simp only [List.map_map]
      exact hperm.nodup_iff.mpr List.nodup_range
    · refine List.mem_flatMap.mpr ⟨ch, horder.mem_iff.mpr (List.mem_range.mpr hch), ?_⟩
      exact List.mem_map.mpr ⟨(i, j), mem_rect.mpr ⟨hi, hj⟩, rfl⟩
    · rw [hbuf]
      exact slot_lt hch (slot_lt hi hj)
  · dsimp only
    rw [hpositions]
    exact hperm.map _

end Stores

/-! ## `maxpool` -/

theorem Windowed.maxpoolSizes_eq (h : c.Windowed channels w k p s) :
    let e := extent32 w k p s
    let out_nelems := i32 (e * e * channels)
    c.maxpoolSizes = (palloc (i32 (4 * out_nelems) + 32)).map
      fun _ => ⟨e, e, out_nelems, (i32 (4 * out_nelems)).tdiv 4⟩ := by
  intro e out_nelems
  have hprod : i32 (i32 (e * e) * c.num_channel) = out_nelems := by rw [i32_i32_mul, h.channels]
  unfold maxpoolSizes
  rw [h.outExtent32]
  show (palloc (i32 (4 * i32 _) + 32) >>= _) = _
  rw [hprod]
  cases palloc (i32 (4 * out_nelems) + 32) <;> rfl

/-- A square that fits is computed from a span that fits. -/
theorem Windowed.span_lt (h : c.Windowed channels w k p s) {square : Int}
    (hsquare : ((outSide w p k s * outSide w p k s : Nat) : Int) ≤ square)
    (hle : square ≤ extent32 w k p s * extent32 w k p s) : w + 2 * p - k < 2 ^ 31 := by
  by_contra hspan
  have := extent32_sq_lt h.bounds h.kernel_le h.stride_pos (not_lt.mp hspan)
  omega

section Max

variable {α : Type} [LinearOrder α] [OrderBot α] {input : ArrayType α} {order : List Nat}

/-- **`maxpool`** is refused or right exactly when what it computes fits. -/
theorem Windowed.maxMeets_iff [Zero α] (h : c.Windowed channels w k p s)
    (horder : order.Perm (List.range channels)) :
    c.MaxMeets channels w k p s input order ↔ Refused c.maxpoolSizes ∨ Sized channels w k p s := by
  have hchannels := h.bounds.channels_pos
  have hsizes := h.maxpoolSizes_eq
  simp only at hsizes
  constructor
  · rintro (href | ⟨z, res, ⟨n, hok, hn, -, rfl⟩, hpool⟩)
    · exact .inl href
    · refine .inr ?_
      obtain ⟨-, -, -, hpos⟩ := outSide_bounds (w := w) (p := p) (k := k) h.stride_pos
      have hz : z = ⟨extent32 w k p s, extent32 w k p s,
          i32 (extent32 w k p s * extent32 w k p s * channels),
          (i32 (4 * i32 (extent32 w k p s * extent32 w k p s * channels))).tdiv 4⟩ := by
        exact (eq_of_map_const_ok (hsizes.symm.trans hok)).symm
      have hdims : i32 (z.out_width * z.out_height) =
          ((outSide w p k s * outSide w p k s : Nat) : Int) :=
        (List.cons.inj (List.cons.inj hpool.dims).2).1
      have hsize := hpool.size
      have hcount := hpool.once.length_eq
      simp only [length_applyStores, List.length_replicate, List.length_map, length_poolLog,
        List.length_range, horder.length_eq] at hsize hcount
      rw [hz] at hdims hsize
      simp only at hdims hsize
      have hspan : w + 2 * p - k < 2 ^ 31 :=
        h.span_lt hdims.ge (i32_le (mul_self_nonneg _))
      obtain rfl : n = outSide w p k s :=
        Nat.mul_self_inj.mp (Nat.eq_of_mul_eq_mul_left hchannels hcount)
      refine ⟨hspan, ?_, (h.rounds_iff hspan).mp hn⟩
      have hfull : 0 < channels * (outSide w p k s * outSide w p k s) :=
        Nat.mul_pos hchannels (Nat.mul_pos hpos hpos)
      have hcells := four_mul_lt_of_tdiv (isInt32_i32 _) rfl
        (by omega : 0 ≤ (i32 (4 * i32 (extent32 w k p s * extent32 w k p s * channels))).tdiv 4)
      omega
  · rintro (href | hsized)
    · exact .inl href
    · obtain ⟨hsquare, hself, hbytes⟩ := hsized.fits hchannels
      have hextent : extent32 w k p s = (outSide w p k s : Nat) :=
        extent32_eq h.kernel_le hsized.span (by omega)
      have hnelems : i32 (extent32 w k p s * extent32 w k p s * channels) =
          ((channels * (outSide w p k s * outSide w p k s) : Nat) : Int) := by
        rw [hextent, show ((outSide w p k s : Nat) : Int) * (outSide w p k s : Nat) * channels =
          ((channels * (outSide w p k s * outSide w p k s) : Nat) : Int) by push_cast; ring]
        exact i32_eq_self ⟨by omega, by omega⟩
      have hroom : (i32 (4 * ((channels * (outSide w p k s * outSide w p k s) : Nat) : Int))).tdiv 4 =
          ((channels * (outSide w p k s * outSide w p k s) : Nat) : Int) := by
        rw [i32_eq_self ⟨by omega, by have := hsized.bytes; omega⟩]
        exact Int.mul_tdiv_cancel_left _ (by decide)
      rw [hnelems, hroom] at hsizes
      rcases palloc_cases
        (i32 (4 * ((channels * (outSide w p k s * outSide w p k s) : Nat) : Int)) + 32) with hok | herr
      · rw [hok] at hsizes
        refine .inr ⟨_, fills_of_fits _ hsizes hextent hextent rfl (by omega) h.channels
          (fun n => List.length_replicate) horder ((h.rounds_iff hsized.span).mpr hsized.last)
          fun ch hch i hi j hj => h.poolMax_eq (h.bound_fits hsized.span) ?_ hch hi hj⟩
        rw [h.padding]
        rcases Nat.eq_zero_or_pos p with hp | hp
        · exact .inl hp
        · exact .inr (decide_eq_true (by omega))
      · obtain ⟨f, ns, is, herr⟩ := herr
        exact .inl ⟨f, ns, is, by rw [hsizes, herr]; rfl⟩

/-- **The two paths** store the same where there is no padding. -/
theorem Windowed.pathsAgree (h : c.Windowed channels w k p s)
    (horder : order.Perm (List.range channels)) : c.PathsAgree input order := by
  intro hpadding z n hn
  obtain rfl : p = 0 := by
    have := h.padding
    omega
  have hk := h.kernel_le
  have hw := h.bounds.width_lt
  have hs := h.bounds.stride_lt
  have hspan : w + 2 * 0 - k < 2 ^ 31 := by omega
  obtain ⟨hlow, -, hstep, -⟩ := outSide_bounds (w := w) (p := 0) (k := k) h.stride_pos
  have hlast : outSide w 0 k s * s < 2 ^ 31 + 0 := by
    -- one round, or a stride no longer than the span
    rcases Nat.lt_or_ge (outSide w 0 k s) 2 with hone | htwo
    · have : outSide w 0 k s - 1 = 0 := by omega
      rw [this, Nat.zero_mul] at hstep
      omega
    · have : s ≤ (outSide w 0 k s - 1) * s := Nat.le_mul_of_pos_left s (by omega)
      omega
  obtain rfl : n = outSide w 0 k s := hn.unique ((h.rounds_iff hspan).mpr hlast)
  unfold poolLog
  refine List.flatMap_congr fun ch hch => List.map_congr_left fun e he => ?_
  rw [zipIdx_rect] at he
  obtain ⟨q, hq, rfl⟩ := List.mem_map.mp he
  obtain ⟨hi, hj⟩ := mem_rect.mp hq
  have hch := List.mem_range.mp (horder.mem_iff.mp hch)
  refine Prod.ext rfl ?_
  dsimp only
  rw [h.poolMax_eq (by omega) (.inl rfl) hch hi hj, h.poolMax_eq (by omega) (.inl rfl) hch hi hj]

end Max

/-! ## `avgpool` -/

/-- The sizes of a call whose first allocation is not refused. -/
theorem Windowed.avgpoolSizes_ok (h : c.Windowed channels w k p s) {z : Counts}
    (hsizes : c.avgpoolSizes = .ok z) {square : Int}
    (hsquare : i32 (extent32 w k p s * extent32 w k p s) = square) :
    z = ⟨extent32 w k p s, extent32 w k p s, square * channels, square * channels⟩ ∧
      0 ≤ square ∧ 4 * (square * channels) ≤ MaxAllocSize := by
  have hmax : MaxAllocSize = 2 ^ 30 - 1 := by decide
  have hmax' : MaxArraySize = 2 ^ 27 - 1 := by decide
  have hchannels := h.bounds.channels_pos
  have hfits := isInt32_i32 (extent32 w k p s * extent32 w k p s)
  have hbound : channels ≤ MaxArraySize :=
    (Nat.le_mul_of_pos_right channels (Nat.mul_pos h.bounds.width_pos h.bounds.width_pos)).trans
      h.bounds.held
  unfold avgpoolSizes at hsizes
  rw [h.outExtent32] at hsizes
  change (palloc (4 * i32 (extent32 w k p s * extent32 w k p s) * c.num_channel) >>= _) = _ at hsizes
  rw [hsquare] at hsizes hfits
  rw [h.channels, Int.mul_assoc] at hsizes
  obtain ⟨u, hok, hz⟩ := bind_ok_iff.mp hsizes
  have hle := le_of_palloc_ok hok
  have hlow : -2 ^ 58 ≤ square * channels := by
    calc (-2 ^ 58 : Int) ≤ -2 ^ 31 * channels := by omega
      _ ≤ square * channels := Int.mul_le_mul_of_nonneg_right hfits.1 (by omega)
  have hhigh : square * channels ≤ 2 ^ 58 := by
    calc square * (channels : Int) ≤ 2 ^ 31 * channels :=
          Int.mul_le_mul_of_nonneg_right hfits.2.le (by omega)
      _ ≤ 2 ^ 58 := by omega
  have hroom : 0 ≤ square * channels ∧ 4 * (square * channels) ≤ MaxAllocSize := by omega
  refine ⟨?_, nonneg_of_mul_nonneg_left hroom.1 (by omega), hroom.2⟩
  rw [← Except.ok.inj hz, i32_eq_self ⟨by omega, by omega⟩]

section Avg

variable {K : Type} [Field K] {input : ArrayType K} {junk : Nat → Option K} {order : List Nat}

/-- The last channel stores behind the allocation if its windows are more than are counted. -/
theorem Windowed.rounds_le (h : c.Windowed channels w k p s)
    (horder : order.Perm (List.range channels)) {β : Type} {value : Nat → Int → Int → β} {z : Counts}
    {n : Nat} {square : Nat} (hsquare : i32 (z.out_width * z.out_height) = square)
    (hcells : z.cells = square * channels) (hfits : square * channels < 2 ^ 31)
    (hinside : ∀ e ∈ c.poolLog z n order value, 0 ≤ e.1 ∧ e.1 < z.cells) : n * n ≤ square := by
  by_contra hlt
  have hchannels := h.bounds.channels_pos
  obtain ⟨q, hq⟩ : ∃ q, (rect n n)[square]? = some q :=
    ⟨_, List.getElem?_eq_getElem (by rw [length_rect]; omega)⟩
  have hmem : (i32 (i32 (((channels - 1 : Nat) : Int) * i32 (z.out_width * z.out_height)) + square),
      value (channels - 1) (c.corner q.1) (c.corner q.2)) ∈ c.poolLog z n order value := by
    refine List.mem_flatMap.mpr ⟨channels - 1, horder.mem_iff.mpr (List.mem_range.mpr (by omega)), ?_⟩
    exact List.mem_map.mpr ⟨(q, square), List.mk_mem_zipIdx_iff_getElem?.mpr hq, rfl⟩
  have hstore := (hinside _ hmem).2
  have hlast : ((channels - 1 : Nat) : Int) * square + square = ((square * channels : Nat) : Int) := by
    obtain ⟨m, rfl⟩ : ∃ m, channels = m + 1 := ⟨channels - 1, by omega⟩
    rw [Nat.add_sub_cancel]
    push_cast
    ring
  dsimp only at hstore
  rw [hsquare, i32_i32_add, hlast, hcells, i32_eq_self ⟨by omega, by omega⟩] at hstore
  push_cast at hstore
  omega

/-- **What a safe run of `avgpool` says about the sizes**, if it goes on to return a result of the right
size or to be refused for it. -/
theorem Windowed.sized_of_fills (h : c.Windowed channels w k p s)
    (horder : order.Perm (List.range channels)) {buf : Nat → List (Option K)} {z : Counts}
    {res : PoolResult (Option K)} (hfills : c.Fills c.avgpoolSizes buf (c.poolAvg input) order z res)
    (hends : MaxAllocSize < 4 * z.cells + 32 ∨
      i32 (z.out_width * z.out_height) = ((outSide w p k s * outSide w p k s : Nat) : Int)) :
    Sized channels w k p s ∧ z.cells = ((channels * (outSide w p k s * outSide w p k s) : Nat) : Int) := by
  have hmax : MaxAllocSize = 2 ^ 30 - 1 := by decide
  have hmax' : MaxArraySize = 2 ^ 27 - 1 := by decide
  obtain ⟨n, hsizes, hn, hinside, -⟩ := hfills
  have hchannels := h.bounds.channels_pos
  obtain ⟨hz, hnonneg, hroom⟩ := h.avgpoolSizes_ok hsizes rfl
  obtain ⟨square, hsquare⟩ := Int.eq_ofNat_of_zero_le hnonneg
  rw [hsquare] at hz hroom
  have hle : (square : Int) ≤ extent32 w k p s * extent32 w k p s :=
    hsquare ▸ i32_le (mul_self_nonneg _)
  have hone : square ≤ square * channels := Nat.le_mul_of_pos_right _ hchannels
  have hfits : square * channels < 2 ^ 29 := by
    have : ((square * channels : Nat) : Int) = square * channels := Nat.cast_mul ..
    omega
  have hrounds : n * n ≤ square := h.rounds_le horder
    (by rw [hz]; exact hsquare) (by rw [hz]) (by omega) hinside
  have hspan : w + 2 * p - k < 2 ^ 31 := by
    by_contra hspan
    have hlt := extent32_sq_lt h.bounds h.kernel_le h.stride_pos (not_lt.mp hspan)
    rcases Nat.lt_or_ge (w + p + 1) (2 ^ 31 + k) with hbound | hbound
    · -- no corner is left out, so more is stored than was counted
      have := Nat.mul_self_le_mul_self (h.le_rounds hbound hn)
      omega
    · rcases hends with hlarge | hright
      · have hsmall := extent32_sq_le h.bounds h.kernel_pos h.kernel_le hbound
        have hheld := h.bounds.held
        have : square * channels ≤ w * w * channels := Nat.mul_le_mul_right _ (by omega)
        rw [Nat.mul_comm (w * w)] at this
        rw [hz] at hlarge
        simp only at hlarge
        rw [← Nat.cast_mul] at hlarge
        omega
      · rw [hz] at hright
        simp only at hright
        omega
  have hwindows := h.le_rounds (h.bound_fits hspan) hn
  have hwindows' := Nat.mul_self_le_mul_self hwindows
  have hself : outSide w p k s ≤ outSide w p k s * outSide w p k s := Nat.le_mul_self _
  have hextent := extent32_eq h.kernel_le hspan (by omega : outSide w p k s < 2 ^ 31)
  -- as many windows are stored as are counted, and that is how many there are
  have hcount : square = outSide w p k s * outSide w p k s := by
    rw [hextent, ← Nat.cast_mul] at hle
    omega
  obtain rfl : n = outSide w p k s :=
    Nat.mul_self_inj.mp (Nat.le_antisymm (hcount ▸ hrounds) hwindows')
  refine ⟨⟨hspan, ?_, (h.rounds_iff hspan).mp hn⟩, ?_⟩
  · rw [← hcount, Nat.mul_comm channels]
    omega
  · rw [hz, ← hcount]
    push_cast
    ring

theorem Windowed.poolAvg_eq (h : c.Windowed channels w k p s) (input : ArrayType K) (hbound : w + p + 1 < 2 ^ 31 + k)
    {ch i j : Nat} (hch : ch < channels) (hi : i < outSide w p k s) (hj : j < outSide w p k s) :
    c.poolAvg input ch (c.corner i) (c.corner j) = c.reciprocal.map fun div_kernel_size_2 =>
      (∑ q ∈ imageWindow w k p s i j, pixel input w ch q) * div_kernel_size_2 := by
  rw [poolAvg, h.kernel, (h.guarded_reads hbound hch hi hj).sum_eq]

/-- The factor is the right one, or is only ever applied to zero. -/
theorem Windowed.scaled_iff [CharZero K] (h : c.Windowed channels w k p s) :
    (∀ ch < channels, ∀ i < outSide w p k s, ∀ j < outSide w p k s,
      (c.reciprocal.map fun div_kernel_size_2 =>
          (∑ q ∈ imageWindow w k p s i j, pixel input w ch q) * div_kernel_size_2) =
        some ((∑ q ∈ imageWindow w k p s i j, pixel input w ch q) / ((k : K) * k))) ↔
      Scaled input channels w k p s := by
  have hkk : ((k : K) * k) = (((k * k : Nat) : Int) : K) := by push_cast; rfl
  unfold reciprocal
  rw [h.kernel, ← Nat.cast_mul, hkk]
  simp only
  constructor
  · intro hall
    rcases Nat.lt_or_ge (k * k) (2 ^ 31) with hsmall | hlarge
    · exact .inl hsmall
    · refine .inr ?_
      have hwraps : i32 ((k * k : Nat) : Int) ≠ ((k * k : Nat) : Int) := fun heq => by
        have := (i32_eq_iff.mp heq).2
        omega
      rw [← Nat.cast_mul]
      by_cases hzero : i32 ((k * k : Nat) : Int) = 0
      · -- there is a cell, and no number in it
        obtain ⟨-, -, -, hpos⟩ := outSide_bounds (w := w) (p := p) (k := k) h.stride_pos
        have := hall 0 h.bounds.channels_pos 0 hpos 0 hpos
        rw [if_pos hzero] at this
        cases this
      · refine ⟨hzero, fun ch hch i hi j hj => ?_⟩
        have hcell := hall ch hch i hi j hj
        rw [if_neg hzero, Option.map_some, Option.some.injEq, mul_one_div] at hcell
        by_contra hsum
        rw [div_eq_mul_inv, div_eq_mul_inv] at hcell
        exact hwraps (Int.cast_injective (inv_inj.mp ((mul_right_inj' hsum).mp hcell)))
  · rintro (hsmall | ⟨hzero, hsums⟩) ch hch i hi j hj
    · have hpos : 0 < k * k := Nat.mul_pos h.kernel_pos h.kernel_pos
      rw [i32_eq_self ⟨by omega, by omega⟩, if_neg (by omega), Option.map_some, mul_one_div]
    · rw [← Nat.cast_mul] at hzero
      rw [if_neg hzero, Option.map_some, hsums ch hch i hi j hj, zero_mul, zero_div]

/-- A run has one result. -/
theorem Fills.unique {β : Type} {sizes : Except PgError Counts} {buf : Nat → List β}
    {value : Nat → Int → Int → β} {z z' : Counts} {res res' : PoolResult β}
    (h : c.Fills sizes buf value order z res) (h' : c.Fills sizes buf value order z' res') :
    z = z' ∧ res = res' := by
  obtain ⟨n, hsizes, hn, -, rfl⟩ := h
  obtain ⟨n', hsizes', hn', -, rfl⟩ := h'
  obtain rfl := Except.ok.inj (hsizes.symm.trans hsizes')
  obtain rfl := hn.unique hn'
  exact ⟨rfl, rfl⟩

/-- A result that fits is copied as it is, if there is room for another one. -/
theorem float4Construct_eq {β : Type} {z : Counts} {res : PoolResult β}
    (hnelems : z.out_nelems = (res.cells.length : Nat)) (hfits : 4 * res.cells.length < 2 ^ 31) :
    float4Construct z res = (palloc (4 * (res.cells.length : Nat) + 32)).map fun _ => res := by
  have hbytes : i32 (4 * z.out_nelems) = ((4 * res.cells.length : Nat) : Int) := by
    rw [hnelems, show 4 * ((res.cells.length : Nat) : Int) = ((4 * res.cells.length : Nat) : Int) by
      push_cast; rfl]
    exact i32_eq_self ⟨by omega, by omega⟩
  have htake : res.cells.take (4 * res.cells.length / 4) = res.cells := by
    rw [Nat.mul_div_cancel_left _ (by decide), List.take_length]
  unfold float4Construct
  simp only [hbytes, Int.toNat_natCast, htake]
  push_cast
  cases palloc (4 * (res.cells.length : Int) + 32) <;> rfl

theorem float4Construct_dims {β : Type} {z : Counts} {res res' : PoolResult β}
    (h : float4Construct z res = .ok res') : res'.dims = res.dims := by
  obtain ⟨_, -, hres⟩ := bind_ok_iff.mp h
  rw [← Except.ok.inj hres]

theorem Windowed.avgpoolSizes_cases (h : c.Windowed channels w k p s) :
    Refused c.avgpoolSizes ∨ ∃ z, c.avgpoolSizes = .ok z := by
  unfold avgpoolSizes
  rw [h.outExtent32]
  rcases palloc_cases (4 * i32 (extent32 w k p s * extent32 w k p s) * c.num_channel) with
    hok | ⟨f, ns, is, herr⟩
  · exact .inr ⟨_, bind_ok_iff.mpr ⟨_, rfl, bind_ok_iff.mpr ⟨_, rfl, bind_ok_iff.mpr ⟨(), hok, rfl⟩⟩⟩⟩
  · refine .inl ⟨f, ns, is, ?_⟩
    show (palloc _ >>= _) = _
    rw [herr]
    rfl

/-- The copy of a result is refused only for its size. -/
theorem Windowed.lt_of_refused (h : c.Windowed channels w k p s) {β : Type} {z : Counts}
    {res : PoolResult β} (hsizes : c.avgpoolSizes = .ok z) (hrefused : Refused (float4Construct z res)) :
    MaxAllocSize < 4 * z.cells + 32 := by
  have hmax : MaxAllocSize = 2 ^ 30 - 1 := by decide
  obtain ⟨rfl, hnonneg, hroom⟩ := h.avgpoolSizes_ok hsizes rfl
  have hcells := Int.mul_nonneg hnonneg (Int.natCast_nonneg channels)
  by_contra hsmall
  obtain ⟨f, ns, is, herr⟩ := hrefused
  dsimp only [float4Construct] at herr hsmall
  rw [i32_eq_self ⟨by omega, by omega⟩, palloc_ok (by omega) (by omega)] at herr
  cases herr

/-- What a run whose sizes fit comes to. -/
theorem Windowed.avgpool_run (h : c.Windowed channels w k p s) (input : ArrayType K)
    (junk : Nat → Option K)
    (horder : order.Perm (List.range channels)) (hsized : Sized channels w k p s) {z : Counts}
    (hsizes : c.avgpoolSizes = .ok z) :
    ∃ res, c.Fills c.avgpoolSizes (fun n => (List.range n).map junk) (c.poolAvg input) order z res ∧
      (res.IsPool channels (outSide w p k s) fun ch i j => c.reciprocal.map fun div_kernel_size_2 =>
        (∑ q ∈ imageWindow w k p s i j, pixel input w ch q) * div_kernel_size_2) ∧
      float4Construct z res =
        (palloc ((4 * (channels * (outSide w p k s * outSide w p k s)) + 32 : Nat) : Int)).map
          fun _ => res := by
  obtain ⟨hsquare, hself, hbytes⟩ := hsized.fits h.bounds.channels_pos
  have hextent : extent32 w k p s = (outSide w p k s : Nat) :=
    extent32_eq h.kernel_le hsized.span (by omega)
  have hproduct : i32 (extent32 w k p s * extent32 w k p s) =
      ((outSide w p k s * outSide w p k s : Nat) : Int) := by
    rw [hextent, ← Nat.cast_mul]
    exact i32_eq_self ⟨by omega, by omega⟩
  have hcells : ((outSide w p k s * outSide w p k s : Nat) : Int) * channels =
      ((channels * (outSide w p k s * outSide w p k s) : Nat) : Int) := by
    push_cast
    ring
  obtain ⟨hz, -, -⟩ := h.avgpoolSizes_ok hsizes hproduct
  rw [hcells, hextent] at hz
  obtain ⟨res, hfills, hpool⟩ := fills_of_fits (fun n => (List.range n).map junk) hsizes
    (by rw [hz]) (by rw [hz]) (by rw [hz]) (by omega) h.channels (fun n => by simp) horder
    ((h.rounds_iff hsized.span).mpr hsized.last)
    fun ch hch i hi j hj => h.poolAvg_eq input (h.bound_fits hsized.span) hch hi hj
  refine ⟨res, hfills, hpool, ?_⟩
  rw [float4Construct_eq (by rw [hz, hpool.size]) (by rw [hpool.size]; omega), hpool.size]
  push_cast
  rfl

/-- **`avgpool`** is refused or right exactly when what it computes fits. -/
theorem Windowed.avgMeets_iff [CharZero K] (h : c.Windowed channels w k p s)
    (horder : order.Perm (List.range channels)) :
    c.AvgMeets channels w k p s input junk order ↔ Refused c.avgpoolSizes ∨
      Sized channels w k p s ∧ (MaxAllocSize < 4 * (channels * (outSide w p k s * outSide w p k s)) + 32 ∨
        Scaled input channels w k p s) := by
  constructor
  · rintro (hrefused | ⟨z, res, hfills, hends⟩)
    · exact .inl hrefused
    · refine .inr ?_
      obtain ⟨n, hsizes, -, -, hres⟩ := id hfills
      obtain ⟨hsized, hcells⟩ := h.sized_of_fills horder hfills
        (hends.imp (h.lt_of_refused hsizes) fun ⟨res', hok, hpool⟩ => by
          have hdims : res'.dims = res.dims := float4Construct_dims hok
          rw [hpool.dims, hres] at hdims
          exact (List.cons.inj (List.cons.inj hdims).2).1.symm)
      refine ⟨hsized, ?_⟩
      rcases hends with hrefused | ⟨res', hok, hpool⟩
      · left
        have := h.lt_of_refused hsizes hrefused
        rw [hcells] at this
        omega
      · right
        obtain ⟨res₀, hfills₀, hpool₀, hconstruct⟩ := h.avgpool_run input junk horder hsized hsizes
        obtain ⟨-, rfl⟩ := hfills.unique hfills₀
        obtain rfl : res = res' := by
          exact eq_of_map_const_ok (hconstruct.symm.trans hok)
        refine h.scaled_iff.mp fun ch hch i hi j hj => ?_
        exact Option.some.inj ((hpool₀.cells ch hch i hi j hj).symm.trans
          (hpool.cells ch hch i hi j hj))
  · rintro (hrefused | ⟨hsized, hends⟩)
    · exact .inl hrefused
    · rcases h.avgpoolSizes_cases with hrefused | ⟨z, hsizes⟩
      · exact .inl hrefused
      · obtain ⟨res, hfills, hpool, hconstruct⟩ := h.avgpool_run input junk horder hsized hsizes
        refine .inr ⟨z, res, hfills, ?_⟩
        rcases palloc_cases
          ((4 * (channels * (outSide w p k s * outSide w p k s)) + 32 : Nat) : Int) with hok | hrefused
        · rw [hok] at hconstruct
          have hscaled := hends.resolve_left fun hlarge => by
            have := le_of_palloc_ok hok
            have := hsized.bytes
            omega
          refine .inr ⟨res, hconstruct, hpool.dims, hpool.size, fun ch hch i hi j hj => ?_, hpool.once⟩
          rw [hpool.cells ch hch i hi j hj, h.scaled_iff.mpr hscaled ch hch i hi j hj]
        · obtain ⟨f, ns, is, herr⟩ := hrefused
          exact .inl ⟨f, ns, is, by rw [hconstruct, herr]; rfl⟩

end Avg

/-- **Pooling.** On every input with a window, in whatever order the channels come, `maxpool` and
`avgpool` are refused with an SQL error or return the maxima and the averages of the windows, every
cell stored once, if and only if what they compute fits an `int`; the two paths of `maxpool` always
agree. -/
theorem pooling_meets_iff {α K : Type} [LinearOrder α] [OrderBot α] [Zero α] [Field K] [CharZero K]
    (c : WindowCall) (channels w k p s : Nat) (h : c.Windowed channels w k p s)
    (input : ArrayType α) (image : ArrayType K) (junk : Nat → Option K) (order : List Nat)
    (horder : order.Perm (List.range channels)) :
    (c.MaxMeets channels w k p s input order ∧ c.PathsAgree input order ∧
        c.AvgMeets channels w k p s image junk order) ↔
      (Refused c.maxpoolSizes ∨ Sized channels w k p s) ∧
        (Refused c.avgpoolSizes ∨ Sized channels w k p s ∧
          (MaxAllocSize < 4 * (channels * (outSide w p k s * outSide w p k s)) + 32 ∨
            Scaled image channels w k p s)) := by
  rw [h.maxMeets_iff horder, h.avgMeets_iff horder]
  exact and_congr_right fun _ => and_iff_right (h.pathsAgree horder)

/-- A 2 × 2 image with one cell of padding, and 2 × 2 windows. -/
theorem pooling_twoByTwo :
    let c : WindowCall := ⟨1, 4, 2, 1, 1, by decide, by decide, by decide, by decide⟩
    let input : ArrayType (WithBot Int) := ArrayType.matrix 1 4 [1, 2, 3, 4] fun _ => 0
    let image : ArrayType Rat := ArrayType.matrix 1 4 [1, 2, 3, 4] fun _ => 0
    c.Windowed 1 2 2 1 1 ∧ c.MaxMeets 1 2 2 1 1 input [0] ∧ c.PathsAgree input [0] ∧
      c.AvgMeets 1 2 2 1 1 image (fun _ => none) [0] := by
  intro c input image
  have h : c.Windowed 1 2 2 1 1 := ⟨rfl, rfl, rfl, rfl, rfl, by decide, by decide, by decide⟩
  have hsized : Sized 1 2 2 1 1 := ⟨by decide, by decide, by decide⟩
  exact ⟨h, (pooling_meets_iff c 1 2 2 1 1 h input image (fun _ => none) [0] (List.Perm.refl _)).mpr
    ⟨.inr hsized, .inr ⟨hsized, .inr (.inl (by decide))⟩⟩⟩

/-- One cell, `maxpool` with padding `2¹⁵`. -/
def deepPadding : WindowCall := ⟨1, 1, 1, 32768, 1, by decide, by decide, by decide, by decide⟩

/-- One cell, `avgpool` with a kernel of `2¹⁶`. -/
def wideKernel : WindowCall := ⟨1, 1, 65536, 32768, 65536, by decide, by decide, by decide, by decide⟩

/-- The `65537 × 65537` windows of the first are counted as 131073 and most of them stored behind the
result; the second multiplies with `1.0 / 0`. -/
theorem pooling_overflows :
    ¬ deepPadding.MaxMeets 1 1 1 32768 1
        (ArrayType.matrix 1 1 [0] fun _ => 0 : ArrayType (WithBot Int)) [0] ∧
      ¬ wideKernel.AvgMeets 1 1 65536 32768 65536
        (ArrayType.matrix 1 1 [1] fun _ => 0 : ArrayType Rat) (fun _ => none) [0] := by
  have hside : side 1 = 1 := side_sq 1
  have hdeep : deepPadding.Windowed 1 1 1 32768 1 :=
    ⟨rfl, rfl, rfl, rfl, rfl, by decide, by decide, by decide⟩
  have hwide : wideKernel.Windowed 1 1 65536 32768 65536 :=
    ⟨rfl, rfl, rfl, rfl, rfl, by decide, by decide, by decide⟩
  constructor
  · intro hmeets
    rcases (hdeep.maxMeets_iff (List.Perm.refl [0])).mp hmeets with ⟨f, ns, is, hrefused⟩ | hsized
    · simp only [deepPadding, maxpoolSizes, outExtent32, width, hside] at hrefused
      cases hrefused
    · exact absurd hsized.bytes (by decide)
  · intro hmeets
    rcases (hwide.avgMeets_iff (List.Perm.refl [0])).mp hmeets with
      ⟨f, ns, is, hrefused⟩ | ⟨-, hlarge | hsmall | ⟨hzero, -⟩⟩
    · simp only [wideKernel, avgpoolSizes, outExtent32, width, hside] at hrefused
      cases hrefused
    · exact absurd hlarge (by decide)
    · exact absurd hsmall (by decide)
    · exact absurd rfl hzero

end WindowCall

end Peps
