import Peps.Lib.WrapInt
import Peps.Kernel.ConvCorrect

/-!
# The sizes of `kfm_im2col` and `maxpool`, in `int`

The other kernel modules take C `int`s as unbounded. Here the two functions' size computations,
their allocations and the stores of their loops are modelled in 32-bit arithmetic that wraps, for
any array PostgreSQL can hold and any arguments. `Safe` is what the loops need of the sizes: they
visit `out_width × out_height` windows and fill exactly the cells that were allocated.

Three things break it: a stride that is not positive, a kernel larger than the padded input
(where `/` truncates toward zero and one window is counted but none visited), and a product
that leaves `int`. `safe_iff` says that there is nothing else, as long as no sum of the arguments
wraps; then the sizes are also the unbounded ones of the other modules (`outExtent32_eq`).
-/

namespace Peps

open Lib

/-- `palloc(size)` of a `size_t`. -/
def palloc (size : Int) : Except PgError Unit :=
  if (MaxAllocSize : Int) < size % 2 ^ 64 then
    .error (.report "invalid memory alloc request size %zu" [] [size % 2 ^ 64])
  else .ok ()

theorem palloc_ok {size : Int} (hpos : 0 ≤ size) (h : size ≤ MaxAllocSize) : palloc size = .ok () := by
  have hmax : (MaxAllocSize : Int) < 2 ^ 64 := by decide
  rw [palloc, if_neg (by rw [Int.emod_eq_of_lt hpos (by omega)]; omega)]

/-- What the size computations of a call read: the two dimensions of an array PostgreSQL can
hold (of the slice, with an offset) and the three `int4` arguments. -/
structure WindowCall where
  num_channel : Int
  nelems_channel : Int
  kernel_size : Int
  padding : Int
  stride : Int
  hheld : 1 ≤ num_channel ∧ 1 ≤ nelems_channel ∧ num_channel * nelems_channel ≤ MaxArraySize
  hkernel : IsInt32 kernel_size
  hpadding : IsInt32 padding
  hstride : IsInt32 stride

/-- What a call computes before its loops; `cells` is the number of `float4` the allocation
has room for. -/
structure Counts where
  out_width : Int
  out_height : Int
  out_nelems : Int
  cells : Int

/-- The sizes are those of `n × n` windows of `per` cells, the allocation has as many cells,
and the loops store to each of them once. -/
structure Covers (z : Counts) (n per : Nat) (stores : List Int) : Prop where
  width : z.out_width = n
  height : z.out_height = n
  nelems : z.out_nelems = (n * n * per : Nat)
  room : z.cells = z.out_nelems
  cells : stores = (List.range (n * n * per)).map Nat.cast

/-- The call ends in an SQL error. -/
def Refused {β : Type} (out : Except PgError β) : Prop :=
  ∃ format names numbers, out = .error (.report format names numbers)

namespace WindowCall

variable (c : WindowCall)

/-- `width = height = sqrt(nelems_channel)`. -/
def width : Int := side c.nelems_channel

/-- `(width + 2 * padding - kernel_size) / stride + 1`. The processor traps on a zero divisor,
and on the one quotient that does not fit. -/
def outExtent32 : Except PgError Int :=
  let num := i32 (i32 (c.width + i32 (2 * c.padding)) - c.kernel_size)
  if c.stride = 0 ∨ (num = -2 ^ 31 ∧ c.stride = -1) then .error .divisionByZero
  else .ok (i32 (num.tdiv c.stride + 1))

/-- `kfm_im2col` up to the call of `im2col_core`. -/
def kfmIm2colSizes : Except PgError Counts := do
  let out_width ← c.outExtent32
  let out_height ← c.outExtent32
  let out_nelems := i32 (i32 (i32 (i32 (out_width * out_height) * c.num_channel)
    * c.kernel_size) * c.kernel_size)
  palloc (4 * out_nelems)
  return ⟨out_width, out_height, out_nelems, out_nelems⟩

/-- `maxpool` up to its loops: `float4construct_md_array_ncpy` keeps the number of bytes in an
`int`, and adds `ARR_OVERHEAD_NONULLS(2)` to it. -/
def maxpoolSizes : Except PgError Counts := do
  let out_width ← c.outExtent32
  let out_height ← c.outExtent32
  let out_nelems := i32 (i32 (out_width * out_height) * c.num_channel)
  let nbytes := i32 (4 * out_nelems)
  palloc (nbytes + 32)
  return ⟨out_width, out_height, out_nelems, nbytes.tdiv 4⟩

/-! ## The loops -/

/-- The first value of `rn` and `cn`; without padding the source writes `0`. -/
def first : Int := i32 (-c.padding)

/-- `height + padding - kernel_size + 1`; without padding the source leaves it out. -/
def bound : Int := i32 (i32 (i32 (c.width + c.padding) - c.kernel_size) + 1)

/-- `rn` (and `cn`) in round `i`. -/
def corner (i : Nat) : Int := loopVar c.first c.stride i

/-- `((rn + padding) / stride * out_width + (cn + padding) / stride) * num_channel * kernel_size
* kernel_size`. -/
def im2colHead (out_width rn cn : Int) : Int :=
  let slot := i32 (i32 ((i32 (rn + c.padding)).tdiv c.stride * out_width)
    + (i32 (cn + c.padding)).tdiv c.stride)
  i32 (i32 (i32 (slot * c.num_channel) * c.kernel_size) * c.kernel_size)

/-- The cells one window of `im2col_core` is copied to. -/
def im2colCells : Nat := c.num_channel.toNat * c.kernel_size.toNat * c.kernel_size.toNat

/-- The positions `im2col_core` stores to, when its two loops take `n` rounds each. -/
def im2colStores (z : Counts) (n : Nat) : List Int :=
  (rect n n).flatMap fun q => (List.range c.im2colCells).map fun (t : Nat) =>
    i32 (c.im2colHead z.out_width (c.corner q.1) (c.corner q.2) + t)

/-- The positions `maxpool` stores to: one cell a window, channel after channel. -/
def maxpoolStores (z : Counts) (n : Nat) : List Int :=
  (List.range c.num_channel.toNat).flatMap fun (ch : Nat) => (List.range (n * n)).map fun (t : Nat) =>
    i32 (i32 (ch * i32 (z.out_width * z.out_height)) + t)

/-- The call is refused with an SQL error before its loops, or it divides by nothing that
traps, its loops end, and they fill what was allocated. -/
def Safe (sizes : Except PgError Counts) (per : Nat) (stores : Counts → Nat → List Int) : Prop :=
  Refused sizes ∨
    ∃ z n, sizes = .ok z ∧ Rounds c.first c.bound c.stride n ∧ Covers z n per (stores z n)

def KfmIm2colSafe : Prop := c.Safe c.kfmIm2colSizes c.im2colCells c.im2colStores
def MaxpoolSafe : Prop := c.Safe c.maxpoolSizes c.num_channel.toNat c.maxpoolStores

/-! ## Where no sum wraps -/

/-- `width + 2 * padding - kernel_size`, exactly. -/
def span : Int := c.width + 2 * c.padding - c.kernel_size

/-- Kernel and padding are not negative and small enough for the sums of the code. -/
structure Ordinary : Prop where
  padding : 0 ≤ c.padding
  kernel : 0 ≤ c.kernel_size
  sum : c.width + 2 * c.padding + |c.stride| < 2 ^ 31

/-- The sizes on which the two functions work: a positive stride, and a kernel that fits into
the padded input with a matrix that can be allocated, or one so large that the count is zero. -/
def Counted (per : Nat) : Prop :=
  1 ≤ c.stride ∧
    (0 ≤ c.span ∧ 4 * ((c.span / c.stride + 1) * (c.span / c.stride + 1) * per) < 2 ^ 31 ∨
      -2 * c.stride < c.span ∧ c.span ≤ -c.stride)

variable {c}

theorem width_pos : 1 ≤ c.width := by
  have hpos : 0 < Nat.sqrt c.nelems_channel.toNat := Nat.sqrt_pos.mpr (by have := c.hheld.2.1; omega)
  unfold width side
  omega

theorem Ordinary.span_fits (h : c.Ordinary) (hs : c.stride ≠ 0) :
    -2 ^ 31 + 1 < c.span ∧ c.span + 1 < 2 ^ 31 := by
  have hW : 1 ≤ c.width := width_pos
  have hpos : 1 ≤ |c.stride| := Int.one_le_abs hs
  have := h.padding
  have := h.kernel
  have := h.sum
  have := c.hkernel.2
  unfold span
  omega

theorem outExtent32_zero (hs : c.stride = 0) : c.outExtent32 = .error .divisionByZero := by
  unfold outExtent32
  exact if_pos (.inl hs)

/-- The quotient of two integers is no further from zero than the dividend. -/
theorem natAbs_tdiv_le (a b : Int) : (a.tdiv b).natAbs ≤ a.natAbs := by
  rw [Int.natAbs_tdiv]
  exact Nat.div_le_self _ _

/-- Cells that fit into the bytes of an `int`. -/
theorem four_mul_lt_of_tdiv {bytes cells : Int} (hbytes : IsInt32 bytes)
    (h : bytes.tdiv 4 = cells) (hcells : 0 ≤ cells) : 4 * cells < 2 ^ 31 := by
  have hhi := hbytes.2
  rcases lt_or_ge bytes 0 with hneg | hnonneg
  · have : 0 ≤ (-bytes).tdiv 4 := Int.tdiv_nonneg (by omega) (by decide)
    rw [Int.neg_tdiv] at this
    omega
  · rw [Int.tdiv_eq_ediv_of_nonneg hnonneg] at h
    omega

/-- Where no sum wraps, `out_width` is the unbounded one. -/
theorem outExtent32_eq (h : c.Ordinary) (hs : c.stride ≠ 0) :
    c.outExtent32 = .ok (outExtent c.width c.padding c.kernel_size c.stride) := by
  obtain ⟨hlo, hhi⟩ := h.span_fits hs
  have hnum : i32 (i32 (c.width + i32 (2 * c.padding)) - c.kernel_size) = c.span := by
    rw [i32_add_i32, i32_i32_sub]
    exact i32_eq_self ⟨by unfold span at hlo; omega, by unfold span at hhi; omega⟩
  have hquot : IsInt32 (c.span.tdiv c.stride + 1) := by
    have hle := natAbs_tdiv_le c.span c.stride
    constructor <;> omega
  unfold outExtent32
  rw [hnum, if_neg (by omega), i32_eq_self hquot]
  rfl

theorem first_eq (h : c.Ordinary) : c.first = -c.padding :=
  i32_eq_self (by have := h.padding; have := c.hpadding.2; constructor <;> omega)

theorem bound_eq (h : c.Ordinary) (hs : c.stride ≠ 0) : c.bound = c.first + (c.span + 1) := by
  have hW : 1 ≤ c.width := width_pos
  have hpos : 1 ≤ |c.stride| := Int.one_le_abs hs
  have hp := h.padding
  have hk := h.kernel
  have hsum := h.sum
  have hk' := c.hkernel.2
  rw [first_eq h, bound, i32_i32_sub, i32_i32_add, i32_eq_self ⟨by omega, by omega⟩, span]
  omega

/-! ## The number of windows -/

/-- A negative stride takes the loop variable away from the bound. -/
theorem two_le_of_rounds_neg (h : c.Ordinary) (hs : c.stride < 0) (hspan : 0 ≤ c.span) {n : Nat}
    (hn : Rounds c.first c.bound c.stride n) : 2 ≤ n := by
  have hbound := bound_eq h hs.ne
  have hfirst := first_eq h
  have hsum := h.sum
  have hp := h.padding
  have hW : 1 ≤ c.width := width_pos
  rw [abs_of_neg hs] at hsum
  by_contra hlt
  apply hn.2
  obtain rfl | rfl : n = 0 ∨ n = 1 := by omega
  · show c.first < c.bound
    omega
  · show i32 (c.first + c.stride) < c.bound
    rw [i32_eq_self ⟨by omega, by omega⟩]
    omega

/-- The value that ends the loops still fits. -/
theorem isInt32_end (h : c.Ordinary) (hs : 1 ≤ c.stride) (hspan : 0 ≤ c.span) {n : Nat}
    (hn : (n : Int) = c.span / c.stride + 1) :
    IsInt32 (c.first + n * c.stride) ∧ c.span < n * c.stride := by
  have hfirst := first_eq h
  have hsum := h.sum
  have hp := h.padding
  have hp' := c.hpadding.2
  have hk := h.kernel
  have hspan' : c.span = c.width + 2 * c.padding - c.kernel_size := rfl
  rw [abs_of_pos (by omega)] at hsum
  have hdiv := Int.mul_ediv_add_emod c.span c.stride
  have hmod := Int.emod_nonneg c.span (b := c.stride) (by omega)
  have hmod' := Int.emod_lt_of_pos c.span (b := c.stride) (by omega)
  have hend : (n : Int) * c.stride = c.stride * (c.span / c.stride) + c.stride := by
    rw [hn]
    ring
  exact ⟨⟨by omega, by omega⟩, by omega⟩

/-- The corner of round `i` starts `i` strides into the padded input. -/
theorem corner_offset_le {n i : Nat} (hs : 1 ≤ c.stride)
    (hn : (n : Int) = c.span / c.stride + 1) (hi : i < n) : (i : Int) * c.stride ≤ c.span := by
  calc (i : Int) * c.stride ≤ (c.span / c.stride) * c.stride :=
        Int.mul_le_mul_of_nonneg_right (by omega) (by omega)
    _ ≤ c.span := Int.ediv_mul_le _ (by omega)

/-- With a positive stride and a kernel that fits, the loops visit what the formula counts. -/
theorem rounds_of_fits (h : c.Ordinary) (hs : 1 ≤ c.stride) (hspan : 0 ≤ c.span) {n : Nat}
    (hn : (n : Int) = c.span / c.stride + 1) : Rounds c.first c.bound c.stride n := by
  have hbound := bound_eq h (by omega)
  obtain ⟨hend, hlt⟩ := isInt32_end h hs hspan hn
  refine rounds_of_ends (by omega) (isInt32_i32 _) hend (fun i hi => ?_) (by omega)
  have := corner_offset_le hs hn hi
  omega

/-- **Counted windows are visited windows** exactly for a positive stride and a kernel that
fits, or one that is too large by a whole stride but less than two. -/
theorem windows_iff (h : c.Ordinary) (hs : c.stride ≠ 0) {n : Nat} :
    Rounds c.first c.bound c.stride n ∧ outExtent c.width c.padding c.kernel_size c.stride = n ↔
      1 ≤ c.stride ∧ (0 ≤ c.span ∧ (n : Int) = c.span / c.stride + 1 ∨
        (-2 * c.stride < c.span ∧ c.span ≤ -c.stride) ∧ n = 0) := by
  have hext : outExtent c.width c.padding c.kernel_size c.stride = c.span.tdiv c.stride + 1 := rfl
  have hbound := bound_eq h hs
  rw [hext]
  rcases lt_or_ge c.span 0 with hneg | hspan
  · -- no window is visited
    have hzero : Rounds c.first c.bound c.stride 0 := rounds_zero (by omega)
    have hquot : c.span.tdiv c.stride = -((-c.span).tdiv c.stride) := by rw [Int.neg_tdiv, neg_neg]
    rcases lt_or_ge c.stride 0 with hback | hpos
    · have : 0 ≤ (-c.span).tdiv (-c.stride) := Int.tdiv_nonneg (by omega) (by omega)
      rw [Int.tdiv_neg] at this
      constructor
      · rintro ⟨hn, hcount⟩
        have := hn.unique hzero
        omega
      · rintro ⟨h1, -⟩
        omega
    · have hdiv : (-c.span).tdiv c.stride = (-c.span) / c.stride :=
        Int.tdiv_eq_ediv_of_nonneg (by omega)
      have hone : (-c.span) / c.stride = 1 ↔ -2 * c.stride < c.span ∧ c.span ≤ -c.stride := by
        rw [Int.ediv_eq_iff_of_pos (by omega)]
        omega
      constructor
      · rintro ⟨hn, hcount⟩
        have hn0 := hn.unique hzero
        exact ⟨by omega, .inr ⟨hone.mp (by omega), hn0⟩⟩
      · rintro ⟨-, ⟨hge, -⟩ | ⟨hrange, rfl⟩⟩
        · omega
        · have := hone.mpr hrange
          exact ⟨hzero, by omega⟩
  · rcases lt_or_ge c.stride 0 with hback | hpos
    · have : 0 ≤ c.span.tdiv (-c.stride) := Int.tdiv_nonneg hspan (by omega)
      rw [Int.tdiv_neg] at this
      constructor
      · rintro ⟨hn, hcount⟩
        have := two_le_of_rounds_neg h hback hspan hn
        omega
      · rintro ⟨h1, -⟩
        omega
    · rw [Int.tdiv_eq_ediv_of_nonneg hspan]
      constructor
      · rintro ⟨-, hcount⟩
        exact ⟨by omega, .inl ⟨hspan, hcount.symm⟩⟩
      · rintro ⟨h1, ⟨-, hcount⟩ | ⟨hrange, -⟩⟩
        · exact ⟨rounds_of_fits h h1 hspan hcount, hcount.symm⟩
        · omega

/-! ## The sizes and the stores -/

theorem palloc_cases (size : Int) : palloc size = .ok () ∨ Refused (palloc size) := by
  unfold palloc
  split
  · exact .inr ⟨_, _, _, rfl⟩
  · exact .inl rfl

theorem le_of_palloc_ok {size : Int} (h : palloc size = .ok ()) : size % 2 ^ 64 ≤ MaxAllocSize := by
  unfold palloc at h
  split at h
  · exact absurd h (by simp)
  · omega

theorem natCast_im2colCells (h : c.Ordinary) :
    (c.im2colCells : Int) = c.num_channel * c.kernel_size * c.kernel_size := by
  have hC := c.hheld.1
  unfold im2colCells
  push_cast
  rw [Int.toNat_of_nonneg (by omega), Int.toNat_of_nonneg h.kernel]

theorem kfmIm2colSizes_eq (h : c.Ordinary) (hs : c.stride ≠ 0) :
    let e := outExtent c.width c.padding c.kernel_size c.stride
    let out_nelems := i32 (e * e * c.im2colCells)
    c.kfmIm2colSizes = (palloc (4 * out_nelems)).map fun _ => ⟨e, e, out_nelems, out_nelems⟩ := by
  intro e out_nelems
  have hprod : i32 (i32 (i32 (i32 (e * e) * c.num_channel) * c.kernel_size) * c.kernel_size) =
      out_nelems := by
    simp only [i32_i32_mul, out_nelems, natCast_im2colCells h]
    congr 1
    ring
  unfold kfmIm2colSizes
  rw [outExtent32_eq h hs]
  show (palloc (4 * i32 _) >>= _) = _
  rw [hprod]
  cases palloc (4 * out_nelems) <;> rfl

theorem maxpoolSizes_eq (h : c.Ordinary) (hs : c.stride ≠ 0) :
    let e := outExtent c.width c.padding c.kernel_size c.stride
    let out_nelems := i32 (e * e * c.num_channel.toNat)
    c.maxpoolSizes = (palloc (i32 (4 * out_nelems) + 32)).map
      fun _ => ⟨e, e, out_nelems, (i32 (4 * out_nelems)).tdiv 4⟩ := by
  intro e out_nelems
  have hC := c.hheld.1
  have hprod : i32 (i32 (e * e) * c.num_channel) = out_nelems := by
    rw [i32_i32_mul, ← Int.toNat_of_nonneg (a := c.num_channel) (by omega)]
  unfold maxpoolSizes
  rw [outExtent32_eq h hs]
  show (palloc (i32 (4 * i32 _) + 32) >>= _) = _
  rw [hprod]
  cases palloc (i32 (4 * out_nelems) + 32) <;> rfl

/-- The parts of a function that the argument below needs: its sizes, how they bound its
allocation, and where its loops store. -/
structure Plan (c : WindowCall) (sizes : Except PgError Counts) (per : Nat)
    (stores : Counts → Nat → List Int) (size : Int) (z : Counts) : Prop where
  sizes : sizes = (palloc size).map fun _ => z
  width : z.out_width = outExtent c.width c.padding c.kernel_size c.stride
  height : z.out_height = outExtent c.width c.padding c.kernel_size c.stride
  nelems : z.out_nelems = i32 (outExtent c.width c.padding c.kernel_size c.stride *
    outExtent c.width c.padding c.kernel_size c.stride * per)
  room : IsInt32 (4 * z.out_nelems) → z.cells = z.out_nelems
  fits : palloc size = .ok () → z.cells = z.out_nelems → 0 ≤ z.out_nelems →
    4 * z.out_nelems < 2 ^ 31
  none : stores z 0 = []
  cells : ∀ n : Nat, 1 ≤ c.stride → 0 ≤ c.span → (n : Int) = c.span / c.stride + 1 →
    ((n * n * per : Nat) : Int) < 2 ^ 31 → stores z n = (List.range (n * n * per)).map Nat.cast

/-- A planned call that allocates is safe exactly on the counted sizes. -/
theorem Plan.covers_iff {sizes : Except PgError Counts} {per : Nat}
    {stores : Counts → Nat → List Int} {size : Int} {z : Counts}
    (hplan : Plan c sizes per stores size z) (h : c.Ordinary) (hs : c.stride ≠ 0)
    (hok : palloc size = .ok ()) :
    (∃ n, Rounds c.first c.bound c.stride n ∧ Covers z n per (stores z n)) ↔ c.Counted per := by
  constructor
  · rintro ⟨n, hn, hcov⟩
    have hcount : outExtent c.width c.padding c.kernel_size c.stride = n :=
      hplan.width ▸ hcov.width
    obtain ⟨h1, ⟨hspan, hq⟩ | ⟨hrange, -⟩⟩ := (windows_iff h hs).mp ⟨hn, hcount⟩
    · have hlt := hplan.fits hok hcov.room (by rw [hcov.nelems]; exact Int.natCast_nonneg _)
      refine ⟨h1, .inl ⟨hspan, ?_⟩⟩
      rw [hcov.nelems] at hlt
      rw [← hq]
      push_cast at hlt
      exact hlt
    · exact ⟨h1, .inr hrange⟩
  · rintro ⟨h1, ⟨hspan, hlt⟩ | hrange⟩
    · have hnonneg : 0 ≤ c.span / c.stride := Int.ediv_nonneg hspan (by omega)
      obtain ⟨n, hq⟩ := Int.eq_ofNat_of_zero_le (show 0 ≤ c.span / c.stride + 1 by omega)
      obtain ⟨hn, hcount⟩ := (windows_iff h hs).mpr ⟨h1, .inl ⟨hspan, hq.symm⟩⟩
      have hT : ((n * n * per : Nat) : Int) = (n : Int) * n * per := by push_cast; rfl
      rw [hq, ← hT] at hlt
      have hnelems : z.out_nelems = (n * n * per : Nat) := by
        rw [hplan.nelems, hcount, ← hT]
        exact i32_eq_self ⟨by omega, by omega⟩
      exact ⟨n, hn, hplan.width.trans hcount, hplan.height.trans hcount, hnelems,
        hplan.room ⟨by omega, by omega⟩, hplan.cells n h1 hspan hq.symm (by omega)⟩
    · obtain ⟨hn, hcount⟩ := (windows_iff (n := 0) h hs).mpr ⟨h1, .inr ⟨hrange, rfl⟩⟩
      have hnelems : z.out_nelems = 0 := by
        rw [hplan.nelems, hcount]
        simp [i32]
      exact ⟨0, hn, hplan.width.trans hcount, hplan.height.trans hcount, by simpa using hnelems,
        hplan.room (by rw [hnelems]; constructor <;> decide), by simpa using hplan.none⟩

/-- A planned call is refused, or it is safe exactly on the counted sizes. -/
theorem Plan.refused_or_counted {sizes : Except PgError Counts} {per : Nat}
    {stores : Counts → Nat → List Int} {size : Int} {z : Counts}
    (hplan : Plan c sizes per stores size z) (h : c.Ordinary) (hs : c.stride ≠ 0) :
    c.Safe sizes per stores ↔ Refused sizes ∨ c.Counted per := by
  rcases palloc_cases size with hok | ⟨f, ns, is, herr⟩
  · have hsizes : sizes = .ok z := by rw [hplan.sizes, hok]; rfl
    rw [← hplan.covers_iff h hs hok, Safe]
    constructor
    · rintro (href | ⟨z', n, hz', hrest⟩)
      · exact .inl href
      · obtain rfl : z = z' := by simpa [hsizes] using hz'
        exact .inr ⟨n, hrest⟩
    · rintro (href | ⟨n, hrest⟩)
      · exact .inl href
      · exact .inr ⟨z, n, hsizes, hrest⟩
  · have href : Refused sizes := ⟨f, ns, is, by rw [hplan.sizes, herr]; rfl⟩
    exact ⟨fun _ => .inl href, fun _ => .inl href⟩

/-- A division by zero is no SQL error. -/
theorem not_safe_of_trap {sizes : Except PgError Counts} {per : Nat}
    {stores : Counts → Nat → List Int} (h : sizes = .error .divisionByZero) :
    ¬ c.Safe sizes per stores := by
  subst h
  rintro (⟨_, _, _, h⟩ | ⟨_, _, h, _⟩) <;> simp at h

/-- The row index computed from a corner is the number of its round. -/
theorem corner_index (h : c.Ordinary) (hs : 1 ≤ c.stride) (hspan : 0 ≤ c.span) {n i : Nat}
    (hn : (n : Int) = c.span / c.stride + 1) (hi : i < n) :
    (i32 (c.corner i + c.padding)).tdiv c.stride = i := by
  have hle := corner_offset_le hs hn hi
  have hnonneg : 0 ≤ (i : Int) * c.stride := Int.mul_nonneg (by omega) (by omega)
  have hfits := (h.span_fits (by omega)).2
  have hcorner : c.corner i = c.first + i * c.stride :=
    loopVar_eq_of_ends (by omega) (isInt32_i32 _) (isInt32_end h hs hspan hn).1 hi.le
  rw [hcorner, first_eq h, show -c.padding + (i : Int) * c.stride + c.padding = i * c.stride by ring,
    i32_eq_self ⟨by omega, by omega⟩]
  exact Int.mul_tdiv_cancel _ (by omega)

theorem im2colStores_eq (h : c.Ordinary) (hs : 1 ≤ c.stride) (hspan : 0 ≤ c.span) {n : Nat}
    (hn : (n : Int) = c.span / c.stride + 1) {z : Counts} (hz : z.out_width = n)
    (hT : ((n * n * c.im2colCells : Nat) : Int) < 2 ^ 31) :
    c.im2colStores z n = (List.range (n * n * c.im2colCells)).map Nat.cast := by
  have hstore : ∀ q ∈ rect n n, ∀ t < c.im2colCells,
      i32 (c.im2colHead z.out_width (c.corner q.1) (c.corner q.2) + t) =
        (((q.1 * n + q.2) * c.im2colCells + t : Nat) : Int) := by
    intro q hq t ht
    obtain ⟨hi, hj⟩ := mem_rect.mp hq
    have hlt : (q.1 * n + q.2) * c.im2colCells + t < n * n * c.im2colCells :=
      slot_lt (slot_lt hi hj) ht
    have hhead : i32 (c.im2colHead z.out_width (c.corner q.1) (c.corner q.2) + t) =
        i32 (((q.1 * n + q.2) * c.im2colCells + t : Nat) : Int) := by
      unfold im2colHead
      rw [corner_index h hs hspan hn hi, corner_index h hs hspan hn hj, hz]
      simp only [i32_i32_mul, i32_i32_add]
      congr 1
      push_cast
      rw [natCast_im2colCells h]
      ring
    rw [hhead]
    exact i32_eq_self ⟨by omega, by omega⟩
  rw [← flatMap_range_blocks, ← rect_map_slot, List.flatMap_map, List.map_flatMap]
  unfold im2colStores
  refine List.flatMap_congr fun q hq => ?_
  rw [List.map_map]
  exact List.map_congr_left fun t ht => hstore q hq t (List.mem_range.mp ht)

theorem maxpoolStores_eq {n : Nat} {z : Counts} (hw : z.out_width = n) (hh : z.out_height = n)
    (hT : ((n * n * c.num_channel.toNat : Nat) : Int) < 2 ^ 31) :
    c.maxpoolStores z n = (List.range (n * n * c.num_channel.toNat)).map Nat.cast := by
  rw [Nat.mul_comm, ← flatMap_range_blocks, List.map_flatMap]
  unfold maxpoolStores
  refine List.flatMap_congr fun ch hch => ?_
  rw [List.map_map]
  refine List.map_congr_left fun t ht => ?_
  have hlt := slot_lt (List.mem_range.mp hch) (List.mem_range.mp ht)
  rw [Nat.mul_comm c.num_channel.toNat] at hlt
  have hexact : i32 (i32 (ch * i32 (z.out_width * z.out_height)) + t) =
      i32 ((ch * (n * n) + t : Nat) : Int) := by
    rw [hw, hh, i32_mul_i32, i32_i32_add]
    push_cast
    rfl
  rw [hexact]
  exact i32_eq_self ⟨by omega, by omega⟩

theorem kfmIm2col_plan (h : c.Ordinary) (hs : c.stride ≠ 0) :
    ∃ size z, Plan c c.kfmIm2colSizes c.im2colCells c.im2colStores size z := by
  refine ⟨_, _, kfmIm2colSizes_eq h hs, rfl, rfl, rfl, fun _ => rfl, fun hok _ hnonneg => ?_,
    rfl, fun n h1 hspan hn hT => ?_⟩
  · have hle := le_of_palloc_ok hok
    have hfits := isInt32_i32 (outExtent c.width c.padding c.kernel_size c.stride *
      outExtent c.width c.padding c.kernel_size c.stride * c.im2colCells)
    simp only at hnonneg ⊢
    rw [Int.emod_eq_of_lt (by omega) (by have := hfits.2; omega)] at hle
    have hmax : (MaxAllocSize : Int) < 2 ^ 31 := by decide
    omega
  · exact im2colStores_eq h h1 hspan hn
      ((windows_iff h hs).mpr ⟨h1, .inl ⟨hspan, hn⟩⟩).2 hT

theorem maxpool_plan (h : c.Ordinary) (hs : c.stride ≠ 0) :
    ∃ size z, Plan c c.maxpoolSizes c.num_channel.toNat c.maxpoolStores size z := by
  refine ⟨_, _, maxpoolSizes_eq h hs, rfl, rfl, rfl, fun hbytes => ?_, fun _ hcells hnonneg => ?_,
    ?_, fun n h1 hspan hn hT => ?_⟩
  · show (i32 (4 * _)).tdiv 4 = _
    rw [i32_eq_self hbytes]
    exact Int.mul_tdiv_cancel_left _ (by decide)
  · -- the bytes were kept in an `int`, so they are at most what an `int` holds
    have hbytes := isInt32_i32 (4 * i32 (outExtent c.width c.padding c.kernel_size c.stride *
      outExtent c.width c.padding c.kernel_size c.stride * c.num_channel.toNat))
    simp only at hcells hnonneg ⊢
    exact four_mul_lt_of_tdiv hbytes hcells hnonneg
  · simp [maxpoolStores]
  · have hcount := ((windows_iff h hs).mpr ⟨h1, .inl ⟨hspan, hn⟩⟩).2
    exact maxpoolStores_eq hcount hcount hT

end WindowCall

end Peps
