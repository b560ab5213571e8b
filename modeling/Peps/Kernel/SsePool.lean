import Mathlib.Tactic.Abel
import Peps.Kernel.FusedPool

/-!
# `avgpool_core_optimized_3x3_sse`

The optimised pooling copies every channel into a frame of zeros, so that no window needs a look at
the borders, and adds the three rows of a window as vectors of four lanes, of which it uses three.

* `getElem?_padChannels`: the frame holds the pixel, or zero beyond the borders;
* `averageWindow_run`: the value of a window, and the cells that its loads touch;
* `sseRow_eq_poolRow`: the windows of a channel have the averages that `avgpool_core` stores;
* `loads_inside_iff`: the fourth lane leaves the frame at the last window of the last channel,
  if the stride reaches it.
-/

namespace Peps

open Lib

/-! ## The function -/

section Model

variable {α : Type}

/-- `__m128`. -/
abbrev M128 (α : Type) := Fin 4 → α

/-- `_mm_add_ps`. -/
def mmAddPs [Add α] (a b : M128 α) : M128 α := fun l => a l + b l

/-- `_mm_shuffle_ps`: two bits of the mask for each lane, the low lanes from the first operand. -/
def mmShufflePs (a b : M128 α) (imm8 : Nat) : M128 α := fun l =>
  (if l.val < 2 then a else b) (Fin.ofNat 4 (imm8 / 4 ^ l.val))

/-- `_mm_cvtss_f32`. -/
def mmCvtssF32 (a : M128 α) : α := a 0

/-- `padded_data[i]`, with what the memory beyond the allocation holds. -/
def paddedElem (padded_data : List α) (beyond : Int → α) (i : Int) : α :=
  if 0 ≤ i then padded_data.getD i.toNat (beyond i) else beyond i

def fourCells (i : Int) : List Int := [i, i + 1, i + 2, i + 3]

/-- `_mm_loadu_ps(&padded_data[i])`: the four cells are added to those touched so far. -/
def mmLoaduPs (padded_data : List α) (beyond : Int → α) (i : Int) : StateM (List Int) (M128 α) := do
  modify (· ++ fourCells i)
  return fun l => paddedElem padded_data beyond (i + l.val)

/-- The frame after `MemSet` and the `memcpy` of every row. -/
def padChannels [Zero α] (input_data : Int → α) (width height num_channel padding : Int) : List α :=
  let padded_width := width + 2 * padding
  let padded_height := height + 2 * padding
  fillTiles
    (fun q : Nat × Nat =>
      (q.1 * padded_width * padded_height + (q.2 + padding) * padded_width + padding).toNat)
    (fun q => (List.range width.toNat).map fun (i : Nat) =>
      input_data (q.1 * width * height + q.2 * width + i))
    (List.replicate (padded_width * padded_height * num_channel).toNat 0)
    (rect num_channel.toNat height.toNat)

variable [Field α]

/-- The body of the two window loops. -/
def averageWindow (padded_data : List α) (beyond : Int → α) (padded_width matrix_head : Int) :
    StateM (List Int) α := do
  let sum0 ← mmLoaduPs padded_data beyond matrix_head
  let sum1 ← mmLoaduPs padded_data beyond (matrix_head + padded_width)
  let sum2 ← mmLoaduPs padded_data beyond (matrix_head + 2 * padded_width)
  let sum := mmAddPs sum0 sum1
  let sum := mmAddPs sum sum2
  let total_sum := mmCvtssF32 sum + mmCvtssF32 (mmShufflePs sum sum 1)
    + mmCvtssF32 (mmShufflePs sum sum 2)
  return total_sum * (1 / 9)

/-- The corners of the windows in the order of the two loops. -/
def sseCorners (padded_width padded_height stride : Int) : List (Int × Int) :=
  (steps 0 (padded_height - 2) stride).flatMap fun rn =>
    (steps 0 (padded_width - 2) stride).map fun cn => (rn, cn)

/-- `avgpool_core_optimized_3x3_sse`: `avg_data` afterwards, and the cells of `padded_data` that the
loads touched. -/
def avgpoolCoreOptimized3x3Sse (beyond : Int → α) (input_data : Int → α) (avg_data : List α)
    (out_nelems_channel width height num_channel padding stride : Int) :
    Except PgError (List α × List Int) :=
  let padded_width := width + 2 * padding
  let padded_height := height + 2 * padding
  let padded_data := padChannels input_data width height num_channel padding
  let nelems_channel := padded_width * padded_height
  if 0 < num_channel ∧ stride ≤ 0 ∧ 0 < padded_height - 2 then .error .runaway
  else
    .ok ((List.range num_channel.toNat).foldlM (fun avg_data (c : Nat) => do
      let row ← (sseCorners padded_width padded_height stride).mapM fun (q : Int × Int) =>
        averageWindow padded_data beyond padded_width
          (nelems_channel * c + q.1 * padded_width + q.2)
      return writeAt avg_data (c * out_nelems_channel).toNat row) avg_data |>.run [])

end Model

/-! ## The frame -/

section Frame

variable {α : Type} [Zero α] {width height channels p : Nat}

/-- Pixel `(y, x)` of channel `c` in the coordinates of the frame. -/
def framedPixel (input_data : Int → α) (width height p c y x : Nat) : α :=
  if (p ≤ y ∧ y < height + p) ∧ p ≤ x ∧ x < width + p then
    input_data (c * (width * height) + (y - p) * width + (x - p) : Nat)
  else 0

/-- The frame in natural numbers: row `h` of channel `c` is copied into row `h + p`. -/
theorem padChannels_eq (input_data : Int → α) :
    padChannels input_data width height channels p =
      fillTiles (fun q : Nat × Nat =>
          (q.1 * (height + 2 * p) + (q.2 + p)) * (width + 2 * p) + p)
        (fun q => (List.range width).map fun (i : Nat) =>
          input_data (q.1 * (width * height) + q.2 * width + i : Nat))
        (List.replicate (channels * (height + 2 * p) * (width + 2 * p)) 0)
        (rect channels height) := by
  have hlen : (((width : Int) + 2 * p) * (height + 2 * p) * channels).toNat =
      channels * (height + 2 * p) * (width + 2 * p) := by
    rw [← Int.toNat_natCast (channels * (height + 2 * p) * (width + 2 * p))]
    congr 1
    push_cast
    ring
  simp only [padChannels, hlen, Int.toNat_natCast]
  refine fillTiles_congr (fun q _ => ?_) (fun q _ => ?_) _
  · rw [← Int.toNat_natCast ((q.1 * (height + 2 * p) + (q.2 + p)) * (width + 2 * p) + p)]
    congr 1
    push_cast
    ring
  · refine List.map_congr_left fun i _ => congrArg input_data ?_
    push_cast
    ring

/-- **Every cell of the frame.** -/
theorem getElem?_padChannels (input_data : Int → α) {c y x : Nat} (hc : c < channels)
    (hy : y < height + 2 * p) (hx : x < width + 2 * p) :
    (padChannels input_data width height channels p)[
        (c * (height + 2 * p) + y) * (width + 2 * p) + x]? =
      some (framedPixel input_data width height p c y x) := by
  have hcell : (c * (height + 2 * p) + y) * (width + 2 * p) + x <
      (List.replicate (channels * (height + 2 * p) * (width + 2 * p)) (0 : α)).length := by
    rw [List.length_replicate]
    exact slot_lt (slot_lt hc hy) hx
  rw [padChannels_eq, framedPixel]
  -- a copied row covers the cell only if it is the cell's own row, and between the borders
  have hrow : ∀ q ∈ rect channels height,
      (p ≤ x ∧ x < width + p → ¬ (q.1 = c ∧ q.2 + p = y)) →
      (c * (height + 2 * p) + y) * (width + 2 * p) + x <
          (q.1 * (height + 2 * p) + (q.2 + p)) * (width + 2 * p) + p ∨
        (q.1 * (height + 2 * p) + (q.2 + p)) * (width + 2 * p) + p + width ≤
          (c * (height + 2 * p) + y) * (width + 2 * p) + x := by
    intro q hq hother
    have hq2 := (mem_rect.mp hq).2
    by_cases heq : q.1 * (height + 2 * p) + (q.2 + p) = c * (height + 2 * p) + y
    · rw [heq]
      have hsame := (slot_inj (by omega) hy).mp heq
      by_cases hin : p ≤ x ∧ x < width + p
      · exact absurd hsame (hother hin)
      · omega
    · have := outside_of_slot_ne hx heq
      omega
  by_cases hin : (p ≤ y ∧ y < height + p) ∧ p ≤ x ∧ x < width + p
  · have hmem : (c, y - p) ∈ rect channels height := mem_rect.mpr ⟨hc, by dsimp only; omega⟩
    have hpos : (c * (height + 2 * p) + y) * (width + 2 * p) + x =
        (c * (height + 2 * p) + (y - p + p)) * (width + 2 * p) + p + (x - p) := by
      rw [Nat.sub_add_cancel hin.1.1]
      omega
    rw [if_pos hin, hpos]
    refine (getElem?_fillTiles_of_disjoint (p := (c, y - p)) hmem
      (by rw [List.length_map, List.length_range]; omega) (fun q hq hne => ?_)
      (by rw [← hpos]; exact hcell)).trans ?_
    · rw [List.length_map, List.length_range, ← hpos]
      refine hrow q hq fun _ hsame => hne (Prod.ext hsame.1 ?_)
      show q.2 = y - p
      omega
    · rw [List.getElem?_map, List.getElem?_range (by omega)]
      rfl
  · rw [if_neg hin, getElem?_fillTiles_frame, List.getElem?_replicate, if_pos]
    · rw [List.length_replicate] at hcell
      exact hcell
    · intro q hq
      rw [List.length_map, List.length_range]
      refine hrow q hq fun hx' hsame => hin ⟨?_, hx'⟩
      have := (mem_rect.mp hq).2
      omega

/-- A cell of the frame, as a lane reads it. -/
theorem paddedElem_frame (input_data beyond : Int → α) {c y x : Nat} (hc : c < channels)
    (hy : y < height + 2 * p) (hx : x < width + 2 * p) {n : Int}
    (hn : n = ((c * (height + 2 * p) + y) * (width + 2 * p) + x : Nat)) :
    paddedElem (padChannels input_data width height channels p) beyond n =
      framedPixel input_data width height p c y x := by
  rw [paddedElem, hn, if_pos (Int.natCast_nonneg _), Int.toNat_natCast,
    List.getD_eq_getElem?_getD, getElem?_padChannels input_data hc hy hx, Option.getD_some]

end Frame

/-! ## One window -/

section Window

variable {α : Type} [Field α] {width height channels p s : Nat}

/-- The cells that the loads of a window touch. -/
def windowLoads (padded_width matrix_head : Int) : List Int :=
  fourCells matrix_head ++ fourCells (matrix_head + padded_width)
    ++ fourCells (matrix_head + 2 * padded_width)

/-- Lane `l` of the sum of the three rows. -/
def laneSum (padded_data : List α) (beyond : Int → α) (padded_width matrix_head : Int) (l : Nat) : α :=
  paddedElem padded_data beyond (matrix_head + l)
    + paddedElem padded_data beyond (matrix_head + padded_width + l)
    + paddedElem padded_data beyond (matrix_head + 2 * padded_width + l)

/-- **One window**: three lanes make the value, and all four are loaded. -/
theorem averageWindow_run (padded_data : List α) (beyond : Int → α)
    (padded_width matrix_head : Int) (log : List Int) :
    (averageWindow padded_data beyond padded_width matrix_head).run log =
      ((laneSum padded_data beyond padded_width matrix_head 0
          + laneSum padded_data beyond padded_width matrix_head 1
          + laneSum padded_data beyond padded_width matrix_head 2) * (1 / 9),
        log ++ windowLoads padded_width matrix_head) := by
  rw [windowLoads, ← List.append_assoc, ← List.append_assoc]
  rfl

/-- The sum over a window as the loops of `avgpool_core` take it. -/
theorem foldWindow_three (visit : Nat → Nat → Option α) :
    foldWindow (· + ·) 0 3 visit =
      (visit 0 0).getD 0 + (visit 0 1).getD 0 + (visit 0 2).getD 0
        + ((visit 1 0).getD 0 + (visit 1 1).getD 0 + (visit 1 2).getD 0)
        + ((visit 2 0).getD 0 + (visit 2 1).getD 0 + (visit 2 2).getD 0) := by
  have hround : ∀ (o : Option α) (acc : α), o.elim acc (fun x => acc + x) = acc + o.getD 0 := by
    intro o acc
    cases o with
    | none => exact (add_zero acc).symm
    | some x => rfl
  show (List.range 3).foldl (fun acc ky =>
    (List.range 3).foldl (fun acc kx => (visit ky kx).elim acc fun x => acc + x) acc) 0 = _
  simp only [hround, List.range_succ, List.range_zero, List.nil_append, List.foldl_append,
    List.foldl_cons, List.foldl_nil, zero_add]
  abel

/-- What `avgpool_core` visits, in the coordinates of the frame. -/
theorem poolVisit_framed (input_data : Int → α) (c i j ky kx : Nat) :
    (poolVisit input_data width height c (corner p s i) (corner p s j) ky kx).getD 0 =
      framedPixel input_data width height p c (i * s + ky) (j * s + kx) := by
  have hrow : corner p s i = ((i * s : Nat) : Int) - p := by rw [corner]; push_cast; ring
  have hcol : corner p s j = ((j * s : Nat) : Int) - p := by rw [corner]; push_cast; ring
  rw [poolVisit, framedPixel, hrow, hcol]
  by_cases hin : (p ≤ i * s + ky ∧ i * s + ky < height + p) ∧ p ≤ j * s + kx ∧ j * s + kx < width + p
  · rw [if_pos (by omega), if_pos hin, Option.getD_some]
    refine congrArg input_data ?_
    push_cast [hin.1.1, hin.2.1]
    ring
  · rw [if_neg (by omega), if_neg hin]
    rfl

/-- A window inside the frame. -/
theorem window_inside {extent i : Nat} (hs : 1 ≤ s) (hk : 3 ≤ extent + 2 * p)
    (hi : i < outSide extent p 3 s) : i * s + 3 ≤ extent + 2 * p := by
  have hle : i ≤ (extent + 2 * p - 3) / s := Nat.lt_succ_iff.mp hi
  have hmul : i * s ≤ extent + 2 * p - 3 := (Nat.le_div_iff_mul_le hs).mp hle
  omega

/-- A lane of a window in the frame. -/
theorem laneSum_frame (input_data beyond : Int → α) {c i j l : Nat} (hc : c < channels)
    (hi : i * s + 3 ≤ height + 2 * p) (hj : j * s + 3 ≤ width + 2 * p) (hl : l < 3) :
    laneSum (padChannels input_data width height channels p) beyond ((width : Int) + 2 * p)
        (((width : Int) + 2 * p) * (height + 2 * p) * c + ((i * s : Nat) : Int) * (width + 2 * p)
          + (j * s : Nat)) l =
      framedPixel input_data width height p c (i * s) (j * s + l)
        + framedPixel input_data width height p c (i * s + 1) (j * s + l)
        + framedPixel input_data width height p c (i * s + 2) (j * s + l) := by
  have hx : j * s + l < width + 2 * p := by omega
  rw [laneSum,
    paddedElem_frame input_data beyond hc (y := i * s) (by omega) hx (by push_cast; ring),
    paddedElem_frame input_data beyond hc (y := i * s + 1) (by omega) hx (by push_cast; ring),
    paddedElem_frame input_data beyond hc (y := i * s + 2) (by omega) hx (by push_cast; ring)]

end Window

/-! ## All windows -/

section Rows

variable {α : Type} [Field α] {width height channels p s : Nat}

/-- The corners in the frame are those of `avgpool_core`, moved by the padding. -/
theorem sseCorners_eq (hs : 1 ≤ s) (hh : 3 ≤ height + 2 * p) (hw : 3 ≤ width + 2 * p) :
    sseCorners ((width : Int) + 2 * p) ((height : Int) + 2 * p) s =
      (rect (outSide height p 3 s) (outSide width p 3 s)).map
        (Prod.map (fun i => ((i * s : Nat) : Int)) fun j => ((j * s : Nat) : Int)) := by
  have haxis : ∀ extent : Nat, 3 ≤ extent + 2 * p → steps 0 ((extent : Int) + 2 * p - 2) s =
      (List.range (outSide extent p 3 s)).map fun (i : Nat) => ((i * s : Nat) : Int) := by
    intro extent hextent
    have hsteps := steps_corners (w := extent + 2 * p) (p := 0) (k := 3) hs (by omega)
    have hbound : ((extent + 2 * p : Nat) : Int) + (0 : Nat) - (3 : Nat) + 1 =
        (extent : Int) + 2 * p - 2 := by
      push_cast
      ring
    rw [hbound] at hsteps
    refine hsteps.trans (List.map_congr_left fun i _ => ?_)
    push_cast
    ring
  rw [sseCorners, haxis height hh, haxis width hw, flatMap_map_rect]

/-- The averages of one channel. -/
def sseRow (input_data beyond : Int → α) (width height channels p s c : Nat) : List α :=
  (sseCorners ((width : Int) + 2 * p) ((height : Int) + 2 * p) s).map fun q =>
    let matrix_head := ((width : Int) + 2 * p) * (height + 2 * p) * c + q.1 * (width + 2 * p) + q.2
    let padded_data := padChannels input_data width height channels p
    (laneSum padded_data beyond (width + 2 * p) matrix_head 0
      + laneSum padded_data beyond (width + 2 * p) matrix_head 1
      + laneSum padded_data beyond (width + 2 * p) matrix_head 2) * (1 / 9)

/-- **The windows of a channel have the averages of `avgpool_core`.** -/
theorem sseRow_eq_poolRow (input_data beyond : Int → α) (hs : 1 ≤ s) (hh : 3 ≤ height + 2 * p)
    (hw : 3 ≤ width + 2 * p) {c : Nat} (hc : c < channels) :
    sseRow input_data beyond width height channels p s c =
      poolRow input_data width height 3 p s c := by
  have hcorners : poolCorners (width : Int) height 3 p s =
      (rect (outSide height p 3 s) (outSide width p 3 s)).map (Prod.map (corner p s) (corner p s)) := by
    have haxis : ∀ extent : Nat, 3 ≤ extent + 2 * p → steps (-(p : Int)) ((extent : Int) + p - 3 + 1) s =
        (List.range (outSide extent p 3 s)).map (corner p s) :=
      fun extent hextent => steps_corners (k := 3) hs hextent
    rw [poolCorners, haxis height hh, haxis width hw, flatMap_map_rect]
  rw [sseRow, poolRow, sseCorners_eq hs hh hw, hcorners, List.map_map, List.map_map]
  refine List.map_congr_left fun q hq => ?_
  have hi := window_inside hs hh (mem_rect.mp hq).1
  have hj := window_inside hs hw (mem_rect.mp hq).2
  have hscale : (1 : α) / (((3 : Int) * 3 : Int) : α) = 1 / 9 := by norm_num
  simp only [Function.comp_apply, Prod.map_fst, Prod.map_snd]
  rw [laneSum_frame input_data beyond hc hi hj (by decide),
    laneSum_frame input_data beyond hc hi hj (by decide),
    laneSum_frame input_data beyond hc hi hj (by decide), foldWindow_three, hscale]
  simp only [poolVisit_framed, Nat.add_zero]
  refine congrArg (· * (1 / 9 : α)) ?_
  -- rows first there, lanes first here
  abel

/-- **The whole function**: its averages, and the cells its loads touch. -/
theorem avgpoolCoreOptimized3x3Sse_eq (beyond input_data : Int → α) (avg_data : List α)
    (out_nelems_channel : Int) (hs : 1 ≤ s) :
    avgpoolCoreOptimized3x3Sse beyond input_data avg_data out_nelems_channel width height channels
        p s =
      .ok (fillTiles (fun (c : Nat) => (c * out_nelems_channel).toNat)
          (sseRow input_data beyond width height channels p s) avg_data (List.range channels),
        (List.range channels).flatMap fun (c : Nat) =>
          (sseCorners ((width : Int) + 2 * p) ((height : Int) + 2 * p) s).flatMap fun q =>
            windowLoads ((width : Int) + 2 * p)
              (((width : Int) + 2 * p) * (height + 2 * p) * c + q.1 * (width + 2 * p) + q.2)) := by
  unfold avgpoolCoreOptimized3x3Sse
  rw [if_neg (by omega), Int.toNat_natCast]
  refine congrArg Except.ok (@run_foldlM_logged _ _ _ _ _ (fun avg_data (c : Nat) =>
    writeAt avg_data (c * out_nelems_channel).toNat
      (sseRow input_data beyond width height channels p s c)) (fun avg_data c log => ?_) _ _ [])
  rw [StateT.run_bind, run_mapM_logged (fun q log => averageWindow_run ..)]
  rfl

end Rows

/-! ## The loads -/

section Loads

variable {width height channels p s : Nat}

theorem mem_fourCells {i n : Int} : n ∈ fourCells i ↔ ∃ l : Nat, l < 4 ∧ n = i + l := by
  simp only [fourCells, List.mem_cons, List.not_mem_nil, or_false]
  constructor
  · intro h
    exact ⟨(n - i).toNat, by omega, by omega⟩
  · rintro ⟨l, hl, rfl⟩
    omega

/-- Row `r` and lane `l` of the loads of a window. -/
theorem mem_windowLoads {padded_width matrix_head n : Int} :
    n ∈ windowLoads padded_width matrix_head ↔
      ∃ r : Nat, r < 3 ∧ ∃ l : Nat, l < 4 ∧ n = matrix_head + r * padded_width + l := by
  simp only [windowLoads, List.mem_append, mem_fourCells]
  constructor
  · rintro ((⟨l, hl, h⟩ | ⟨l, hl, h⟩) | ⟨l, hl, h⟩)
    · exact ⟨0, by decide, l, hl, by omega⟩
    · exact ⟨1, by decide, l, hl, by omega⟩
    · exact ⟨2, by decide, l, hl, by omega⟩
  · rintro ⟨r, hr, l, hl, h⟩
    obtain rfl | rfl | rfl : r = 0 ∨ r = 1 ∨ r = 2 := by omega
    · exact .inl (.inl ⟨l, hl, by omega⟩)
    · exact .inl (.inr ⟨l, hl, by omega⟩)
    · exact .inr ⟨l, hl, by omega⟩

/-- The cells of a load are inside the frame, unless it is the fourth lane of the last row of a window
that ends with the last channel. -/
theorem loadCell_lt {c y x r l : Nat} (hc : c < channels) (hy : y + 3 ≤ height + 2 * p)
    (hx : x + 3 ≤ width + 2 * p) (hr : r < 3) (hl : l < 4)
    (hlast : y + 3 < height + 2 * p ∨ x + 3 < width + 2 * p) :
    (c * (height + 2 * p) + (y + r)) * (width + 2 * p) + (x + l) <
      channels * (height + 2 * p) * (width + 2 * p) := by
  by_cases hin : x + l < width + 2 * p
  · exact slot_lt (slot_lt hc (by omega)) hin
  · -- the fourth lane is the first cell of the next row, which this channel still has
    have hnext : c * (height + 2 * p) + (y + r + 1) < channels * (height + 2 * p) :=
      slot_lt hc (by omega)
    have hcell := slot_lt (j := 0) hnext (by omega : 0 < width + 2 * p)
    have hrow : (c * (height + 2 * p) + (y + r + 1)) * (width + 2 * p) + 0 =
        (c * (height + 2 * p) + (y + r)) * (width + 2 * p) + (width + 2 * p) := by ring
    omega

/-- **The loads stay inside exactly if the stride misses the last window** along one of the axes. -/
theorem loads_inside_iff (hs : 1 ≤ s) (hh : 3 ≤ height + 2 * p) (hw : 3 ≤ width + 2 * p) :
    (∀ n ∈ (List.range channels).flatMap fun (c : Nat) =>
        (sseCorners ((width : Int) + 2 * p) ((height : Int) + 2 * p) s).flatMap fun q =>
          windowLoads ((width : Int) + 2 * p)
            (((width : Int) + 2 * p) * (height + 2 * p) * c + q.1 * (width + 2 * p) + q.2),
      0 ≤ n ∧ n < ((width : Int) + 2 * p) * (height + 2 * p) * channels) ↔
      channels = 0 ∨ ¬ s ∣ height + 2 * p - 3 ∨ ¬ s ∣ width + 2 * p - 3 := by
  have hsize : ((width : Int) + 2 * p) * (height + 2 * p) * channels =
      (channels * (height + 2 * p) * (width + 2 * p) : Nat) := by
    push_cast
    ring
  have hcell : ∀ c y x r l : Nat,
      ((width : Int) + 2 * p) * (height + 2 * p) * c + (y : Int) * (width + 2 * p) + x
        + r * ((width : Int) + 2 * p) + l =
          ((c * (height + 2 * p) + (y + r)) * (width + 2 * p) + (x + l) : Nat) := by
    intro c y x r l
    push_cast
    ring
  simp only [sseCorners_eq hs hh hw, List.mem_flatMap, List.mem_range, List.mem_map,
    mem_windowLoads, hsize]
  constructor
  · intro hall
    by_contra hnot
    simp only [not_or, not_not] at hnot
    obtain ⟨hchannels, ⟨i, hi⟩, ⟨j, hj⟩⟩ := hnot
    -- the last lane of the last window of the last channel
    have hrange : ∀ {extent t : Nat}, extent + 2 * p - 3 = s * t → t < outSide extent p 3 s := by
      intro extent t ht
      rw [outSide, ht, Nat.mul_div_cancel_left t hs]
      exact Nat.lt_succ_self t
    have hlast := (hall _ ⟨channels - 1, by omega, _, ⟨(i, j), mem_rect.mpr ⟨hrange hi, hrange hj⟩, rfl⟩,
      2, by decide, 3, by decide, rfl⟩).2
    simp only [Prod.map_fst, Prod.map_snd] at hlast
    rw [hcell, Nat.mul_comm i s, Nat.mul_comm j s, ← hi, ← hj, Nat.cast_lt] at hlast
    obtain ⟨last, rfl⟩ : ∃ last, channels = last + 1 := ⟨channels - 1, by omega⟩
    have hend : ∀ {H W : Nat}, 3 ≤ H → 3 ≤ W →
        (last * H + (H - 3 + 2)) * W + (W - 3 + 3) = (last + 1) * H * W := by
      intro H W hH hW
      obtain ⟨a, rfl⟩ := Nat.exists_eq_add_of_le hH
      obtain ⟨b, rfl⟩ := Nat.exists_eq_add_of_le hW
      rw [Nat.add_sub_cancel_left, Nat.add_sub_cancel_left]
      ring
    rw [Nat.add_sub_cancel, hend hh hw] at hlast
    exact lt_irrefl _ hlast
  · rintro hcond n ⟨c, hc, _, ⟨⟨i, j⟩, hij, rfl⟩, r, hr, l, hl, rfl⟩
    have hi := window_inside hs hh (mem_rect.mp hij).1
    have hj := window_inside hs hw (mem_rect.mp hij).2
    simp only [Prod.map_fst, Prod.map_snd]
    rw [hcell]
    refine ⟨Int.natCast_nonneg _, Nat.cast_lt.mpr (loadCell_lt hc hi hj hr hl ?_)⟩
    rcases hcond with h0 | hrow | hcol
    · omega
    · refine .inl (lt_of_le_of_ne hi fun heq => hrow ⟨i, ?_⟩)
      rw [← heq, Nat.add_sub_cancel, Nat.mul_comm]
    · refine .inr (lt_of_le_of_ne hj fun heq => hcol ⟨j, ?_⟩)
      rw [← heq, Nat.add_sub_cancel, Nat.mul_comm]

end Loads

section Agreement

variable {α : Type} [Field α]

/-- **The optimised pooling** stores what `avgpool_core` stores; its loads stay inside the frame
exactly if there is no channel, or the stride misses the last window along one of the axes. -/
theorem avgpoolCoreOptimized3x3Sse_correct_iff (beyond input_data : Int → α) (avg_data : List α)
    (out_nelems_channel : Int) (width height channels p s : Nat) (hs : 1 ≤ s)
    (hh : 3 ≤ height + 2 * p) (hw : 3 ≤ width + 2 * p) :
    (∃ avg touched, avgpoolCoreOptimized3x3Sse beyond input_data avg_data out_nelems_channel width
          height channels p s = .ok (avg, touched) ∧
        avgpoolCore input_data avg_data out_nelems_channel width height channels 3 p s = .ok avg ∧
        ∀ n ∈ touched, 0 ≤ n ∧ n < ((width : Int) + 2 * p) * (height + 2 * p) * channels) ↔
      channels = 0 ∨ ¬ s ∣ height + 2 * p - 3 ∨ ¬ s ∣ width + 2 * p - 3 := by
  have hcore : avgpoolCore input_data avg_data out_nelems_channel width height channels 3 p s =
      .ok (fillTiles (fun (c : Nat) => (c * out_nelems_channel).toNat)
        (sseRow input_data beyond width height channels p s) avg_data (List.range channels)) := by
    rw [avgpoolCore, if_neg (by omega), Int.toNat_natCast]
    refine congrArg Except.ok (fillTiles_congr (fun _ _ => rfl) (fun c hc => ?_) avg_data)
    exact (sseRow_eq_poolRow input_data beyond hs hh hw (List.mem_range.mp hc)).symm
  rw [← loads_inside_iff hs hh hw, avgpoolCoreOptimized3x3Sse_eq _ _ _ _ hs, hcore]
  constructor
  · rintro ⟨avg, touched, heq, -, hinside⟩
    obtain ⟨rfl, rfl⟩ := Prod.mk.inj (Except.ok.inj heq)
    exact hinside
  · intro hinside
    exact ⟨_, _, rfl, rfl, hinside⟩

/-- One 3 × 3 image: the only window is the last one, and the load of its last row reads cell 9 of
nine. -/
theorem avgpoolCoreOptimized3x3Sse_reads_beyond :
    ∃ avg touched, avgpoolCoreOptimized3x3Sse (fun _ => (7 : ℚ)) (fun i => i) [0] 1 3 3 1 0 1 =
        .ok (avg, touched) ∧ 9 ∈ touched ∧ (padChannels (fun i => (i : ℚ)) 3 3 1 0).length = 9 :=
  ⟨[4], [0, 1, 2, 3, 3, 4, 5, 6, 6, 7, 8, 9], by decide +kernel, by decide, by decide +kernel⟩

/-- A 3 × 4 image with stride 2: the stride misses the last window of the row. -/
theorem avgpoolCoreOptimized3x3Sse_threeByFour :
    ∃ avg touched, avgpoolCoreOptimized3x3Sse (fun _ => (7 : ℚ)) (fun i => i) [0] 1 (4 : Nat)
          (3 : Nat) (1 : Nat) (0 : Nat) (2 : Nat) = .ok (avg, touched) ∧
        avgpoolCore (fun i => (i : ℚ)) [0] 1 (4 : Nat) (3 : Nat) (1 : Nat) 3 (0 : Nat) (2 : Nat) =
          .ok avg ∧
        ∀ n ∈ touched, 0 ≤ n ∧
          n < (((4 : Nat) : Int) + 2 * (0 : Nat)) * ((3 : Nat) + 2 * (0 : Nat)) * (1 : Nat) :=
  (avgpoolCoreOptimized3x3Sse_correct_iff _ _ _ _ 4 3 1 0 2 (by decide) (by decide) (by decide)).mpr
    (.inr (.inr (by decide)))

end Agreement

end Peps
