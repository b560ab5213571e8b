import Peps.Kernel.ConvCorrect
import Peps.Lib.Stores

/-!
# `im2col_core` in any order

The two outer loops of `im2col_core` are collapsed and shared out to threads, so their rounds may run
in any order. Here a round is the list of its copies: the cell of `f_matrix` that is stored to, and
the element of `input_f` that is read for it, if any. `execute_iterations` connects this to the function
itself, in the order of the source; the rest is about the copies alone:

* `cells_of_order`: over all rounds every cell is stored to once;
* `source_inside`: what is read lies in the input, although the head of a window may not;
* `round_plain`: without padding the two branches make the same copies.

The number of elements of a channel need not be a square.
-/

namespace Peps

open Lib

/-! ## The rounds -/

/-- The two loop nests of `im2col_core`. -/
inductive Branch where
  | padded
  | plain
deriving DecidableEq

/-- `f_matrix[cell] = input_f[source]`, or `= 0`. -/
structure Copy where
  cell : Int
  source : Option Int

/-- What `im2col_core` is called with, apart from the data. -/
structure Im2colCall where
  num_channel : Int
  nelems_channel : Int
  kernel_size : Int
  padding : Int
  stride : Int

namespace Im2colCall

def width (call : Im2colCall) : Int := side call.nelems_channel

def outWidth (call : Im2colCall) : Int :=
  outExtent call.width call.padding call.kernel_size call.stride

/-- The pairs `(rn, cn)` in the order of the loops. -/
def iterations (call : Im2colCall) : Branch → List (Int × Int)
  | .padded =>
    (steps (-call.padding) (call.width + call.padding - call.kernel_size + 1) call.stride).flatMap
      fun rn =>
        (steps (-call.padding) (call.width + call.padding - call.kernel_size + 1) call.stride).map
          fun cn => (rn, cn)
  | .plain =>
    (steps 0 (call.width - call.kernel_size + 1) call.stride).flatMap fun rn =>
      (steps 0 (call.width - call.kernel_size + 1) call.stride).map fun cn => (rn, cn)

/-- `res_idx_local` at the start of a round. -/
def head (call : Im2colCall) (q : Int × Int) : Int :=
  ((q.1 + call.padding).tdiv call.stride * call.outWidth + (q.2 + call.padding).tdiv call.stride)
    * call.num_channel * call.kernel_size * call.kernel_size

/-- `matrix_head_c + ky_offset[ky] + kx`. -/
def index (call : Im2colCall) (q : Int × Int) (c ky kx : Nat) : Int :=
  q.1 * call.width + q.2 + call.nelems_channel * c + call.width * ky + kx

/-- What the innermost round reads. -/
def source (call : Im2colCall) (branch : Branch) (q : Int × Int) (c ky kx : Nat) : Option Int :=
  match branch with
  | .padded =>
    if ky + q.1 < 0 ∨ call.width ≤ ky + q.1 ∨ kx + q.2 < 0 ∨ call.width ≤ kx + q.2 then none
    else some (call.index q c ky kx)
  | .plain => some (call.index q c ky kx)

/-- The sources of one round, in the order in which `res_idx_local++` numbers them. -/
def sources (call : Im2colCall) (branch : Branch) (q : Int × Int) : List (Option Int) :=
  (List.range call.num_channel.toNat).flatMap fun c =>
    (List.range call.kernel_size.toNat).flatMap fun ky =>
      (List.range call.kernel_size.toNat).map fun kx => call.source branch q c ky kx

/-- The copies of one round. -/
def round (call : Im2colCall) (branch : Branch) (q : Int × Int) : List Copy :=
  (call.sources branch q).zipIdx.map fun e => ⟨call.head q + e.2, e.1⟩

/-- The copies of all rounds, in the given order. -/
def copies (call : Im2colCall) (branch : Branch) (order : List (Int × Int)) : List Copy :=
  order.flatMap (call.round branch)

end Im2colCall

section Execution

variable {α : Type} [Zero α]

/-- What a copy stores where. -/
def Copy.store (input_f : Int → α) (copy : Copy) : Nat × α :=
  (copy.cell.toNat, copy.source.elim 0 input_f)

/-- `f_matrix` after the copies. -/
def execute (input_f : Int → α) (f_matrix : List α) (copies : List Copy) : List α :=
  applyStores f_matrix (copies.map (Copy.store input_f))

end Execution

/-! ## The cells -/

namespace Im2colCall

/-- A call with natural numbers, the side of a channel being `w`. -/
def ofNat (channels nelems k p s : Nat) : Im2colCall := ⟨channels, nelems, k, p, s⟩

section Cells

variable {channels nelems k p s : Nat} {branch : Branch}

theorem width_ofNat : (ofNat channels nelems k p s).width = (Nat.sqrt nelems : Nat) := rfl

theorem length_sources (q : Int × Int) :
    ((ofNat channels nelems k p s).sources branch q).length = channels * k * k :=
  length_window

/-- The rounds of either branch visit the corners of all windows; the unpadded branch is there for no
padding only. -/
theorem iterations_ofNat (hs : 1 ≤ s) (hk : k ≤ Nat.sqrt nelems + 2 * p)
    (hbranch : branch = .plain → p = 0) :
    (ofNat channels nelems k p s).iterations branch =
      (grid (outSide (Nat.sqrt nelems) p k s)).map (Prod.map (corner p s) (corner p s)) := by
  have hsteps := steps_corners hs hk
  cases branch with
  | padded =>
    show ((steps (-(p : Int)) ((Nat.sqrt nelems : Nat) + p - k + 1) s).flatMap fun rn =>
      (steps (-(p : Int)) ((Nat.sqrt nelems : Nat) + p - k + 1) s).map fun cn => (rn, cn)) = _
    rw [hsteps, flatMap_map_rect]
    rfl
  | plain =>
    obtain rfl := hbranch rfl
    simp only [Nat.cast_zero, neg_zero, add_zero, zero_add] at hsteps
    show ((steps 0 ((Nat.sqrt nelems : Nat) - k + 1) s).flatMap fun rn =>
      (steps 0 ((Nat.sqrt nelems : Nat) - k + 1) s).map fun cn => (rn, cn)) = _
    rw [hsteps, flatMap_map_rect, grid_eq_rect]
    refine List.map_congr_left fun q _ => Prod.ext ?_ ?_ <;> simp [corner]

/-- The first cell of a round. -/
theorem head_corner (hs : 1 ≤ s) (hk : k ≤ Nat.sqrt nelems + 2 * p) (q : Nat × Nat) :
    (ofNat channels nelems k p s).head (corner p s q.1, corner p s q.2) =
      ((q.1 * outSide (Nat.sqrt nelems) p k s + q.2) * (channels * k * k) : Nat) := by
  show ((corner p s q.1 + p).tdiv s * outExtent (Nat.sqrt nelems : Nat) p k s
    + (corner p s q.2 + p).tdiv s) * channels * k * k = _
  rw [corner_tdiv hs, corner_tdiv hs, outExtent_eq_outSide hk]
  push_cast
  ring

/-- A round stores to consecutive cells. -/
theorem round_cells (call : Im2colCall) (q : Int × Int) :
    (call.round branch q).map Copy.cell =
      (List.range (call.sources branch q).length).map fun (t : Nat) => call.head q + t := by
  rw [round, List.map_map, List.zipIdx_eq_zip_range', ← List.range_eq_range']
  show ((call.sources branch q).zip _).map ((fun (t : Nat) => call.head q + t) ∘ Prod.snd) = _
  rw [← List.map_map, List.map_snd_zip (by rw [List.length_range])]

/-- In the order of the loops the cells are stored to from the first to the last. -/
theorem cells_of_iterations (hs : 1 ≤ s) (hk : k ≤ Nat.sqrt nelems + 2 * p)
    (hbranch : branch = .plain → p = 0) :
    ((ofNat channels nelems k p s).copies branch
        ((ofNat channels nelems k p s).iterations branch)).map Copy.cell =
      (List.range (outSide (Nat.sqrt nelems) p k s * outSide (Nat.sqrt nelems) p k s
        * (channels * k * k))).map fun (n : Nat) => (n : Int) := by
  rw [copies, iterations_ofNat hs hk hbranch, List.map_flatMap, List.flatMap_map,
    ← flatMap_range_blocks, ← rect_map_slot (outSide (Nat.sqrt nelems) p k s), List.flatMap_map,
    List.map_flatMap, grid_eq_rect]
  refine List.flatMap_congr fun q _ => ?_
  rw [round_cells, length_sources, List.map_map]
  refine List.map_congr_left fun t _ => ?_
  show head _ (corner p s q.1, corner p s q.2) + (t : Int) = _
  rw [head_corner hs hk]
  rfl

/-- **Every cell is stored to once**, in whatever order the rounds are run. -/
theorem cells_of_order (hs : 1 ≤ s) (hk : k ≤ Nat.sqrt nelems + 2 * p)
    (hbranch : branch = .plain → p = 0) {order : List (Int × Int)}
    (horder : order.Perm ((ofNat channels nelems k p s).iterations branch)) :
    (((ofNat channels nelems k p s).copies branch order).map Copy.cell).Perm
      ((List.range (outSide (Nat.sqrt nelems) p k s * outSide (Nat.sqrt nelems) p k s
        * (channels * k * k))).map fun (n : Nat) => (n : Int)) := by
  rw [← cells_of_iterations hs hk hbranch]
  exact (horder.flatMap_right _).map _

end Cells

/-! ## The sources -/

section Sources

variable {channels nelems k p s : Nat} {branch : Branch}

theorem mem_sources {q : Int × Int} {o : Option Int} :
    o ∈ (ofNat channels nelems k p s).sources branch q ↔
      ∃ c < channels, ∃ ky < k, ∃ kx < k, o = (ofNat channels nelems k p s).source branch q c ky kx := by
  show o ∈ ((List.range channels).flatMap fun c => (List.range k).flatMap fun ky =>
    (List.range k).map fun kx => source _ branch q c ky kx) ↔ _
  simp only [List.mem_flatMap, List.mem_map, List.mem_range, eq_comm (a := o)]

/-- An index whose row and column lie in the image is inside the input, also where the channel is longer
than the image. -/
theorem index_inside {c : Nat} (hc : c < channels) {y x : Int} (hy : 0 ≤ y ∧ y < (Nat.sqrt nelems : Nat))
    (hx : 0 ≤ x ∧ x < (Nat.sqrt nelems : Nat)) :
    0 ≤ y * (Nat.sqrt nelems : Nat) + x + nelems * c ∧
      y * (Nat.sqrt nelems : Nat) + x + nelems * c < (channels * nelems : Nat) := by
  obtain ⟨y, rfl⟩ := Int.eq_ofNat_of_zero_le hy.1
  obtain ⟨x, rfl⟩ := Int.eq_ofNat_of_zero_le hx.1
  have hslot : y * Nat.sqrt nelems + x < Nat.sqrt nelems * Nat.sqrt nelems :=
    slot_lt (by omega) (by omega)
  have hcell : c * nelems + (y * Nat.sqrt nelems + x) < channels * nelems :=
    slot_lt hc (hslot.trans_le (Nat.sqrt_le nelems))
  have hcast : (y : Int) * (Nat.sqrt nelems : Nat) + x + nelems * c =
      (c * nelems + (y * Nat.sqrt nelems + x) : Nat) := by
    push_cast
    ring
  rw [hcast]
  exact ⟨Int.natCast_nonneg _, Nat.cast_lt.mpr hcell⟩

/-- The row and the column of an index. -/
theorem index_eq (q : Int × Int) (c ky kx : Nat) :
    (ofNat channels nelems k p s).index q c ky kx =
      (ky + q.1) * (Nat.sqrt nelems : Nat) + (kx + q.2) + nelems * c := by
  show q.1 * (Nat.sqrt nelems : Nat) + q.2 + (nelems : Int) * c + (Nat.sqrt nelems : Nat) * ky + kx = _
  ring

/-- Without padding no window leaves the image, so the guards of the padded branch never hold. -/
theorem source_plain (hs : 1 ≤ s) (hk : k ≤ Nat.sqrt nelems + 2 * 0) {q : Nat × Nat}
    (hq : q ∈ grid (outSide (Nat.sqrt nelems) 0 k s)) {ky kx : Nat} (hky : ky < k) (hkx : kx < k)
    (c : Nat) :
    (ofNat channels nelems k 0 s).source .plain (corner 0 s q.1, corner 0 s q.2) c ky kx =
      (ofNat channels nelems k 0 s).source .padded (corner 0 s q.1, corner 0 s q.2) c ky kx := by
  have hrow := corner_add_le hs hk (mem_grid.mp hq).1
  have hcol := corner_add_le hs hk (mem_grid.mp hq).2
  have hrow0 : 0 ≤ corner 0 s q.1 := by rw [corner]; positivity
  have hcol0 : 0 ≤ corner 0 s q.2 := by rw [corner]; positivity
  rw [source, source, width_ofNat, if_neg (by omega)]

/-- **Every read is inside the input.** -/
theorem source_inside (hs : 1 ≤ s) (hk : k ≤ Nat.sqrt nelems + 2 * p)
    (hbranch : branch = .plain → p = 0) {q : Nat × Nat}
    (hq : q ∈ grid (outSide (Nat.sqrt nelems) p k s)) {c ky kx : Nat} (hc : c < channels)
    (hky : ky < k) (hkx : kx < k) {n : Int}
    (hn : n ∈ (ofNat channels nelems k p s).source branch (corner p s q.1, corner p s q.2) c ky kx) :
    0 ≤ n ∧ n < (channels * nelems : Nat) := by
  -- both branches read what the padded one reads
  have hpadded : n ∈ (ofNat channels nelems k p s).source .padded (corner p s q.1, corner p s q.2)
      c ky kx := by
    cases branch with
    | padded => exact hn
    | plain =>
      obtain rfl := hbranch rfl
      rw [← source_plain hs hk hq hky hkx]
      exact hn
  rw [source, width_ofNat] at hpadded
  split at hpadded
  · cases hpadded
  · next hin =>
    obtain rfl : _ = n := Option.some.inj hpadded
    rw [index_eq]
    exact index_inside hc (by omega) (by omega)

/-- Without padding a round of the unpadded branch makes the copies of the padded one. -/
theorem round_plain (hs : 1 ≤ s) (hk : k ≤ Nat.sqrt nelems + 2 * 0) {q : Nat × Nat}
    (hq : q ∈ grid (outSide (Nat.sqrt nelems) 0 k s)) :
    (ofNat channels nelems k 0 s).round .plain (corner 0 s q.1, corner 0 s q.2) =
      (ofNat channels nelems k 0 s).round .padded (corner 0 s q.1, corner 0 s q.2) := by
  unfold round sources
  refine congrArg (fun l : List (Option Int) => l.zipIdx.map _) ?_
  refine List.flatMap_congr fun c _ => List.flatMap_congr fun ky hky =>
    List.map_congr_left fun kx hkx => ?_
  exact source_plain hs hk hq (List.mem_range.mp hky) (List.mem_range.mp hkx) c

theorem copies_iterations_plain (hs : 1 ≤ s) (hk : k ≤ Nat.sqrt nelems + 2 * 0) :
    (ofNat channels nelems k 0 s).copies .plain ((ofNat channels nelems k 0 s).iterations .plain) =
      (ofNat channels nelems k 0 s).copies .padded
        ((ofNat channels nelems k 0 s).iterations .padded) := by
  rw [iterations_ofNat hs hk fun _ => rfl, iterations_ofNat hs hk fun _ => rfl, copies, copies,
    List.flatMap_map, List.flatMap_map]
  exact List.flatMap_congr fun q hq => round_plain hs hk hq

end Sources

/-! ## The matrix -/

section Matrix

variable {α : Type} [Zero α] {channels nelems k p s : Nat} {branch : Branch}

/-- **The order does not matter**: the stores of any arrangement of the copies, the rounds of one thread
between those of another included, leave the matrix that the loops leave. -/
theorem execute_perm (input_f : Int → α) (f_matrix : List α) (hs : 1 ≤ s)
    (hk : k ≤ Nat.sqrt nelems + 2 * p) (hbranch : branch = .plain → p = 0) {log : List Copy}
    (hlog : log.Perm ((ofNat channels nelems k p s).copies branch
      ((ofNat channels nelems k p s).iterations branch))) :
    execute input_f f_matrix log = execute input_f f_matrix
      ((ofNat channels nelems k p s).copies branch
        ((ofNat channels nelems k p s).iterations branch)) := by
  have hcells : ((log.map (Copy.store input_f)).map Prod.fst).Perm (List.range
      (outSide (Nat.sqrt nelems) p k s * outSide (Nat.sqrt nelems) p k s * (channels * k * k))) := by
    have hfst : (log.map (Copy.store input_f)).map Prod.fst = (log.map Copy.cell).map Int.toNat := by
      rw [List.map_map, List.map_map]
      rfl
    have hcast : ∀ N : Nat, ((List.range N).map fun (n : Nat) => (n : Int)).map Int.toNat =
        List.range N := by
      intro N
      rw [List.map_map]
      exact (List.map_congr_left fun n _ => Int.toNat_natCast n).trans (List.map_id _)
    have hmap := (hlog.map Copy.cell).map Int.toNat
    rw [cells_of_iterations hs hk hbranch, hcast] at hmap
    rw [hfst]
    exact hmap
  exact applyStores_perm (hlog.map _) (hcells.nodup_iff.mpr List.nodup_range) f_matrix

/-- The cells of a round as `im2col_core` lists them. -/
def window (call : Im2colCall) (input_f : Int → α) (branch : Branch) (q : Int × Int) : List α :=
  (call.sources branch q).map fun o => o.elim 0 input_f

theorem window_padded (call : Im2colCall) (input_f : Int → α) (q : Int × Int) :
    call.window input_f .padded q = paddedWindow input_f call.num_channel call.nelems_channel call.width
      call.width call.kernel_size q.1 q.2 := by
  simp only [window, sources, paddedWindow, List.map_flatMap, List.map_map]
  refine List.flatMap_congr fun c _ => List.flatMap_congr fun ky _ => List.map_congr_left fun kx _ => ?_
  simp only [Function.comp_apply, source]
  split
  · rfl
  · rfl

theorem window_plain (call : Im2colCall) (input_f : Int → α) (q : Int × Int) :
    call.window input_f .plain q = plainWindow input_f call.num_channel call.nelems_channel call.width
      call.kernel_size q.1 q.2 := by
  simp only [window, sources, plainWindow, List.map_flatMap, List.map_map]
  rfl

/-- One round writes its window from its head on. -/
theorem execute_round (call : Im2colCall) (input_f : Int → α) (f_matrix : List α) {q : Int × Int}
    (hhead : 0 ≤ call.head q) :
    execute input_f f_matrix (call.round branch q) =
      writeAt f_matrix (call.head q).toNat (call.window input_f branch q) := by
  rw [writeAt_eq_applyStores, execute, window, List.zipIdx_map, List.map_map, round, List.map_map,
    List.zipIdx_eq_map_add (i := (call.head q).toNat), List.map_map]
  refine congrArg (applyStores f_matrix) (List.map_congr_left fun e _ => Prod.ext ?_ rfl)
  show (call.head q + e.2).toNat = (call.head q).toNat + e.2
  omega

/-- **`im2col_core` in terms of its copies**, in the order of its loops. -/
theorem execute_iterations (input : ArrayType α) (f_matrix : List α)
    (hdims : input.dims = [(channels : Int), (nelems : Int)]) (hs : 1 ≤ s)
    (hk : k ≤ Nat.sqrt nelems + 2 * p) :
    im2colCore input 0 k p s 0 f_matrix = .ok (execute input.elem f_matrix
      ((ofNat channels nelems k p s).copies .padded
        ((ofNat channels nelems k p s).iterations .padded))) := by
  have h0 : input.dimWord 0 = channels := by simp [ArrayType.dimWord, hdims]
  have h1 : input.dimWord 1 = nelems := by simp [ArrayType.dimWord, hdims]
  -- the rounds one after the other, for the branch that is run
  have htiles : ∀ branch : Branch, (branch = .plain → p = 0) →
      execute input.elem f_matrix ((ofNat channels nelems k p s).copies branch
        ((ofNat channels nelems k p s).iterations branch)) =
      fillTiles (fun q => ((ofNat channels nelems k p s).head q).toNat)
        ((ofNat channels nelems k p s).window input.elem branch) f_matrix
        ((ofNat channels nelems k p s).iterations branch) := by
    intro branch hbranch
    rw [execute, copies, List.map_flatMap, applyStores_flatMap, fillTiles]
    refine List.foldl_ext _ _ _ fun b q hq => ?_
    rw [iterations_ofNat hs hk hbranch] at hq
    obtain ⟨t, -, rfl⟩ := List.mem_map.mp hq
    refine execute_round _ _ _ ?_
    show 0 ≤ head _ (corner p s t.1, corner p s t.2)
    rw [head_corner hs hk]
    exact Int.natCast_nonneg _
  simp only [im2colCore, h0, h1, zero_add]
  split
  · rw [htiles .padded (by simp), tiledLoop, if_neg (by omega)]
    refine congrArg Except.ok (fillTiles_congr (fun _ _ => rfl) (fun q _ => ?_) f_matrix)
    exact (window_padded (ofNat channels nelems k p s) input.elem q).symm
  · next hp =>
    obtain rfl : p = 0 := by omega
    rw [← copies_iterations_plain hs hk, htiles .plain fun _ => rfl, tiledLoop, if_neg (by omega)]
    refine congrArg Except.ok (fillTiles_congr (fun _ _ => rfl) (fun q _ => ?_) f_matrix)
    exact (window_plain (ofNat channels nelems k 0 s) input.elem q).symm

end Matrix

end Im2colCall

end Peps
