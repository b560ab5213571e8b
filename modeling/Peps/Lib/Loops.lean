import Mathlib.Algebra.BigOperators.Intervals
import Mathlib.Order.Bounds.Basic
import Mathlib.Order.WithBot
import Mathlib.Tactic.Ring
import Mathlib.Tactic.Linarith
import Peps.Lib.Cells

/-!
# Counted loops, tiled buffers and blocked sums

The numeric kernels of a C library are nests of counted loops that fill a buffer tile by
tile. A few facts turn them into index formulas:

* `steps_eq_range`: the values a loop `for (x = start; x < bound; x += step)` takes;
* `getElem?_fillTiles`: filling disjoint tiles of one length, in whatever order, leaves in
  each tile what was written to it;
* `foldl_max_isGreatest`: a running maximum is the greatest of the values it went over;
* `getElem?_flatMap_blocks` and `sum_range_blocks`: cell `L * i + r` of a concatenation of
  blocks of length `L` is cell `r` of block `i`, and a sum over it is a double sum.
-/

namespace Peps.Lib

/-! ## `for (x = start; x < bound; x += step)` -/

/-- The values of the loop variable, with `fuel` for the number of rounds. -/
def stepsAux (bound step : Int) : Nat → Int → List Int
  | 0, _ => []
  | fuel + 1, x => if x < bound then x :: stepsAux bound step fuel (x + step) else []

/-- The values of the loop variable of a loop with a positive step: it ends within
`bound - start` rounds. -/
def steps (start bound step : Int) : List Int :=
  stepsAux bound step (bound - start).toNat start

theorem stepsAux_eq_range {bound step : Int} {n : Nat} {x : Int} (hstep : 0 < step)
    (hlast : n = 0 ∨ x + (n - 1) * step < bound) (hend : bound ≤ x + n * step) {fuel : Nat}
    (hfuel : n ≤ fuel) :
    stepsAux bound step fuel x = (List.range n).map (fun i : Nat => x + i * step) := by
  induction n generalizing x fuel with
  | zero =>
    cases fuel with
    | zero => rfl
    | succ fuel =>
      rw [stepsAux, if_neg (by simp at hend; omega)]
      rfl
  | succ n ih =>
    obtain ⟨fuel, rfl⟩ : ∃ f, fuel = f + 1 := ⟨fuel - 1, by omega⟩
    have hlast' : x + n * step < bound := by
      rcases hlast with h | h
      · omega
      · push_cast at h
        simpa using h
    have hx : x < bound := by
      have : 0 ≤ (n : Int) * step := Int.mul_nonneg (by omega) (by omega)
      omega
    rw [stepsAux, if_pos hx, ih (x := x + step) ?_ ?_ (by omega), List.range_succ_eq_map,
      List.map_cons, List.map_map]
    · congr 1
      · simp
      · refine List.map_congr_left fun i _ => ?_
        simp only [Function.comp_apply]
        push_cast
        ring
    · rcases Nat.eq_zero_or_pos n with h0 | h0
      · exact .inl h0
      · right
        calc x + step + ((n : Int) - 1) * step = x + n * step := by ring
          _ < bound := hlast'
    · calc bound ≤ x + ((n + 1 : Nat) : Int) * step := hend
        _ = x + step + n * step := by push_cast; ring

/-- **A loop over `n` values.** The bounds say that the `n`-th value is the first not below
`bound`. -/
theorem steps_eq_range {start bound step : Int} {n : Nat} (hstep : 0 < step)
    (hlast : n = 0 ∨ start + (n - 1) * step < bound) (hend : bound ≤ start + n * step) :
    steps start bound step = (List.range n).map (fun i : Nat => start + i * step) := by
  refine stepsAux_eq_range hstep hlast hend ?_
  rcases hlast with rfl | h
  · exact Nat.zero_le _
  · rcases Nat.eq_zero_or_pos n with rfl | hpos
    · exact Nat.zero_le _
    · have : (n : Int) - 1 ≤ ((n : Int) - 1) * step := by
        have h1 : (0 : Int) ≤ (n : Int) - 1 := by omega
        nlinarith
      omega

/-! ## Tiles -/

section Tiles

variable {α ι : Type}

/-- Write the tiles of the indices `ps`, one after the other. -/
def fillTiles (pos : ι → Nat) (tile : ι → List α) (buf : List α) (ps : List ι) : List α :=
  ps.foldl (fun b p => writeAt b (pos p) (tile p)) buf

@[simp] theorem length_fillTiles (pos : ι → Nat) (tile : ι → List α) (buf : List α)
    (ps : List ι) : (fillTiles pos tile buf ps).length = buf.length := by
  induction ps generalizing buf with
  | nil => rfl
  | cons p ps ih => exact (ih _).trans (length_writeAt ..)

theorem fillTiles_map {κ : Type} (g : κ → ι) (pos : ι → Nat) (tile : ι → List α) (buf : List α)
    (ps : List κ) :
    fillTiles pos tile buf (ps.map g) = fillTiles (pos ∘ g) (tile ∘ g) buf ps :=
  List.foldl_map

theorem fillTiles_congr {pos pos' : ι → Nat} {tile tile' : ι → List α} {ps : List ι}
    (hpos : ∀ p ∈ ps, pos p = pos' p) (htile : ∀ p ∈ ps, tile p = tile' p) (buf : List α) :
    fillTiles pos tile buf ps = fillTiles pos' tile' buf ps :=
  List.foldl_ext _ _ _ fun b p hp => by rw [hpos p hp, htile p hp]

theorem fillTiles_flatMap {κ : Type} (f : κ → List ι) (pos : ι → Nat) (tile : ι → List α)
    (buf : List α) (ps : List κ) :
    fillTiles pos tile buf (ps.flatMap f) =
      ps.foldl (fun b p => fillTiles pos tile b (f p)) buf :=
  List.foldl_flatMap ..

/-- The positions of an `n × m` grid, row by row. -/
def rect (n m : Nat) : List (Nat × Nat) :=
  (List.range n).flatMap fun i => (List.range m).map fun j => (i, j)

theorem mem_rect {n m : Nat} {q : Nat × Nat} : q ∈ rect n m ↔ q.1 < n ∧ q.2 < m := by
  obtain ⟨i, j⟩ := q
  simp [rect]

theorem length_rect (n m : Nat) : (rect n m).length = n * m := by
  simp [rect, List.length_flatMap]

/-- Two nested loops over mapped ranges walk the grid. -/
theorem flatMap_map_rect (n m : Nat) {β γ : Type} (f : Nat → β) (g : Nat → γ) :
    (((List.range n).map f).flatMap fun a => ((List.range m).map g).map fun b => (a, b)) =
      (rect n m).map (Prod.map f g) := by
  simp only [rect, List.flatMap_map, List.map_flatMap, List.map_map]
  rfl

/-- Blocks of consecutive numbers, one after the other. -/
theorem flatMap_range_blocks (n L : Nat) :
    ((List.range n).flatMap fun i => (List.range L).map fun t => i * L + t) =
      List.range (n * L) := by
  induction n with
  | zero => simp
  | succ n ih =>
    rw [List.range_succ, List.flatMap_append, ih, Nat.succ_mul, List.range_add]
    simp

/-- The grid numbered row by row. -/
theorem rect_map_slot (n m : Nat) :
    ((rect n m).map fun q => q.1 * m + q.2) = List.range (n * m) := by
  rw [← flatMap_range_blocks, rect, List.map_flatMap]
  simp only [List.map_map, Function.comp_def]

theorem nodup_rect (n m : Nat) : (rect n m).Nodup := by
  refine List.Nodup.of_map (fun q => q.1 * m + q.2) ?_
  rw [rect_map_slot]
  exact List.nodup_range

/-- A running number that starts at the first position is the row-major one. -/
theorem zipIdx_rect (n m : Nat) :
    (rect n m).zipIdx = (rect n m).map fun q => (q, q.1 * m + q.2) := by
  have hslots : List.range (rect n m).length = (rect n m).map fun q => q.1 * m + q.2 := by
    rw [rect_map_slot, length_rect]
  calc (rect n m).zipIdx = (rect n m).zip (List.range (rect n m).length) := by
        rw [List.zipIdx_eq_zip_range', ← List.range_eq_range']
    _ = ((rect n m).map id).zip ((rect n m).map fun q => q.1 * m + q.2) := by
        rw [hslots, List.map_id]
    _ = (rect n m).map fun q => (q, q.1 * m + q.2) := by rw [List.zip_map']; rfl

/-- A row-major number is in range. -/
theorem slot_lt {n m i j : Nat} (hi : i < n) (hj : j < m) : i * m + j < n * m := by
  calc i * m + j < (i + 1) * m := by rw [Nat.succ_mul]; omega
    _ ≤ n * m := Nat.mul_le_mul_right m hi

/-- Row numbers scaled with a stride no shorter than a row tell the positions apart; with a
single row any stride does. -/
theorem strided_slot_injective {n m stride : Nat} (hstride : n ≤ 1 ∨ m ≤ stride)
    {q r : Nat × Nat} (hq : q ∈ rect n m) (hr : r ∈ rect n m)
    (h : q.1 * stride + q.2 = r.1 * stride + r.2) : q = r := by
  rw [mem_rect] at hq hr
  have hfst : q.1 = r.1 := by
    rcases hstride with hone | hle
    · omega
    · have hpos : 0 < stride := by omega
      have hdiv := congrArg (· / stride) h
      simpa [Nat.mul_comm _ stride, Nat.mul_add_div hpos, Nat.div_eq_of_lt (hq.2.trans_le hle),
        Nat.div_eq_of_lt (hr.2.trans_le hle)] using hdiv
  refine Prod.ext hfst ?_
  rw [hfst] at h
  omega

/-- The row-major numbers of two grid positions agree only if the positions do. -/
theorem rect_slot_injective {n m : Nat} {q r : Nat × Nat} (hq : q ∈ rect n m) (hr : r ∈ rect n m)
    (h : q.1 * m + q.2 = r.1 * m + r.2) : q = r :=
  strided_slot_injective (.inr le_rfl) hq hr h

/-- Two row-major numbers are the same only for the same position. -/
theorem slot_inj {m i j i' j' : Nat} (hj : j < m) (hj' : j' < m) :
    i * m + j = i' * m + j' ↔ i = i' ∧ j = j' := by
  refine ⟨fun heq => ?_, fun heq => by rw [heq.1, heq.2]⟩
  have hpair : (i, j) = (i', j') := rect_slot_injective (n := max (i + 1) (i' + 1))
    (mem_rect.mpr ⟨by simp, hj⟩) (mem_rect.mpr ⟨by simp, hj'⟩) heq
  exact Prod.mk.inj hpair

/-- The positions of a square grid, row by row. -/
def grid (n : Nat) : List (Nat × Nat) :=
  (List.range n).flatMap fun i => (List.range n).map fun j => (i, j)

theorem grid_eq_rect (n : Nat) : grid n = rect n n := rfl

theorem mem_grid {n : Nat} {q : Nat × Nat} : q ∈ grid n ↔ q.1 < n ∧ q.2 < n := mem_rect

/-- A cell no tile of `ps` covers keeps its value. -/
theorem getElem?_fillTiles_frame {pos : ι → Nat} {tile : ι → List α} {ps : List ι} {j : Nat}
    (h : ∀ p ∈ ps, j < pos p ∨ pos p + (tile p).length ≤ j) (buf : List α) :
    (fillTiles pos tile buf ps)[j]? = buf[j]? := by
  induction ps generalizing buf with
  | nil => rfl
  | cons p ps ih =>
    have hrest := ih (fun q hq => h q (List.mem_cons_of_mem _ hq)) (writeAt buf (pos p) (tile p))
    refine hrest.trans ?_
    rcases h p (List.mem_cons_self ..) with hlt | hge
    · exact getElem?_writeAt_lt _ _ hlt
    · exact getElem?_writeAt_ge _ _ hge

/-- The cells of tile `n` lie before or behind those of a tile with another number. -/
theorem outside_of_slot_ne {L n m r : Nat} (hr : r < L) (hne : m ≠ n) :
    n * L + r < m * L ∨ m * L + L ≤ n * L + r := by
  rcases Nat.lt_or_gt_of_ne hne with hlt | hgt
  · right
    calc m * L + L = (m + 1) * L := by ring
      _ ≤ n * L := Nat.mul_le_mul_right L hlt
      _ ≤ n * L + r := Nat.le_add_right ..
  · left
    calc n * L + r < n * L + L := by omega
      _ = (n + 1) * L := by ring
      _ ≤ m * L := Nat.mul_le_mul_right L hgt

/-- A tile whose number is none of the written ones keeps its cells. -/
theorem getElem?_fillTiles_unwritten (slot : ι → Nat) {tile : ι → List α} {L : Nat} {ps : List ι}
    (hlen : ∀ p ∈ ps, (tile p).length = L) {n : Nat} (hn : ∀ p ∈ ps, slot p ≠ n) (buf : List α)
    {r : Nat} (hr : r < L) :
    (fillTiles (fun p => slot p * L) tile buf ps)[n * L + r]? = buf[n * L + r]? := by
  refine getElem?_fillTiles_frame (fun a ha => ?_) buf
  rw [hlen a ha]
  exact outside_of_slot_ne hr (hn a ha)

/-- **Filling disjoint tiles**: a position that one tile covers and no other one holds what that tile
wrote there, whatever the order of the indices. -/
theorem getElem?_fillTiles_of_disjoint {pos : ι → Nat} {tile : ι → List α} {ps : List ι} {p : ι}
    (hp : p ∈ ps) {r : Nat} (hr : r < (tile p).length)
    (hother : ∀ q ∈ ps, q ≠ p → pos p + r < pos q ∨ pos q + (tile q).length ≤ pos p + r)
    {buf : List α} (hin : pos p + r < buf.length) :
    (fillTiles pos tile buf ps)[pos p + r]? = (tile p)[r]? := by
  induction ps generalizing buf with
  | nil => simp at hp
  | cons q ps ih =>
    by_cases hmem : p ∈ ps
    · have hin' : pos p + r < (writeAt buf (pos q) (tile q)).length := by
        rw [length_writeAt]
        exact hin
      exact ih hmem (fun a ha => hother a (List.mem_cons_of_mem _ ha)) hin'
    · obtain rfl : p = q := (List.mem_cons.mp hp).resolve_right hmem
      -- the tiles written later are other ones
      have hlater : ∀ a ∈ ps, pos p + r < pos a ∨ pos a + (tile a).length ≤ pos p + r :=
        fun a ha => hother a (List.mem_cons_of_mem _ ha) fun heq => hmem (heq ▸ ha)
      exact (getElem?_fillTiles_frame hlater _).trans (getElem?_writeAt_mid _ _ hr hin)

/-- Tiles of one length, numbered. -/
theorem getElem?_fillTiles (slot : ι → Nat) {tile : ι → List α} {L : Nat} {ps : List ι}
    (hlen : ∀ p ∈ ps, (tile p).length = L)
    (hinj : ∀ p ∈ ps, ∀ q ∈ ps, slot p = slot q → p = q) (buf : List α) {p : ι} (hp : p ∈ ps)
    {r : Nat} (hr : r < L) (hin : slot p * L + r < buf.length) :
    (fillTiles (fun p => slot p * L) tile buf ps)[slot p * L + r]? = (tile p)[r]? := by
  refine getElem?_fillTiles_of_disjoint hp (by rw [hlen p hp]; exact hr) (fun q hq hne => ?_) hin
  rw [hlen q hq]
  exact outside_of_slot_ne hr fun heq => hne (hinj q hq p hp heq)

end Tiles

/-! ## In-place loops -/

/-- **A loop that updates `n` cells in place**, from `base` on. -/
theorem getElem?_foldl_modify {α : Type} (base n : Nat) (f : Nat → α → α) (buf : List α)
    (j : Nat) :
    ((List.range n).foldl (fun b i => b.modify (base + i) (f i)) buf)[j]? =
      if base ≤ j ∧ j < base + n then buf[j]?.map (f (j - base)) else buf[j]? := by
  induction n with
  | zero => rw [if_neg (by omega)]; rfl
  | succ n ih =>
    rw [List.range_succ, List.foldl_append, List.foldl_cons, List.foldl_nil]
    by_cases hj : base + n = j
    · subst hj
      rw [List.getElem?_modify_eq, ih, if_neg (by omega), if_pos (by omega),
        Nat.add_sub_cancel_left]
      rfl
    · rw [List.getElem?_modify_ne _ _ hj, ih]
      by_cases hin : base ≤ j ∧ j < base + n
      · rw [if_pos hin, if_pos (by omega)]
      · rw [if_neg hin, if_neg (by omega)]

/-- A loop that stores to `n` cells from `base` on. -/
theorem getElem?_foldl_set {α : Type} (base n : Nat) (v : Nat → α) (buf : List α) (j : Nat) :
    ((List.range n).foldl (fun b i => b.set (base + i) (v (base + i))) buf)[j]? =
      if base ≤ j ∧ j < base + n then buf[j]?.map fun _ => v j else buf[j]? := by
  have hmodify : (fun (b : List α) i => b.set (base + i) (v (base + i))) =
      fun b i => b.modify (base + i) fun _ => v (base + i) := by
    funext b i
    rw [List.modify_eq_set_getElem?]
    cases hb : b[base + i]? with
    | none => exact List.set_eq_of_length_le (List.getElem?_eq_none_iff.mp hb)
    | some x => rfl
  rw [hmodify, getElem?_foldl_modify base n (fun i _ => v (base + i))]
  by_cases hj : base ≤ j ∧ j < base + n
  · rw [if_pos hj, if_pos hj, Nat.add_sub_cancel' hj.1]
  · rw [if_neg hj, if_neg hj]

/-- Two nested loops that update the `cols` cells of each row in place. -/
theorem getElem?_foldl_rows {α : Type} (rows cols : Nat) (f : Nat → α → α) (buf : List α) (j : Nat) :
    ((List.range rows).foldl (fun b c =>
        (List.range cols).foldl (fun b i => b.modify (c * cols + i) (f c)) b) buf)[j]? =
      if j < rows * cols then buf[j]?.map (f (j / cols)) else buf[j]? := by
  induction rows with
  | zero => rw [Nat.zero_mul, if_neg (by omega)]; rfl
  | succ n ih =>
    have hsplit : (n + 1) * cols = n * cols + cols := Nat.succ_mul ..
    rw [List.range_succ, List.foldl_append, List.foldl_cons, List.foldl_nil,
      getElem?_foldl_modify (n * cols) cols (fun _ => f n), ih]
    by_cases hlast : n * cols ≤ j ∧ j < n * cols + cols
    · have hdiv : j / cols = n := by
        have hcols : 0 < cols := by omega
        obtain ⟨r, rfl⟩ : ∃ r, j = n * cols + r := ⟨j - n * cols, by omega⟩
        rw [Nat.mul_comm n cols, Nat.mul_add_div hcols, Nat.div_eq_of_lt (by omega), Nat.add_zero]
      rw [if_pos hlast, if_neg (by omega), if_pos (by omega), hdiv]
    · rw [if_neg hlast]
      by_cases hin : j < n * cols
      · rw [if_pos hin, if_pos (by omega)]
      · rw [if_neg hin, if_neg (by omega)]

/-- An in-place loop keeps the length. -/
theorem length_foldl_rows {α : Type} (rows cols : Nat) (f : Nat → α → α) (buf : List α) :
    ((List.range rows).foldl (fun b c =>
      (List.range cols).foldl (fun b i => b.modify (c * cols + i) (f c)) b) buf).length =
        buf.length := by
  have hrow : ∀ (c m : Nat) (b : List α), ((List.range m).foldl
      (fun b i => b.modify (c * cols + i) (f c)) b).length = b.length := by
    intro c m b
    induction m with
    | zero => rfl
    | succ m ih => rw [List.range_succ, List.foldl_append]; simpa using ih
  induction rows with
  | zero => rfl
  | succ n ih => rw [List.range_succ, List.foldl_append, List.foldl_cons, List.foldl_nil, hrow, ih]

/-- Such a loop changes nothing exactly when no cell it reaches changes. -/
theorem foldl_modify_eq_self_iff {α : Type} (n : Nat) (f : Nat → α → α) (buf : List α) :
    (List.range n).foldl (fun b i => b.modify i (f i)) buf = buf ↔
      ∀ i < n, ∀ x, buf[i]? = some x → f i x = x := by
  have hcell : ∀ j, ((List.range n).foldl (fun b i => b.modify i (f i)) buf)[j]? =
      if j < n then buf[j]?.map (f j) else buf[j]? := by
    intro j
    simpa using getElem?_foldl_modify 0 n f buf j
  constructor
  · intro h i hi x hx
    have hi' := hcell i
    rw [h, if_pos hi, hx] at hi'
    simpa using hi'.symm
  · intro h
    refine List.ext_getElem? fun j => ?_
    rw [hcell]
    split
    · next hj =>
      cases hx : buf[j]? with
      | none => rfl
      | some x => rw [Option.map_some, h j hj x hx]
    · rfl

/-! ## A running maximum -/

/-- **A loop that keeps the greatest value seen**, over at least one round. -/
theorem foldl_max_isGreatest {α : Type} [LinearOrder α] (f : Nat → α) {n : Nat} (hn : 0 < n) :
    ∃ m : α, (List.range n).foldl (fun best j => max best (f j : WithBot α)) ⊥ = m ∧
      IsGreatest {v | ∃ j < n, v = f j} m := by
  induction n with
  | zero => omega
  | succ n ih =>
    rw [List.range_succ, List.foldl_append, List.foldl_cons, List.foldl_nil]
    rcases Nat.eq_zero_or_pos n with rfl | hpos
    · refine ⟨f 0, by simp, ⟨0, Nat.one_pos, rfl⟩, ?_⟩
      rintro v ⟨j, hj, rfl⟩
      obtain rfl : j = 0 := by omega
      exact le_rfl
    · obtain ⟨m, hm, ⟨j, hj, rfl⟩, hle⟩ := ih hpos
      refine ⟨max (f j) (f n), by rw [hm, WithBot.coe_max], ?_, ?_⟩
      · rcases max_choice (f j) (f n) with hmax | hmax
        · exact ⟨j, by omega, hmax⟩
        · exact ⟨n, by omega, hmax⟩
      · rintro v ⟨t, ht, rfl⟩
        rcases Nat.lt_succ_iff_lt_or_eq.mp ht with hlt | rfl
        · exact (hle ⟨t, hlt, rfl⟩).trans (le_max_left ..)
        · exact le_max_right ..

/-! ## Blocks -/

theorem length_flatMap_blocks {α : Type} {n L : Nat} {block : Nat → List α}
    (hlen : ∀ i < n, (block i).length = L) : ((List.range n).flatMap block).length = n * L := by
  induction n with
  | zero => simp
  | succ n ih =>
    rw [List.range_succ, List.flatMap_append, List.length_append,
      ih fun i hi => hlen i (Nat.lt_succ_of_lt hi), List.flatMap_singleton,
      hlen n (Nat.lt_succ_self n), Nat.succ_mul]

theorem getElem?_flatMap_blocks {α : Type} {n L : Nat} {block : Nat → List α}
    (hlen : ∀ i < n, (block i).length = L) {i r : Nat} (hi : i < n) (hr : r < L) :
    ((List.range n).flatMap block)[i * L + r]? = (block i)[r]? := by
  induction n with
  | zero => omega
  | succ n ih =>
    have hbefore := length_flatMap_blocks fun i hi => hlen i (Nat.lt_succ_of_lt hi)
    rw [List.range_succ, List.flatMap_append, List.flatMap_singleton]
    rcases Nat.lt_succ_iff_lt_or_eq.mp hi with hlt | rfl
    · have hcell : i * L + r < n * L := by
        calc i * L + r < (i + 1) * L := by rw [Nat.succ_mul]; omega
          _ ≤ n * L := Nat.mul_le_mul_right L hlt
      rw [List.getElem?_append_left (hbefore ▸ hcell)]
      exact ih (fun i hi => hlen i (Nat.lt_succ_of_lt hi)) hlt
    · rw [List.getElem?_append_right (by omega), hbefore, Nat.add_sub_cancel_left]

theorem getElem?_rect {n m i j : Nat} (hi : i < n) (hj : j < m) :
    (rect n m)[i * m + j]? = some (i, j) := by
  rw [rect, getElem?_flatMap_blocks (fun i _ => by simp) hi hj]
  simp [hj]

theorem rect_flatMap {α : Type} (n m : Nat) (block : Nat × Nat → List α) :
    (rect n m).flatMap block =
      (List.range n).flatMap fun i => (List.range m).flatMap fun j => block (i, j) := by
  simp only [rect, List.flatMap_assoc, List.flatMap_map]

/-- The blocks of a grid, row by row. -/
theorem length_flatMap_rect {α : Type} {n m L : Nat} {block : Nat × Nat → List α}
    (hlen : ∀ q, (block q).length = L) : ((rect n m).flatMap block).length = n * m * L := by
  rw [rect_flatMap, length_flatMap_blocks (L := m * L), Nat.mul_assoc]
  exact fun i _ => length_flatMap_blocks fun j _ => hlen (i, j)

theorem getElem?_flatMap_rect {α : Type} {n m L : Nat} {block : Nat × Nat → List α}
    (hlen : ∀ q, (block q).length = L) {i j r : Nat} (hi : i < n) (hj : j < m) (hr : r < L) :
    ((rect n m).flatMap block)[(i * m + j) * L + r]? = (block (i, j))[r]? := by
  have hrow : ∀ i, ((List.range m).flatMap fun j => block (i, j)).length = m * L :=
    fun i => length_flatMap_blocks fun j _ => hlen (i, j)
  rw [rect_flatMap, show (i * m + j) * L + r = i * (m * L) + (j * L + r) from by ring,
    getElem?_flatMap_blocks (fun i _ => hrow i) hi (slot_lt hj hr),
    getElem?_flatMap_blocks (fun j _ => hlen (i, j)) hj hr]

theorem sum_range_blocks {M : Type} [AddCommMonoid M] (n L : Nat) (f : Nat → M) :
    ∑ t ∈ Finset.range (n * L), f t =
      ∑ i ∈ Finset.range n, ∑ r ∈ Finset.range L, f (i * L + r) := by
  induction n with
  | zero => simp
  | succ n ih =>
    calc ∑ t ∈ Finset.range ((n + 1) * L), f t
        = ∑ t ∈ Finset.range (n * L + L), f t := by rw [Nat.succ_mul]
      _ = ∑ t ∈ Finset.range (n * L), f t + ∑ r ∈ Finset.range L, f (n * L + r) :=
          Finset.sum_range_add ..
      _ = _ := by rw [ih, Finset.sum_range_succ]

/-- A sum over the cells of a window, by channel, row and column. -/
theorem sum_range_window {M : Type} [AddCommMonoid M] (channels kh kw : Nat) (f : Nat → M) :
    ∑ t ∈ Finset.range (channels * kh * kw), f t =
      ∑ ch ∈ Finset.range channels, ∑ ky ∈ Finset.range kh, ∑ kx ∈ Finset.range kw,
        f ((ch * kh + ky) * kw + kx) := by
  rw [sum_range_blocks, sum_range_blocks]

end Peps.Lib
