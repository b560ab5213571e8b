import Mathlib.Data.List.Sort
import Mathlib.Data.List.Rotate
import Peps.Agg.Parallel

/-!
# The groups of a grouped convolution

A synthesised grouped convolution splits its input into groups, joins each with the weights of
its group number `gn` and stacks the results with `array_2d_agg … GROUP BY id`. The aggregate sees
the blocks only: it has no `ORDER BY`, and `gn` is not among its arguments. So the result holds
the blocks in the order in which their rows arrive, worker after worker in the order of the
combinations (`aggregateInParallel_blocks`), which is the order of the groups exactly when the rows
happen to arrive in it.
-/

namespace Peps.Agg

open Lib

/-- A row of the join: the number of a group and the result for it. -/
structure GroupRow where
  gn : Nat
  value : ArrayArg
deriving DecidableEq

/-- What the kernels return: a matrix with four bytes for each of its items. -/
structure Block (r c : Nat) (arg : ArrayArg) : Prop where
  matrix : Matrix2d r c 1 1 arg
  full : arg.data.length = 4 * (r * c)
  noNulls : arg.nullbitmap = none

/-- The rows in ascending order of their groups. -/
def byGroup (rows : List GroupRow) : List GroupRow :=
  rows.insertionSort fun a b => a.gn ≤ b.gn

/-- The blocks of the rows under each other. -/
def stacked (r c : Nat) (rows : List GroupRow) : ArrayArg where
  dims := [(rows.length : Int) * r, (c : Int)]
  lbs := [1, 1]
  data := rows.flatMap (·.value.data)
  nullbitmap := none

/-- The rows of one `id`, as a plan hands them to the aggregate: a chunk for each worker that
has any, in the order in which the workers' states are combined. -/
structure Delivery (rows : List GroupRow) where
  chunks : List (List GroupRow)
  hrows : chunks.flatten.Perm rows
  hchunks : ∀ chunk ∈ chunks, chunk ≠ []

/-- The rows in the order in which they reach the result. -/
def Delivery.arrival {rows : List GroupRow} (d : Delivery rows) : List GroupRow := d.chunks.flatten

/-- The blocks each worker aggregates. -/
def Delivery.blocks {rows : List GroupRow} (d : Delivery rows) : List (List ArrayArg) :=
  d.chunks.map fun chunk => chunk.map GroupRow.value

section Blocks

variable {r c : Nat}

theorem matrix_of_mem {rows : List GroupRow} (hblocks : ∀ row ∈ rows, Block r c row.value) :
    ∀ arg ∈ rows.map GroupRow.value, Matrix2d r c 1 1 arg := by
  intro arg harg
  obtain ⟨row, hrow, rfl⟩ := List.mem_map.mp harg
  exact (hblocks row hrow).matrix

theorem any_hasNulls_blocks {rows : List GroupRow} (hblocks : ∀ row ∈ rows, Block r c row.value) :
    (rows.map GroupRow.value).any ArrayArg.hasNulls = false := by
  rw [List.any_eq_false]
  intro arg harg
  obtain ⟨row, hrow, rfl⟩ := List.mem_map.mp harg
  simp [ArrayArg.hasNulls, (hblocks row hrow).noNulls]

/-- A state that has read the blocks of `rows` and no NULL finishes with the stacked blocks. -/
theorem finalfn_blocks {junk : Nat → UInt8} {rows : List GroupRow} {s : BuildState}
    (hne : rows ≠ []) (hblocks : ∀ row ∈ rows, Block r c row.value)
    (hsize : rows.length * (r * c) ≤ MaxArraySize)
    (hframe : Frame r c 1 1 (rows.map GroupRow.value) s)
    (hsound : Sound junk (r * c) (rows.map GroupRow.value) ⟨s.nullbitmap, s.aitems⟩) :
    array2dAggFinalfn (some s) = .ok (some (stacked r c rows)) := by
  obtain ⟨row, hrow⟩ := List.exists_mem_of_ne_nil rows hne
  have hmatrix := (hblocks row hrow).matrix
  have hlen : 0 < rows.length := List.length_pos_of_ne_nil hne
  have hget : arrayGetNItems [(rows.length : Int), (r : Int), (c : Int)] =
      .ok [rows.length, r, c].prod := by
    refine arrayGetNItems_of_le [rows.length, r, c] (by simp) ?_ (by simpa using hsize)
    intro d hd
    simp only [List.mem_cons, List.not_mem_nil, or_false] at hd
    rcases hd with rfl | rfl | rfl
    · exact hlen
    · exact hmatrix.rows
    · exact hmatrix.columns
  rw [finalfn_eq hframe, finalBits_of_sound hframe hsound, any_hasNulls_blocks hblocks,
    List.length_map, hget]
  simp [Except.map, stacked, List.flatMap_map]

/-- **A serial plan** stacks the blocks in the order of its rows. -/
theorem aggregateSerially_blocks (junk : Nat → UInt8) {rows : List GroupRow} (hne : rows ≠ [])
    (hblocks : ∀ row ∈ rows, Block r c row.value)
    (hsize : rows.length * (r * c) ≤ MaxArraySize) :
    aggregateSerially junk (rows.map GroupRow.value) = .ok (some (stacked r c rows)) := by
  have hne' : rows.map GroupRow.value ≠ [] := by simpa using hne
  obtain ⟨s, hrun, hframe, hsound, -⟩ := accumulate_ok junk hne' (matrix_of_mem hblocks)
  rw [aggregateSerially, hrun]
  exact finalfn_blocks hne hblocks hsize hframe hsound

-- the aggregate sees the arrived rows without their group numbers
theorem flatten_blocks {rows : List GroupRow} (d : Delivery rows) :
    d.blocks.flatten = d.arrival.map GroupRow.value := by
  rw [Delivery.blocks, Delivery.arrival, List.map_flatten]

theorem block_of_arrived {rows : List GroupRow} (d : Delivery rows)
    (hblocks : ∀ row ∈ rows, Block r c row.value) : ∀ row ∈ d.arrival, Block r c row.value :=
  fun row hrow => hblocks row (d.hrows.mem_iff.mp hrow)

-- without NULLs no chunk has a bitmap
theorem gapFree_blocks {rows : List GroupRow} (d : Delivery rows)
    (hblocks : ∀ row ∈ rows, Block r c row.value) : GapFree d.blocks := by
  refine List.pairwise_of_forall_mem_list fun earlier hearlier later _ hany => ?_
  obtain ⟨chunk, hchunk, rfl⟩ := List.mem_map.mp hearlier
  rw [any_hasNulls_blocks fun row hrow =>
    hblocks row (d.hrows.mem_iff.mp (List.mem_flatten.mpr ⟨chunk, hchunk, hrow⟩))] at hany
  cases hany

/-- **A parallel plan** stacks the blocks in the order of arrival. -/
theorem aggregateInParallel_blocks (junk : Nat → UInt8) {rows : List GroupRow} (d : Delivery rows)
    (hne : rows ≠ []) (hblocks : ∀ row ∈ rows, Block r c row.value)
    (hsize : rows.length * (r * c) ≤ MaxArraySize) :
    aggregateInParallel junk d.blocks = .ok (some (stacked r c d.arrival)) := by
  have harrived := block_of_arrived d hblocks
  have hlen : d.arrival.length = rows.length := d.hrows.length_eq
  have hne' : d.arrival ≠ [] := fun h => hne (by simpa [h, eq_comm] using hlen)
  have hchunks : d.blocks ≠ [] := by
    intro h
    have hflat := flatten_blocks d
    rw [h, List.flatten_nil, eq_comm, List.map_eq_nil_iff] at hflat
    exact hne' hflat
  have hworkers : ∀ chunk ∈ d.blocks, chunk ≠ [] := by
    intro chunk hchunk
    obtain ⟨rows', hrows', rfl⟩ := List.mem_map.mp hchunk
    simpa using d.hchunks rows' hrows'
  have hargs : ∀ arg ∈ d.blocks.flatten, Matrix2d r c 1 1 arg := by
    rw [flatten_blocks]
    exact matrix_of_mem harrived
  obtain ⟨s, hrun, hframe, hbits⟩ := combined_run junk hchunks hworkers hargs
    (by rw [flatten_blocks, List.length_map, hlen]; exact hsize)
  rw [flatten_blocks] at hframe hbits
  rcases hbits with ⟨-, hsound⟩ | ⟨hgap, -⟩
  · rw [hrun]
    exact finalfn_blocks hne' harrived (by rw [hlen]; exact hsize) hframe hsound
  · exact absurd (gapFree_blocks d hblocks) hgap

/-! ## Arrival and group order -/

theorem byGroup_perm (rows : List GroupRow) : (byGroup rows).Perm rows :=
  List.perm_insertionSort _ _

/-- Blocks of one size under each other tell the blocks apart. -/
theorem stacked_eq_iff {rows first second : List GroupRow} (hfirst : first.Perm rows)
    (hsecond : second.Perm rows) (hblocks : ∀ row ∈ rows, Block r c row.value) :
    stacked r c first = stacked r c second ↔
      first.map (·.value.data) = second.map (·.value.data) := by
  have hlen : first.length = second.length := hfirst.length_eq.trans hsecond.length_eq.symm
  have hsizes : ∀ {list : List GroupRow}, list.Perm rows →
      (list.map (·.value.data)).map List.length = List.replicate rows.length (4 * (r * c)) := by
    intro list hperm
    rw [List.eq_replicate_iff]
    refine ⟨by simp [hperm.length_eq], fun n hn => ?_⟩
    simp only [List.map_map, List.mem_map, Function.comp_apply] at hn
    obtain ⟨row, hrow, rfl⟩ := hn
    exact (hblocks row (hperm.mem_iff.mp hrow)).full
  have hflat : ∀ list : List GroupRow, list.flatMap (·.value.data) =
      (list.map (·.value.data)).flatten := fun list => by rw [List.flatMap_def]
  rw [List.eq_iff_flatten_eq, hsizes hfirst, hsizes hsecond]
  simp only [stacked, hlen, hflat, ArrayArg.mk.injEq, true_and, and_true]

/-- **The result is in group order exactly when the rows arrive in it** (up to groups with equal
blocks), in a parallel plan as in a serial one. -/
theorem groupOrder_iff (junk : Nat → UInt8) {rows : List GroupRow} (d : Delivery rows)
    (hne : rows ≠ []) (hblocks : ∀ row ∈ rows, Block r c row.value)
    (hsize : rows.length * (r * c) ≤ MaxArraySize) :
    (aggregateInParallel junk d.blocks = .ok (some (stacked r c (byGroup rows))) ↔
      d.arrival.map (·.value.data) = (byGroup rows).map (·.value.data)) ∧
    (aggregateSerially junk (d.arrival.map GroupRow.value) =
        .ok (some (stacked r c (byGroup rows))) ↔
      d.arrival.map (·.value.data) = (byGroup rows).map (·.value.data)) := by
  have hlen : d.arrival.length = rows.length := d.hrows.length_eq
  have hne' : d.arrival ≠ [] := fun h => hne (by simpa [h, eq_comm] using hlen)
  have hserial := aggregateSerially_blocks junk hne' (block_of_arrived d hblocks)
    (by rw [hlen]; exact hsize)
  have hiff := stacked_eq_iff d.hrows (byGroup_perm rows) hblocks
  rw [aggregateInParallel_blocks junk d hne hblocks hsize, hserial, Except.ok.injEq,
    Option.some.injEq]
  exact ⟨hiff, hiff⟩

/-- **No plan is left to chance** only where the order does not matter: the result is in group
order for every delivery exactly when all blocks are the same. -/
theorem groupOrder_always_iff (junk : Nat → UInt8) {rows : List GroupRow} (hne : rows ≠ [])
    (hblocks : ∀ row ∈ rows, Block r c row.value)
    (hsize : rows.length * (r * c) ≤ MaxArraySize) :
    (∀ d : Delivery rows,
        aggregateInParallel junk d.blocks = .ok (some (stacked r c (byGroup rows)))) ↔
      ∃ data, ∀ row ∈ rows, row.value.data = data := by
  have hpoint : ∀ d : Delivery rows,
      (aggregateInParallel junk d.blocks = .ok (some (stacked r c (byGroup rows))) ↔
        d.arrival.map (·.value.data) = (byGroup rows).map (·.value.data)) := by
    intro d
    rw [aggregateInParallel_blocks junk d hne hblocks hsize, Except.ok.injEq, Option.some.injEq]
    exact stacked_eq_iff d.hrows (byGroup_perm rows) hblocks
  constructor
  · intro h
    -- one worker that gets the first group last
    have hrotated : ((byGroup rows).rotate 1).Perm rows :=
      (List.rotate_perm _ _).trans (byGroup_perm rows)
    have hchunk : (byGroup rows).rotate 1 ≠ [] := fun hnil => hne (by
      rw [hnil] at hrotated
      exact hrotated.symm.eq_nil)
    have heq := (hpoint ⟨[(byGroup rows).rotate 1], by simpa using hrotated, by simpa using hchunk⟩).mp
      (h _)
    have hself : ((byGroup rows).map (·.value.data)).rotate 1 = (byGroup rows).map (·.value.data) := by
      rw [← List.map_rotate]
      simpa [Delivery.arrival] using heq
    obtain ⟨data, hdata⟩ := List.rotate_one_eq_self_iff_eq_replicate.mp hself
    refine ⟨data, fun row hrow => ?_⟩
    apply List.eq_of_mem_replicate
    rw [← hdata]
    exact List.mem_map_of_mem ((byGroup_perm rows).mem_iff.mpr hrow)
  · rintro ⟨data, hdata⟩ d
    rw [hpoint]
    have hall : ∀ {list : List GroupRow}, list.Perm rows →
        list.map (·.value.data) = List.replicate rows.length data := by
      intro list hperm
      rw [List.eq_replicate_iff]
      refine ⟨by simp [hperm.length_eq], fun b hb => ?_⟩
      obtain ⟨row, hrow, rfl⟩ := List.mem_map.mp hb
      exact hdata row (hperm.mem_iff.mp hrow)
    rw [hall (byGroup_perm rows)]
    exact hall d.hrows

end Blocks

-- two groups of one item each, 1.0 and 2.0
def twoGroups : List GroupRow :=
  [⟨1, ⟨[1, 1], [1, 1], [0, 0, 128, 63], none⟩⟩, ⟨2, ⟨[1, 1], [1, 1], [0, 0, 0, 64], none⟩⟩]

theorem twoGroups_blocks : ∀ row ∈ twoGroups, Block 1 1 row.value := by
  intro row hrow
  simp only [twoGroups, List.mem_cons, List.not_mem_nil, or_false] at hrow
  rcases hrow with rfl | rfl
  · exact ⟨⟨rfl, rfl, by decide, by decide, by decide, by decide, by decide⟩, rfl, rfl⟩
  · exact ⟨⟨rfl, rfl, by decide, by decide, by decide, by decide, by decide⟩, rfl, rfl⟩

/-- A worker for each group, combined in the order of the groups. -/
def ascendingDelivery : Delivery twoGroups where
  chunks := twoGroups.map fun row => [row]
  hrows := by decide
  hchunks := by decide

/-- The same two workers, combined in the other order. -/
def descendingDelivery : Delivery twoGroups where
  chunks := twoGroups.reverse.map fun row => [row]
  hrows := by decide
  hchunks := by decide

theorem groupOrder_ascending :
    aggregateInParallel zeroes ascendingDelivery.blocks =
      .ok (some (stacked 1 1 (byGroup twoGroups))) :=
  (groupOrder_iff zeroes ascendingDelivery (by decide) twoGroups_blocks (by decide)).1.mpr (by decide)

theorem groupOrder_descending :
    aggregateInParallel zeroes descendingDelivery.blocks ≠
        .ok (some (stacked 1 1 (byGroup twoGroups))) ∧
      aggregateSerially zeroes (descendingDelivery.arrival.map GroupRow.value) ≠
        .ok (some (stacked 1 1 (byGroup twoGroups))) := by
  rw [aggregateInParallel_blocks zeroes descendingDelivery (by decide) twoGroups_blocks (by decide),
    aggregateSerially_blocks zeroes (by decide)
      (block_of_arrived descendingDelivery twoGroups_blocks) (by decide)]
  decide

end Peps.Agg
