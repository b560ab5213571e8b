import Peps.Agg.Parallel

/-!
# The buffer a state is received into

`array_agg_array_deserialize` allocates the data buffer by a rule of its own, 1024 bytes doubled
until `nbytes` fit, and takes the capacity `abytes` from the message afterwards. `nbytes` is what the
sender has used, `abytes` what it had allocated, and how far they are apart depends on how its state
grew: the first input allocates a power of two *above* its size, later inputs double the buffer.

So a state always comes back as it was (`receive_serialize`), but in a buffer that may be smaller
than `abytes` (`receive_room_iff`).
-/

namespace Peps.Agg

open Lib

/-! ## The function with its buffer -/

/-- `while (result->abytes < nbytes) result->abytes *= 2`. -/
def growTo (nbytes abytes : Nat) : Nat :=
  if abytes < nbytes ∧ 0 < abytes then growTo nbytes (abytes * 2) else abytes
termination_by nbytes - abytes

/-- The size of the buffer for `nbytes` bytes. -/
def receiveCapacity (nbytes : Nat) : Nat := growTo nbytes 1024

/-- `array_agg_array_deserialize` with the size of the data buffer it allocates, which happens as
soon as `nbytes` is read. -/
def arrayAggArrayReceive (buf : List UInt8) : Except PgError (BuildState × Nat) := do
  let (_, rest) ← getmsgint buf
  let (_, rest) ← getmsgint rest
  let (nbytes, _) ← getmsgint rest
  let size := receiveCapacity nbytes
  if MaxAllocSize < size then .error (.report "invalid memory alloc request size %zu" [] [size])
  else do
    let s ← arrayAggArrayDeserialize buf
    .ok (s, size)

/-! ## The states of an aggregate -/

/-- The numbers of a state are C `int`s, and its buffer could be allocated. -/
structure Held (s : BuildState) : Prop where
  abytes : s.abytes ≤ MaxAllocSize
  aitems : s.aitems < 2 ^ 31
  nitems : s.nitems < 2 ^ 31
  dims : ∀ d ∈ s.dims, -2 ^ 31 ≤ d ∧ d < 2 ^ 31
  lbs : ∀ d ∈ s.lbs, -2 ^ 31 ≤ d ∧ d < 2 ^ 31

/-- The states that accumulation and combination lead to. Arrays and states of other dimensions are
refused by the two functions. -/
inductive Reachable : BuildState → Prop where
  | first {junk : Nat → UInt8} {array_type element_type : Nat} {arg : ArrayArg} {s : BuildState}
      (harray : array_type < 2 ^ 32) (helement : element_type < 2 ^ 32)
      (h : accumArrayResultArr junk (initArrayResultArr array_type element_type) (some arg) = .ok s)
      (hheld : Held s) : Reachable s
  | accum {junk : Nat → UInt8} {arg : ArrayArg} {s s' : BuildState} (hs : Reachable s)
      (h : accumArrayResultArr junk s (some arg) = .ok s') (hheld : Held s') : Reachable s'
  | copy {junk : Nat → UInt8} {s s' : BuildState} (hs : Reachable s)
      (h : array2dAggCombine junk none (some s) = .ok (some s')) : Reachable s'
  | combine {junk : Nat → UInt8} {s1 s2 s : BuildState} (h1 : Reachable s1) (h2 : Reachable s2)
      (h : array2dAggCombine junk (some s1) (some s2) = .ok (some s)) (hheld : Held s) : Reachable s

/-- What all these states have in common. -/
structure WellShaped (s : BuildState) : Prop where
  bits : NullBits.Shaped ⟨s.nullbitmap, s.aitems⟩
  room : s.data.length ≤ s.abytes
  start : s.ndims = 0 → s.data = []
  ndims : s.ndims ≤ MAXDIM
  dims : s.dims.length = MAXDIM
  lbs : s.lbs.length = MAXDIM
  array_type : s.array_type < 2 ^ 32
  element_type : s.element_type < 2 ^ 32

theorem wellShaped_init {array_type element_type : Nat} (harray : array_type < 2 ^ 32)
    (helement : element_type < 2 ^ 32) :
    WellShaped (initArrayResultArr array_type element_type) where
  bits := ⟨fun _ => rfl, nofun⟩
  room := Nat.le_refl _
  start := fun _ => rfl
  ndims := Nat.zero_le _
  dims := rfl
  lbs := rfl
  array_type := harray
  element_type := helement

/-- The state before the input is appended has room for it. -/
theorem prepare_wellShaped {s s' : BuildState} {arg : ArrayArg} (hs : WellShaped s)
    (h : (if s.ndims = 0 then accumFirst s arg else accumLater s arg) = .ok s') :
    WellShaped s' ∧ s'.ndims ≠ 0 ∧ s'.data.length + arg.data.length ≤ s'.abytes := by
  split at h
  · next hzero =>
    have hdata := hs.start hzero
    have hcap := le_nextPower2 (max 1024 (arg.data.length + 1))
    unfold accumFirst at h
    simp only [guard_ok_iff, Except.ok.injEq] at h
    obtain ⟨hpos, hfits, rfl⟩ := h
    refine ⟨⟨hs.bits, ?_, fun hnil => (by simp at hnil), Nat.not_lt.mp hfits, ?_, ?_, hs.array_type,
      hs.element_type⟩, Nat.succ_ne_zero _, ?_⟩
    · show s.data.length ≤ _
      simp [hdata]
    · show (writeAt (s.dims.set 0 0) 1 arg.dims).length = _
      rw [length_writeAt, List.length_set, hs.dims]
    · show (writeAt (s.lbs.set 0 1) 1 arg.lbs).length = _
      rw [length_writeAt, List.length_set, hs.lbs]
    · show s.data.length + arg.data.length ≤ nextPower2 _
      rw [hdata, List.length_nil]
      omega
  · next hzero =>
    unfold accumLater at h
    simp only [guard_ok_iff] at h
    obtain ⟨-, -, h⟩ := h
    split at h
    · cases h
      refine ⟨⟨hs.bits, ?_, hs.start, hs.ndims, hs.dims, hs.lbs, hs.array_type, hs.element_type⟩,
        hzero, ?_⟩
      · show s.data.length ≤ max _ _
        omega
      · show s.data.length + arg.data.length ≤ max _ _
        omega
    · next hroom =>
      cases h
      exact ⟨hs, hzero, Nat.not_lt.mp hroom⟩

theorem accum_wellShaped {junk : Nat → UInt8} {s s' : BuildState} {arg : ArrayArg}
    (hs : WellShaped s) (h : accumArrayResultArr junk s (some arg) = .ok s') : WellShaped s' := by
  simp only [accumArrayResultArr, bind_ok_iff] at h
  obtain ⟨nitems, -, mid, hprep, happend⟩ := h
  cases happend
  obtain ⟨hmid, hndims, hroom⟩ := prepare_wellShaped hs hprep
  refine ⟨accumBitmap_shaped hmid.bits junk _ _ _, ?_, fun hzero => absurd hzero hndims, hmid.ndims,
    ?_, hmid.lbs, hmid.array_type, hmid.element_type⟩
  · show (mid.data ++ arg.data).length ≤ mid.abytes
    rw [List.length_append]
    exact hroom
  · show (mid.dims.set 0 _).length = _
    rw [List.length_set, hmid.dims]

theorem combine_wellShaped {junk : Nat → UInt8} {s1 s2 s : BuildState} (h1 : WellShaped s1)
    (h2 : WellShaped s2) (h : array2dAggCombine junk (some s1) (some s2) = .ok (some s)) :
    WellShaped s := by
  simp only [array2dAggCombine] at h
  split at h
  · simp only [bind_ok_iff] at h
    obtain ⟨out, hout, hret⟩ := h
    cases hret
    unfold combineStates at hout
    simp only [guard_ok_iff, Except.ok.injEq] at hout
    obtain ⟨hndims, -, rfl⟩ := hout
    have hsame := not_not.mp hndims
    refine ⟨combineBitmap_shaped h1.bits junk _ _, ?_, fun hzero => ?_, h1.ndims, ?_, h1.lbs,
      h1.array_type, h1.element_type⟩
    · have hcap := le_nextPower2 (s1.data.length + s2.data.length)
      show (s1.data ++ s2.data).length ≤ if _ then _ else _
      rw [List.length_append]
      split <;> omega
    · show s1.data ++ s2.data = []
      rw [h1.start hzero, h2.start (hsame ▸ hzero), List.nil_append]
    · show (s1.dims.set 0 _).length = _
      rw [List.length_set, h1.dims]
  · cases h
    exact h1

/-- **Every state of an aggregate**, by induction over how it came about. -/
theorem wellShaped_of_reachable {s : BuildState} (h : Reachable s) : WellShaped s ∧ Held s := by
  induction h with
  | first harray helement h hheld =>
    exact ⟨accum_wellShaped (wellShaped_init harray helement) h, hheld⟩
  | accum _ h hheld ih => exact ⟨accum_wellShaped ih.1 h, hheld⟩
  | copy _ h ih =>
    cases h
    rw [copyState_of_shaped ih.1.bits]
    exact ih
  | combine _ _ h hheld ih1 ih2 => exact ⟨combine_wellShaped ih1.1 ih2.1 h, hheld⟩

/-! ## The buffer -/

/-- The loop ends at the first size that is large enough. -/
theorem growTo_spec (nbytes : Nat) {abytes : Nat} (hpos : 0 < abytes) :
    ∃ k, growTo nbytes abytes = abytes * 2 ^ k ∧ nbytes ≤ growTo nbytes abytes ∧
      ∀ j < k, abytes * 2 ^ j < nbytes := by
  induction abytes using growTo.induct nbytes with
  | case1 abytes h ih =>
    obtain ⟨k, hk, hle, hbefore⟩ := ih (by omega)
    rw [growTo, if_pos h]
    refine ⟨k + 1, by rw [hk]; ring, hle, fun j hj => ?_⟩
    cases j with
    | zero => simpa using h.1
    | succ j =>
      have := hbefore j (by omega)
      rwa [show abytes * 2 ^ (j + 1) = abytes * 2 * 2 ^ j by ring]
  | case2 abytes h =>
    rw [growTo, if_neg h]
    exact ⟨0, by simp, by omega, fun j hj => (by omega)⟩

theorem pow_le_nextPower2 {n k : Nat} (h : 2 ^ k < n) : 2 ^ (k + 1) ≤ nextPower2 n := by
  have hpos : n ≠ 0 := Nat.ne_zero_of_lt h
  have hlog : k ≤ n.log2 := (Nat.le_log2 hpos).mpr (Nat.le_of_lt h)
  unfold nextPower2
  split
  · next heq =>
    refine heq ▸ Nat.pow_le_pow_right (by omega) ?_
    rcases Nat.lt_or_ge k n.log2 with hlt | hge
    · exact hlt
    · have : 2 ^ n.log2 ≤ 2 ^ k := Nat.pow_le_pow_right (by omega) hge
      omega
  · exact Nat.pow_le_pow_right (by omega) (by omega)

/-- A power of two that is large enough. -/
theorem nextPower2_le_pow {n k : Nat} (hpos : 0 < n) (h : n ≤ 2 ^ k) : nextPower2 n ≤ 2 ^ k := by
  unfold nextPower2
  split
  · exact h
  · next hne =>
    have hlow : 2 ^ n.log2 ≤ n := Nat.log2_self_le (by omega)
    have hlt : n.log2 < k := (Nat.pow_lt_pow_iff_right (by omega : 1 < 2)).mp (by omega)
    exact Nat.pow_le_pow_right (by omega) hlt

/-- The buffer is the power of two that `nbytes` take, and 1024 bytes at least. -/
theorem receiveCapacity_eq (nbytes : Nat) :
    receiveCapacity nbytes = max 1024 (nextPower2 nbytes) := by
  obtain ⟨k, hk, hle, hbefore⟩ := growTo_spec nbytes (by decide : 0 < 1024)
  unfold receiveCapacity
  cases k with
  | zero =>
    rw [hk] at hle ⊢
    have hsmall : nextPower2 nbytes ≤ 1024 := by
      rcases Nat.eq_zero_or_pos nbytes with rfl | hpos
      · decide
      · exact nextPower2_le_pow (k := 10) hpos (by omega)
    omega
  | succ k =>
    have hpow : ∀ j, 1024 * 2 ^ j = 2 ^ (10 + j) := fun j => by rw [Nat.pow_add]
    have hlow := hbefore k (Nat.lt_succ_self k)
    have hpos : 0 < nbytes := Nat.zero_lt_of_lt hlow
    rw [hpow] at hk hlow
    rw [hk] at hle ⊢
    have hge : 2 ^ (10 + (k + 1)) ≤ nextPower2 nbytes := pow_le_nextPower2 hlow
    have hleq := nextPower2_le_pow hpos hle
    have hbig : 1024 ≤ 2 ^ (10 + (k + 1)) := by
      rw [← hpow]
      exact Nat.le_mul_of_pos_right _ (Nat.two_pow_pos _)
    omega

/-- **A state is received as it was sent**, if the buffer can be allocated. -/
theorem receive_serialize {s : BuildState} (h : Reachable s) :
    arrayAggArrayReceive (arrayAggArraySerialize s) =
      if MaxAllocSize < receiveCapacity s.data.length then
        .error (.report "invalid memory alloc request size %zu" [] [receiveCapacity s.data.length])
      else .ok (s, receiveCapacity s.data.length) := by
  obtain ⟨hs, hheld⟩ := wellShaped_of_reachable h
  have hmax : MaxAllocSize < 2 ^ 30 := by decide
  have hdim : MAXDIM = 6 := rfl
  obtain ⟨hroom, habytes, hndims⟩ := And.intro hs.room (And.intro hheld.abytes hs.ndims)
  have hdata : s.data.length < 2 ^ 32 := by omega
  have haitems := hheld.aitems
  have hnitems := hheld.nitems
  have hback := deserialize_serialize hs.bits hdata (by omega) (by omega) (by omega) (by omega)
    hs.array_type hs.element_type ⟨hs.dims, hheld.dims⟩ ⟨hs.lbs, hheld.lbs⟩
  unfold arrayAggArrayReceive
  rw [hback]
  unfold arrayAggArraySerialize
  simp only [getmsgint_append, hs.element_type, hs.array_type, hdata, bind, Except.bind]

/-- **The buffer has room for `abytes`** exactly when they are not beyond the power of two that the
bytes in use take (1024 at least), and that much can be allocated. -/
theorem receive_room_iff (s : BuildState) (h : Reachable s) :
    (∃ size, arrayAggArrayReceive (arrayAggArraySerialize s) = .ok (s, size) ∧ s.abytes ≤ size) ↔
      s.abytes ≤ max 1024 (nextPower2 s.data.length) ∧
        max 1024 (nextPower2 s.data.length) ≤ MaxAllocSize := by
  rw [receive_serialize h, receiveCapacity_eq]
  constructor
  · rintro ⟨size, hrun, hroom⟩
    split at hrun
    · cases hrun
    · next hle =>
      cases hrun
      exact ⟨hroom, Nat.not_lt.mp hle⟩
  · rintro ⟨hroom, hle⟩
    rw [if_neg (Nat.not_lt.mpr hle)]
    exact ⟨_, rfl, hroom⟩

/-- A `real[][]` without NULLs. -/
def blockOf (rows columns : Nat) : ArrayArg where
  dims := [(rows : Int), (columns : Int)]
  lbs := [1, 1]
  data := List.replicate (4 * (rows * columns)) 0
  nullbitmap := none

/-- The state after one row of two elements. -/
theorem receive_shortRow :
    ∃ s, accumArrayResultArr zeroes (initArrayResultArr FLOAT4ARRAYOID FLOAT4OID) (some fullRow) =
        .ok s ∧ Reachable s ∧
      ∃ size, arrayAggArrayReceive (arrayAggArraySerialize s) = .ok (s, size) ∧ s.abytes ≤ size := by
  have hrun : accumArrayResultArr zeroes (initArrayResultArr FLOAT4ARRAYOID FLOAT4OID)
      (some fullRow) = .ok ⟨fullRow.data, none, 1024, 0, 2, 3, [1, 1, 2, 0, 0, 0],
        [1, 1, 1, 0, 0, 0], FLOAT4ARRAYOID, FLOAT4OID⟩ := by
    decide +kernel
  have hreach := Reachable.first (by decide) (by decide) hrun
    ⟨by decide, by decide, by decide, by decide, by decide⟩
  exact ⟨_, hrun, hreach, (receive_room_iff _ hreach).mpr ⟨by decide, by decide⟩⟩

/-- **A first array of 1024 bytes** (16 by 16 elements): the sender has allocated 2048, the receiver
1024, and both say 2048. Four more bytes pass the test of `abytes` and do not fit the buffer. -/
theorem receive_squareArray :
    ∃ s, accumArrayResultArr zeroes (initArrayResultArr FLOAT4ARRAYOID FLOAT4OID)
        (some (blockOf 16 16)) = .ok s ∧ Reachable s ∧
      ∃ size, arrayAggArrayReceive (arrayAggArraySerialize s) = .ok (s, size) ∧
        ¬ s.abytes ≤ size ∧ ¬ s.abytes < s.data.length + 4 ∧ size < s.data.length + 4 := by
  have hrun : accumArrayResultArr zeroes (initArrayResultArr FLOAT4ARRAYOID FLOAT4OID)
      (some (blockOf 16 16)) = .ok ⟨List.replicate 1024 0, none, 2048, 0, 256, 3,
        [1, 16, 16, 0, 0, 0], [1, 1, 1, 0, 0, 0], FLOAT4ARRAYOID, FLOAT4OID⟩ := by
    decide +kernel
  have hreach := Reachable.first (by decide) (by decide) hrun
    ⟨by decide, by decide, by decide, by decide, by decide⟩
  refine ⟨_, hrun, hreach, 1024, ?_, by decide, ?_, ?_⟩
  · rw [receive_serialize hreach, receiveCapacity_eq, List.length_replicate]
    rfl
  · rw [List.length_replicate]
    decide
  · rw [List.length_replicate]
    decide

end Peps.Agg
