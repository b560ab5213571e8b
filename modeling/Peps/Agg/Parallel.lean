import Peps.Agg.Bits

/-!
# Serial and parallel aggregation

What `array_2d_agg` is for: the rows of all inputs under each other, with the bit of every item.
A state that has read the inputs `args` is described by `Frame` (everything but the bitmap) and
by `BitsOk` at `bitAt`, the bits of the inputs one after the other.

A worker's state is described by its own inputs (`accumulate_ok`), it survives the trip over the
wire (`deserialize_serialize`), and the leader's state is described by the inputs of all chunks
combined so far for as long as no chunk without a bitmap follows one with a bitmap
(`combine_step`). From such a *gap* on, the bits of that chunk's items are whatever the memory
held, and no later combination repairs them.
-/

namespace Peps.Agg

open Lib

/-! ## The wire format loses nothing -/

-- the bitmap field and the capacity a receiver tells its presence from
theorem nullbitmap_recovered {nulls : NullBits} (h : nulls.Shaped) :
    (nulls.nullbitmap.elim [] (·.take (bitmapSize nulls.aitems))).length = bitmapSize nulls.aitems ∧
    (if 0 < nulls.aitems then
      some (nulls.nullbitmap.elim [] (·.take (bitmapSize nulls.aitems))) else none) =
      nulls.nullbitmap := by
  cases hbits : nulls.nullbitmap with
  | none => simp [h.absent hbits, bitmapSize]
  | some bits =>
    obtain ⟨hlen, hpos⟩ := h.present bits hbits
    simp [hpos, ← hlen]

theorem getmsgint_append {n : Nat} (hn : n < 2 ^ 32) (rest : List UInt8) :
    getmsgint (beBytes 4 n ++ rest) = .ok (n, rest) := by
  unfold getmsgint
  rw [getBytes_append shortMessage (length_beBytes 4 n)]
  show Except.ok (beValue (beBytes 4 n), rest) = _
  rw [beValue_beBytes (by omega)]

/-- **The round trip**: a state whose numbers fit their fields is received as it was sent. -/
theorem deserialize_serialize {s : BuildState} (hbits : NullBits.Shaped ⟨s.nullbitmap, s.aitems⟩)
    (hdata : s.data.length < 2 ^ 32) (habytes : s.abytes < 2 ^ 32) (haitems : s.aitems < 2 ^ 32)
    (hnitems : s.nitems < 2 ^ 32) (hndims : s.ndims < 2 ^ 32) (harray : s.array_type < 2 ^ 32)
    (helement : s.element_type < 2 ^ 32)
    (hdims : s.dims.length = MAXDIM ∧ ∀ d ∈ s.dims, -2 ^ 31 ≤ d ∧ d < 2 ^ 31)
    (hlbs : s.lbs.length = MAXDIM ∧ ∀ d ∈ s.lbs, -2 ^ 31 ≤ d ∧ d < 2 ^ 31) :
    arrayAggArrayDeserialize (arrayAggArraySerialize s) = .ok s := by
  obtain ⟨hlen, hback⟩ := nullbitmap_recovered hbits
  have hdimBytes : (wordsBytes s.dims).length = 4 * MAXDIM := by rw [length_wordsBytes, hdims.1]
  have hlbBytes : (wordsBytes s.lbs).length = 4 * MAXDIM := by rw [length_wordsBytes, hlbs.1]
  have hlast : getBytes shortMessage (4 * MAXDIM) (wordsBytes s.lbs) = .ok (wordsBytes s.lbs, []) := by
    simpa using getBytes_append shortMessage hlbBytes []
  -- the fields are read back in the order they were written
  unfold arrayAggArrayDeserialize arrayAggArraySerialize
  simp only [getmsgint_append, helement, harray, hdata, habytes, haitems, hnitems, hndims,
    getBytes_append shortMessage (rfl : s.data.length = s.data.length),
    getBytes_append shortMessage hlen, getBytes_append shortMessage hdimBytes, hlast,
    bind, Except.bind, ne_eq, not_true_eq_false, if_false]
  rw [hback, ← hdims.1, wordsValue_wordsBytes hdims.2, hdims.1, ← hlbs.1,
    wordsValue_wordsBytes hlbs.2]

/-! ## The inputs, and the bits of a list of them -/

/-- A `real[][]` of `r` rows and `c` columns, as PostgreSQL builds it: not empty, within
`MaxArraySize`, four bytes for each element that is not NULL. -/
structure Matrix2d (r c : Nat) (lb0 lb1 : Int) (arg : ArrayArg) : Prop where
  dims : arg.dims = [(r : Int), (c : Int)]
  lbs : arg.lbs = [lb0, lb1]
  rows : 0 < r
  columns : 0 < c
  size : r * c ≤ MaxArraySize
  bytes : arg.data.length ≤ 4 * (r * c)
  bounds : (-2 ^ 31 ≤ lb0 ∧ lb0 < 2 ^ 31) ∧ -2 ^ 31 ≤ lb1 ∧ lb1 < 2 ^ 31

def ArrayArg.hasNulls (arg : ArrayArg) : Bool := arg.nullbitmap.isSome

-- item `j` of inputs of `n` items each
def bitAt (n : Nat) (args : List ArrayArg) (j : Nat) : Bool :=
  (args[j / n]?).elim true fun arg => bitOf arg.nullbitmap (j % n)

theorem joinBits_bitAt {n : Nat} (hn : 0 < n) (first second : List ArrayArg) (j : Nat) :
    joinBits (first.length * n) (bitAt n first) (bitAt n second) j =
      bitAt n (first ++ second) j := by
  unfold joinBits bitAt
  split
  · next hj => rw [List.getElem?_append_left (Nat.div_lt_of_lt_mul (by rwa [Nat.mul_comm]))]
  · next hj =>
    have hq : first.length ≤ j / n := (Nat.le_div_iff_mul_le hn).mpr (by omega)
    rw [List.getElem?_append_right hq, Nat.mul_comm first.length, Nat.sub_mul_div,
      Nat.sub_mul_mod (by rw [Nat.mul_comm]; omega)]

theorem bitAt_singleton {n : Nat} (arg : ArrayArg) {j : Nat} (hj : j < n) :
    bitAt n [arg] j = bitOf arg.nullbitmap j := by
  unfold bitAt
  rw [Nat.div_eq_of_lt hj, Nat.mod_eq_of_lt hj]
  rfl

section Aggregate

variable {r c : Nat} {lb0 lb1 : Int}

/-- Everything of a state but its bitmap, after the inputs `args`. -/
structure Frame (r c : Nat) (lb0 lb1 : Int) (args : List ArrayArg) (s : BuildState) : Prop where
  data : s.data = args.flatMap (·.data)
  nitems : s.nitems = args.length * (r * c)
  ndims : s.ndims = 3
  dims : s.dims = [(args.length : Int), (r : Int), (c : Int), 0, 0, 0]
  lbs : s.lbs = [1, lb0, lb1, 0, 0, 0]
  array_type : s.array_type = FLOAT4ARRAYOID
  element_type : s.element_type = FLOAT4OID

/-- Its bitmap. -/
structure Sound (junk : Nat → UInt8) (n : Nat) (args : List ArrayArg) (nulls : NullBits) :
    Prop where
  bits : BitsOk nulls (args.length * n) (bitAt n args)
  hasBits : nulls.nullbitmap.isSome = args.any ArrayArg.hasNulls
  tail : junk = zeroes → ZeroTail nulls (args.length * n)

-- so the numbers sent over the wire are of the order of the items
structure Small (s : BuildState) : Prop where
  abytes : s.abytes ≤ 4096 + 4 * s.data.length
  aitems : s.aitems ≤ 1024 + 4 * s.nitems
  bytes : s.data.length ≤ 4 * s.nitems

/-! ## One process -/

theorem sound_accumBitmap {junk : Nat → UInt8} {n : Nat} (hn : 0 < n) {args : List ArrayArg}
    {nulls : NullBits} (h : Sound junk n args nulls) (arg : ArrayArg) :
    Sound junk n (args ++ [arg]) (accumBitmap junk nulls (args.length * n) arg.nullbitmap n) := by
  have hlen : (args ++ [arg]).length * n = args.length * n + n := by
    rw [List.length_append, List.length_singleton, Nat.add_mul, Nat.one_mul]
  refine ⟨?_, ?_, fun hjunk => ?_⟩
  · rw [hlen]
    refine (accumBitmap_ok junk h.bits arg.nullbitmap n).congr fun j hj => ?_
    rw [← joinBits_bitAt hn]
    unfold joinBits
    split
    · rfl
    · exact bitAt_singleton arg (by omega)
  · rw [isSome_accumBitmap, h.hasBits, List.any_append]
    simp [ArrayArg.hasNulls]
  · subst hjunk
    rw [hlen]
    exact zeroTail_accumBitmap h.bits (h.tail rfl) _ n

-- what a worker's state is after `args`; none of them leaves no state
def Collected (junk : Nat → UInt8) (r c : Nat) (lb0 lb1 : Int) (args : List ArrayArg) :
    Option BuildState → Prop
  | none => args = []
  | some s => Frame r c lb0 lb1 args s ∧ Sound junk (r * c) args ⟨s.nullbitmap, s.aitems⟩ ∧ Small s

-- before the first input there is no bitmap
theorem sound_nil (junk : Nat → UInt8) (n : Nat) : Sound junk n [] ⟨none, 0⟩ where
  bits := ⟨fun _ => ⟨rfl, fun j hj => (by simp at hj)⟩, fun bits hsome => (by cases hsome)⟩
  hasBits := rfl
  tail := fun _ bits hsome => (by cases hsome)

/-- Before the input is appended the state describes the inputs so far, also at the first of
them: its dimensions are then set and no array is counted yet. -/
theorem prepare_ok {junk : Nat → UInt8} {args : List ArrayArg} {state : Option BuildState}
    {arg : ArrayArg} (h : Collected junk r c lb0 lb1 args state)
    (harg : Matrix2d r c lb0 lb1 arg) :
    let s := state.getD (initArrayResultArr FLOAT4ARRAYOID FLOAT4OID)
    ∃ s', (if s.ndims = 0 then accumFirst s arg else accumLater s arg) = .ok s' ∧
      Frame r c lb0 lb1 args s' ∧ Sound junk (r * c) args ⟨s'.nullbitmap, s'.aitems⟩ ∧
      s'.abytes ≤ 4096 + 4 * (s'.data ++ arg.data).length ∧
      s'.aitems ≤ 1024 + 4 * s'.nitems ∧ s'.data.length ≤ 4 * s'.nitems := by
  cases state with
  | none =>
    subst h
    have hcap : nextPower2 (max 1024 (arg.data.length + 1)) ≤ 2 * max 1024 (arg.data.length + 1) :=
      nextPower2_le (by omega)
    show ∃ s', accumFirst (initArrayResultArr FLOAT4ARRAYOID FLOAT4OID) arg = .ok s' ∧ _
    unfold accumFirst
    rw [harg.dims, harg.lbs, if_neg (by simp), if_neg (by simp [MAXDIM])]
    refine ⟨_, rfl, ⟨rfl, by simp [initArrayResultArr], rfl, rfl, rfl, rfl, rfl⟩,
      sound_nil junk (r * c), ?_, by simp [initArrayResultArr], by simp [initArrayResultArr]⟩
    refine hcap.trans ?_
    rw [List.length_append]
    omega
  | some s =>
    obtain ⟨hframe, hsound, habytes, haitems, hbytes⟩ := h
    have hsame : ¬ ∃ i < arg.dims.length, s.dims.getD (i + 1) 0 ≠ arg.dims.getD i 0 ∨
        s.lbs.getD (i + 1) 0 ≠ arg.lbs.getD i 0 := by
      rw [harg.dims, harg.lbs, hframe.dims, hframe.lbs]
      rintro ⟨i, hi, hne⟩
      match i, hi with
      | 0, _ => simp at hne
      | 1, _ => simp at hne
    show ∃ s', (if s.ndims = 0 then accumFirst s arg else accumLater s arg) = .ok s' ∧ _
    unfold accumLater
    rw [if_neg (by rw [hframe.ndims]; decide), if_neg (by rw [hframe.ndims, harg.dims]; simp),
      if_neg hsame]
    split
    · -- the data buffer grows
      refine ⟨_, rfl, ⟨hframe.data, hframe.nitems, hframe.ndims, hframe.dims, hframe.lbs,
        hframe.array_type, hframe.element_type⟩, hsound, ?_, haitems, hbytes⟩
      show max (s.abytes * 2) (s.data.length + arg.data.length) ≤
        4096 + 4 * (s.data ++ arg.data).length
      rw [List.length_append]
      omega
    · refine ⟨s, rfl, hframe, hsound, ?_, haitems, hbytes⟩
      rw [List.length_append]
      omega

/-- **One call of the transition function.** -/
theorem transfn_step {junk : Nat → UInt8} {args : List ArrayArg} {state : Option BuildState}
    {arg : ArrayArg} (h : Collected junk r c lb0 lb1 args state)
    (harg : Matrix2d r c lb0 lb1 arg) :
    ∃ s', array2dAggTransfn junk state (some arg) = .ok s' ∧
      Collected junk r c lb0 lb1 (args ++ [arg]) (some s') := by
  have hpos : 0 < r * c := Nat.mul_pos harg.rows harg.columns
  have hitems : arrayGetNItems arg.dims = .ok (r * c) := by
    rw [harg.dims]
    have hget := arrayGetNItems_of_le [r, c] (by simp)
      (by simp [harg.rows, harg.columns]) (by simpa using harg.size)
    simpa using hget
  obtain ⟨s, hprep, hframe, hsound, habytes, haitems, hbytes⟩ := prepare_ok h harg
  have hnext := sound_accumBitmap hpos hsound arg
  have hroom := accumBitmap_aitems_le junk ⟨s.nullbitmap, s.aitems⟩ s.nitems arg.nullbitmap
    (r * c) haitems
  have hargBytes := harg.bytes
  refine ⟨appendArray junk s arg (r * c), ?_, ⟨?_, ?_, hframe.ndims, ?_, hframe.lbs,
    hframe.array_type, hframe.element_type⟩, ?_, habytes, hroom, ?_⟩
  · rw [array2dAggTransfn, accumArrayResultArr]
    exact bind_ok_iff.mpr ⟨r * c, hitems, bind_ok_iff.mpr ⟨s, hprep, rfl⟩⟩
  · simp [appendArray, hframe.data]
  · simp [appendArray, hframe.nitems, Nat.add_mul]
  · simp [appendArray, hframe.dims]
  · show Sound junk (r * c) (args ++ [arg])
      (accumBitmap junk ⟨s.nullbitmap, s.aitems⟩ s.nitems arg.nullbitmap (r * c))
    rw [hframe.nitems]
    exact hnext
  · show (s.data ++ arg.data).length ≤ 4 * (s.nitems + r * c)
    rw [List.length_append]
    omega

/-- **A whole worker.** -/
theorem accumulate_ok (junk : Nat → UInt8) {args : List ArrayArg} (hne : args ≠ [])
    (hargs : ∀ arg ∈ args, Matrix2d r c lb0 lb1 arg) :
    ∃ s, accumulate junk args = .ok (some s) ∧ Frame r c lb0 lb1 args s ∧
      Sound junk (r * c) args ⟨s.nullbitmap, s.aitems⟩ ∧ Small s := by
  have hstep : ∀ read state arg, arg ∈ args → Collected junk r c lb0 lb1 read state →
      ∃ state', (do
        let s ← array2dAggTransfn junk state (some arg)
        Except.ok (some s)) = .ok state' ∧ Collected junk r c lb0 lb1 (read ++ [arg]) state' := by
    intro read state arg hmem hread
    obtain ⟨s', hs, hs'⟩ := transfn_step hread (hargs arg hmem)
    exact ⟨some s', by rw [hs]; rfl, hs'⟩
  have hstart : Collected junk r c lb0 lb1 [] none := rfl
  obtain ⟨state, hrun, hend⟩ := foldlM_ok args hstep hstart
  cases state with
  | none => exact absurd (show args = [] from hend) hne
  | some s => exact ⟨s, hrun, hend⟩

/-- **A worker's state reaches the leader as it was.** -/
theorem shipped_ok (junk : Nat → UInt8) {args : List ArrayArg} (hne : args ≠ [])
    (hargs : ∀ arg ∈ args, Matrix2d r c lb0 lb1 arg)
    (hsize : args.length * (r * c) ≤ MaxArraySize) :
    ∃ s, shipped junk args = .ok (some s) ∧ Frame r c lb0 lb1 args s ∧
      Sound junk (r * c) args ⟨s.nullbitmap, s.aitems⟩ := by
  obtain ⟨s, hrun, hframe, hsound, habytes, haitems, hbytes⟩ := accumulate_ok junk hne hargs
  obtain ⟨arg, hmem⟩ := List.exists_mem_of_ne_nil args hne
  have harg := hargs arg hmem
  -- all numbers of the state are of the order of its items
  have hmax : MaxArraySize = 2 ^ 27 - 1 := by decide
  have hone := harg.size
  have hlen : args.length ≤ args.length * (r * c) :=
    Nat.le_mul_of_pos_right _ (Nat.mul_pos harg.rows harg.columns)
  have hr : r ≤ r * c := Nat.le_mul_of_pos_right _ harg.columns
  have hc : c ≤ r * c := Nat.le_mul_of_pos_left _ harg.rows
  have hitems := hframe.nitems
  obtain ⟨⟨hlo0, hhi0⟩, hlo1, hhi1⟩ := harg.bounds
  have hback : arrayAggArrayDeserialize (arrayAggArraySerialize s) = .ok s := by
    have hbits : BitsOk ⟨s.nullbitmap, s.aitems⟩ s.nitems (bitAt (r * c) args) := by
      rw [hitems]
      exact hsound.bits
    refine deserialize_serialize hbits.shaped (by omega) (by omega) (by omega)
      (by omega) (by rw [hframe.ndims]; decide) (by rw [hframe.array_type]; decide)
      (by rw [hframe.element_type]; decide) ⟨by rw [hframe.dims]; rfl, ?_⟩
      ⟨by rw [hframe.lbs]; rfl, ?_⟩
    · rw [hframe.dims]
      intro d hd
      simp only [List.mem_cons, List.not_mem_nil, or_false] at hd
      omega
    · rw [hframe.lbs]
      intro d hd
      simp only [List.mem_cons, List.not_mem_nil, or_false] at hd
      omega
  refine ⟨s, ?_, hframe, hsound⟩
  unfold shipped
  exact bind_ok_iff.mpr ⟨some s, hrun, bind_ok_iff.mpr ⟨s, hback, rfl⟩⟩

/-! ## The final function -/

-- the bits of the result, of exactly the size its items need
def finalBits (s : BuildState) : Option (List UInt8) :=
  s.nullbitmap.map fun bits =>
    copyBits (List.replicate (bitmapSize s.nitems) 0) 0 (some bits) 0 s.nitems

theorem finalfn_eq {args : List ArrayArg} {s : BuildState} (h : Frame r c lb0 lb1 args s) :
    array2dAggFinalfn (some s) =
      (arrayGetNItems [(args.length : Int), (r : Int), (c : Int)]).map fun _ =>
        some { dims := [(args.length : Int) * r, (c : Int)], lbs := [1, 1]
               data := args.flatMap (·.data), nullbitmap := finalBits s } := by
  unfold array2dAggFinalfn makeAgg2dResultArr
  simp only [h.ndims, h.dims, h.data]
  show ((arrayGetNItems [(args.length : Int), (r : Int), (c : Int)] >>= _) >>= _) = _
  cases arrayGetNItems [(args.length : Int), (r : Int), (c : Int)] with
  | error e => rfl
  | ok n => rfl

theorem finalBits_of_sound {junk : Nat → UInt8} {args : List ArrayArg} {s : BuildState}
    (hframe : Frame r c lb0 lb1 args s)
    (h : Sound junk (r * c) args ⟨s.nullbitmap, s.aitems⟩) :
    finalBits s = if args.any ArrayArg.hasNulls then
      some (bitmapOf (args.length * (r * c)) (bitAt (r * c) args)) else none := by
  have hhas : s.nullbitmap.isSome = args.any ArrayArg.hasNulls := h.hasBits
  unfold finalBits
  rw [← hhas, hframe.nitems]
  cases hbits : s.nullbitmap with
  | none => rfl
  | some bits =>
    obtain ⟨-, -, -, hgood⟩ := h.bits.present bits hbits
    exact congrArg some (copyBits_eq_bitmapOf hgood)

/-! ## The leader -/

theorem copyState_of_shaped {s : BuildState} (h : NullBits.Shaped ⟨s.nullbitmap, s.aitems⟩) :
    copyState s = s := by
  have hbits : s.nullbitmap.map (·.take (bitmapSize s.aitems)) = s.nullbitmap := by
    cases hbits : s.nullbitmap with
    | none => rfl
    | some bits =>
      obtain ⟨hlen, -⟩ := h.present bits hbits
      rw [Option.map_some, List.take_of_length_le (by rw [hlen])]
  unfold copyState
  rw [hbits]

theorem combine_frame (junk : Nat → UInt8) {first second : List ArrayArg} {s1 s2 : BuildState}
    (h1 : Frame r c lb0 lb1 first s1) (h2 : Frame r c lb0 lb1 second s2)
    (hpos : 0 < second.length * (r * c)) :
    ∃ s, array2dAggCombine junk (some s1) (some s2) = .ok (some s) ∧
      Frame r c lb0 lb1 (first ++ second) s ∧
      (⟨s.nullbitmap, s.aitems⟩ : NullBits) =
        combineBitmap junk ⟨s1.nullbitmap, s1.aitems⟩ (first.length * (r * c))
          ⟨s2.nullbitmap, s2.aitems⟩ (second.length * (r * c)) := by
  have hsame : ¬ ∃ i < s1.ndims, 1 ≤ i ∧ (s1.dims.getD i 0 ≠ s2.dims.getD i 0 ∨
      s1.lbs.getD i 0 ≠ s2.lbs.getD i 0) := by
    rw [h1.ndims, h1.dims, h1.lbs, h2.dims, h2.lbs]
    rintro ⟨i, hi, hlow, hne⟩
    match i, hi with
    | 1, _ => simp at hne
    | 2, _ => simp at hne
  unfold array2dAggCombine combineStates
  simp only
  rw [if_pos (by rw [h2.nitems]; exact hpos), if_neg (by rw [h1.ndims, h2.ndims]; simp),
    if_neg hsame]
  refine ⟨_, rfl, ⟨?_, ?_, h1.ndims, ?_, h1.lbs, h1.array_type, h1.element_type⟩, ?_⟩
  · simp [h1.data, h2.data]
  · simp [h1.nitems, h2.nitems, Nat.add_mul]
  · simp [h1.dims, h2.dims]
  · rw [h1.nitems, h2.nitems]

theorem sound_combineBitmap {junk : Nat → UInt8} {n : Nat} (hn : 0 < n)
    {first second : List ArrayArg} {nulls nulls2 : NullBits} (h1 : Sound junk n first nulls)
    (h2 : Sound junk n second nulls2)
    (hgap : first.any ArrayArg.hasNulls → second.any ArrayArg.hasNulls) :
    Sound junk n (first ++ second)
      (combineBitmap junk nulls (first.length * n) nulls2 (second.length * n)) := by
  have hlen : (first ++ second).length * n = first.length * n + second.length * n := by
    rw [List.length_append, Nat.add_mul]
  have hbitmaps : nulls.nullbitmap.isSome → nulls2.nullbitmap.isSome := by
    rwa [h1.hasBits, h2.hasBits]
  refine ⟨?_, ?_, fun hjunk => ?_⟩
  · rw [hlen]
    exact (combineBitmap_ok junk h1.bits h2.bits hbitmaps).congr fun j _ =>
      (joinBits_bitAt hn first second j).symm
  · rw [isSome_combineBitmap, h1.hasBits, h2.hasBits, List.any_append]
  · subst hjunk
    rw [hlen]
    exact zeroTail_combineBitmap h1.bits (h1.tail rfl) hbitmaps

/-- No chunk without a bitmap comes after one with a bitmap. -/
def GapFree (chunks : List (List ArrayArg)) : Prop :=
  chunks.Pairwise fun earlier later =>
    earlier.any ArrayArg.hasNulls → later.any ArrayArg.hasNulls

instance (chunks : List (List ArrayArg)) : Decidable (GapFree chunks) :=
  inferInstanceAs (Decidable (List.Pairwise _ _))

theorem gapFree_append_singleton (chunks : List (List ArrayArg)) (chunk : List ArrayArg) :
    GapFree (chunks ++ [chunk]) ↔ GapFree chunks ∧
      (chunks.flatten.any ArrayArg.hasNulls → chunk.any ArrayArg.hasNulls) := by
  unfold GapFree
  rw [List.pairwise_append]
  constructor
  · rintro ⟨hpair, -, hlast⟩
    refine ⟨hpair, fun hany => ?_⟩
    obtain ⟨arg, harg, hnulls⟩ := List.any_eq_true.mp hany
    obtain ⟨earlier, hmem, hin⟩ := List.mem_flatten.mp harg
    exact hlast earlier hmem chunk (List.mem_singleton_self chunk)
      (List.any_eq_true.mpr ⟨arg, hin, hnulls⟩)
  · rintro ⟨hpair, hlast⟩
    refine ⟨hpair, List.pairwise_singleton .., fun earlier hmem later hlater hany => ?_⟩
    rw [List.mem_singleton.mp hlater]
    obtain ⟨arg, harg, hnulls⟩ := List.any_eq_true.mp hany
    exact hlast (List.any_eq_true.mpr ⟨arg, List.mem_flatten.mpr ⟨earlier, hmem, harg⟩, hnulls⟩)

/-- An item that is there, and whose bit is not set. -/
def Lost (n : Nat) (args : List ArrayArg) (nulls : NullBits) : Prop :=
  ∃ g < args.length * n, bitAt n args g = true ∧ Cleared nulls g

-- the leader's state after `chunks`: sound up to the first gap, and after it with an item lost
-- if the memory happened to be zero
def Combined (junk : Nat → UInt8) (r c : Nat) (lb0 lb1 : Int) (chunks : List (List ArrayArg)) :
    Option BuildState → Prop
  | none => chunks = []
  | some s => Frame r c lb0 lb1 chunks.flatten s ∧
      (GapFree chunks ∧ Sound junk (r * c) chunks.flatten ⟨s.nullbitmap, s.aitems⟩ ∨
        ¬ GapFree chunks ∧
          (junk = zeroes → Lost (r * c) chunks.flatten ⟨s.nullbitmap, s.aitems⟩))

theorem lost_append {n : Nat} (hn : 0 < n) {first second : List ArrayArg}
    {nulls nulls2 : NullBits} {m : Nat} (h : Lost n first nulls) :
    Lost n (first ++ second) (combineBitmap zeroes nulls (first.length * n) nulls2 m) := by
  obtain ⟨g, hg, hthere, hclear⟩ := h
  refine ⟨g, ?_, ?_, cleared_combineBitmap hclear hg⟩
  · rw [List.length_append, Nat.add_mul]
    omega
  · rw [← joinBits_bitAt hn, joinBits, if_pos hg]
    exact hthere

theorem lost_gap {n : Nat} (hn : 0 < n) {first second : List ArrayArg}
    {nulls nulls2 : NullBits} (h1 : Sound zeroes n first nulls) (h2 : Sound zeroes n second nulls2)
    (hne : second ≠ [])
    (hgap : ¬ (first.any ArrayArg.hasNulls → second.any ArrayArg.hasNulls)) :
    Lost n (first ++ second)
      (combineBitmap zeroes nulls (first.length * n) nulls2 (second.length * n)) := by
  rw [← h1.hasBits, ← h2.hasBits, Classical.not_imp] at hgap
  obtain ⟨hsome, hnone⟩ := hgap
  have hbits2 : nulls2.nullbitmap = none := by simpa using hnone
  have hpos : 0 < second.length * n := Nat.mul_pos (List.length_pos_of_ne_nil hne) hn
  refine ⟨first.length * n, ?_, ?_, cleared_gap h1.bits (h1.tail rfl) hsome hbits2⟩
  · rw [List.length_append, Nat.add_mul]
    omega
  · rw [← joinBits_bitAt hn, joinBits, if_neg (by omega), Nat.sub_self]
    exact (h2.bits.absent hbits2).2 0 hpos

/-- **One chunk more.** -/
theorem combine_step {junk : Nat → UInt8} {chunks : List (List ArrayArg)}
    {state : Option BuildState} {chunk : List ArrayArg}
    (h : Combined junk r c lb0 lb1 chunks state) (hne : chunk ≠ [])
    (hargs : ∀ arg ∈ chunk, Matrix2d r c lb0 lb1 arg)
    (hsize : chunk.length * (r * c) ≤ MaxArraySize) :
    ∃ state', (do
      let part ← shipped junk chunk
      array2dAggCombine junk state part) = .ok state' ∧
      Combined junk r c lb0 lb1 (chunks ++ [chunk]) state' := by
  obtain ⟨s2, hship, hframe2, hsound2⟩ := shipped_ok junk hne hargs hsize
  obtain ⟨arg, hmem⟩ := List.exists_mem_of_ne_nil chunk hne
  have hn : 0 < r * c := Nat.mul_pos (hargs arg hmem).rows (hargs arg hmem).columns
  have hpos : 0 < chunk.length * (r * c) := Nat.mul_pos (List.length_pos_of_ne_nil hne) hn
  have hflat : (chunks ++ [chunk]).flatten = chunks.flatten ++ chunk := by simp
  rw [hship]
  show ∃ state', array2dAggCombine junk state (some s2) = .ok state' ∧ _
  cases state with
  | none =>
    subst h
    refine ⟨some s2, ?_, ?_⟩
    · show Except.ok (some (copyState s2)) = _
      rw [copyState_of_shaped hsound2.bits.shaped]
    · exact ⟨by simpa using hframe2, Or.inl ⟨List.pairwise_singleton .., by simpa using hsound2⟩⟩
  | some s1 =>
    obtain ⟨hframe1, hbits⟩ := h
    obtain ⟨s, hrun, hframe, hnulls⟩ := combine_frame junk hframe1 hframe2 hpos
    refine ⟨some s, hrun, by rwa [hflat], ?_⟩
    rw [hflat, hnulls, gapFree_append_singleton]
    rcases hbits with ⟨hfree, hsound1⟩ | ⟨hgapped, hlost⟩
    · by_cases hgap : chunks.flatten.any ArrayArg.hasNulls → chunk.any ArrayArg.hasNulls
      · exact Or.inl ⟨⟨hfree, hgap⟩, sound_combineBitmap hn hsound1 hsound2 hgap⟩
      · -- the first gap
        refine Or.inr ⟨fun hboth => hgap hboth.2, fun hjunk => ?_⟩
        subst hjunk
        exact lost_gap hn hsound1 hsound2 hne hgap
    · -- there was a gap before
      refine Or.inr ⟨fun hboth => hgapped hboth.1, fun hjunk => ?_⟩
      subst hjunk
      exact lost_append hn (hlost rfl)

/-- **The whole run of the leader.** -/
theorem combined_run (junk : Nat → UInt8) {chunks : List (List ArrayArg)} (hne : chunks ≠ [])
    (hchunks : ∀ chunk ∈ chunks, chunk ≠ [])
    (hargs : ∀ arg ∈ chunks.flatten, Matrix2d r c lb0 lb1 arg)
    (hsize : chunks.flatten.length * (r * c) ≤ MaxArraySize) :
    ∃ s, aggregateInParallel junk chunks = array2dAggFinalfn (some s) ∧
      Combined junk r c lb0 lb1 chunks (some s) := by
  have hstep : ∀ read state chunk, chunk ∈ chunks → Combined junk r c lb0 lb1 read state →
      ∃ state', (do
        let part ← shipped junk chunk
        array2dAggCombine junk state part) = .ok state' ∧
        Combined junk r c lb0 lb1 (read ++ [chunk]) state' := by
    intro read state chunk hmem hread
    refine combine_step hread (hchunks chunk hmem)
      (fun arg harg => hargs arg (List.mem_flatten.mpr ⟨chunk, hmem, harg⟩)) ?_
    have hle : chunk.length ≤ chunks.flatten.length :=
      (List.sublist_flatten_of_mem hmem).length_le
    exact Nat.le_trans (Nat.mul_le_mul_right _ hle) hsize
  have hstart : Combined junk r c lb0 lb1 [] none := rfl
  obtain ⟨state, hrun, hend⟩ := foldlM_ok chunks hstep hstart
  cases state with
  | none => exact absurd (show chunks = [] from hend) hne
  | some s =>
    refine ⟨s, ?_, hend⟩
    unfold aggregateInParallel
    rw [hrun]
    rfl

/-! ## Serial against parallel -/

theorem getBit_finalBits {s : BuildState} {bits out : List UInt8} (hbits : s.nullbitmap = some bits)
    (hout : finalBits s = some out) {g : Nat} (hg : g < s.nitems) :
    getBit out g = getBit bits g := by
  unfold finalBits at hout
  rw [hbits, Option.map_some, Option.some.injEq] at hout
  rw [← hout, getBit_copyBits, if_pos ⟨by omega, by
    rw [List.length_replicate]
    exact lt_bitmapSize hg⟩]
  simp

-- a lost item shows in the result
theorem finalBits_ne_of_lost {junk : Nat → UInt8} {args : List ArrayArg} {s s0 : BuildState}
    (hframe : Frame r c lb0 lb1 args s) (hframe0 : Frame r c lb0 lb1 args s0)
    (hlost : Lost (r * c) args ⟨s.nullbitmap, s.aitems⟩)
    (hsound : Sound junk (r * c) args ⟨s0.nullbitmap, s0.aitems⟩) :
    finalBits s ≠ finalBits s0 := by
  obtain ⟨g, hg, hthere, bits, hbits, -, hclear⟩ := hlost
  intro heq
  obtain ⟨out, hsome⟩ : ∃ out, finalBits s = some out := by
    unfold finalBits
    rw [show s.nullbitmap = some bits from hbits]
    exact ⟨_, rfl⟩
  cases hbits0 : s0.nullbitmap with
  | none =>
    rw [heq, finalBits, hbits0] at hsome
    cases hsome
  | some bits0 =>
    obtain ⟨-, -, -, hgood⟩ := hsound.bits.present bits0 hbits0
    have h1 := getBit_finalBits hbits hsome (by rw [hframe.nitems]; exact hg)
    have h0 := getBit_finalBits hbits0 (heq ▸ hsome) (by rw [hframe0.nitems]; exact hg)
    rw [h1, hclear, hgood g hg, hthere] at h0
    cases h0

/-- **Parallel aggregation gives the serial result exactly when no chunk without a bitmap comes
after one with a bitmap.** `out` is the serial result; where it does not exist the arrays are too
large for one. -/
theorem aggregateInParallel_eq_iff {chunks : List (List ArrayArg)} {junk0 : Nat → UInt8}
    {out : Option ArrayArg} (hne : chunks ≠ []) (hchunks : ∀ chunk ∈ chunks, chunk ≠ [])
    (hargs : ∀ arg ∈ chunks.flatten, Matrix2d r c lb0 lb1 arg)
    (hserial : aggregateSerially junk0 chunks.flatten = .ok out) :
    (∀ junk, aggregateInParallel junk chunks = .ok out) ↔ GapFree chunks := by
  have hflat : chunks.flatten ≠ [] := by
    obtain ⟨chunk, hmem⟩ := List.exists_mem_of_ne_nil chunks hne
    obtain ⟨arg, harg⟩ := List.exists_mem_of_ne_nil chunk (hchunks chunk hmem)
    exact List.ne_nil_of_mem (List.mem_flatten.mpr ⟨chunk, hmem, harg⟩)
  obtain ⟨s0, hrun0, hframe0, hsound0, -⟩ := accumulate_ok junk0 hflat hargs
  have hfinal0 : array2dAggFinalfn (some s0) = .ok out := by
    rw [← hserial, aggregateSerially, hrun0]
    rfl
  -- the final function has checked the size
  obtain ⟨n, hn⟩ : ∃ n, arrayGetNItems [(chunks.flatten.length : Int), (r : Int), (c : Int)] = .ok n := by
    rw [finalfn_eq hframe0] at hfinal0
    cases hget : arrayGetNItems [(chunks.flatten.length : Int), (r : Int), (c : Int)] with
    | error e => rw [hget] at hfinal0; cases hfinal0
    | ok n => exact ⟨n, rfl⟩
  have hsize : chunks.flatten.length * (r * c) ≤ MaxArraySize := by
    have hle := le_of_arrayGetNItems hn
    rw [nitems_of_arrayGetNItems hn, nitems_three] at hle
    exact hle
  -- and a state of the leader finishes with `out` if and only if its bits are the serial ones
  have hcompare : ∀ s, Frame r c lb0 lb1 chunks.flatten s →
      (array2dAggFinalfn (some s) = .ok out ↔ finalBits s = finalBits s0) := by
    intro s hframe
    rw [← hfinal0, finalfn_eq hframe, finalfn_eq hframe0, hn]
    simp [Except.map]
  constructor
  · intro hpar
    by_contra hgap
    obtain ⟨s, hrun, hframe, hbits⟩ := combined_run zeroes hne hchunks hargs hsize
    rcases hbits with ⟨hfree, -⟩ | ⟨-, hlost⟩
    · exact hgap hfree
    · refine finalBits_ne_of_lost hframe hframe0 (hlost rfl) hsound0 ?_
      rw [← hcompare s hframe, ← hrun]
      exact hpar zeroes
  · intro hfree junk
    obtain ⟨s, hrun, hframe, hbits⟩ := combined_run junk hne hchunks hargs hsize
    rcases hbits with ⟨-, hsound⟩ | ⟨hgap, -⟩
    · rw [hrun, hcompare s hframe, finalBits_of_sound hframe hsound,
        finalBits_of_sound hframe0 hsound0]
    · exact absurd hfree hgap

end Aggregate

-- one row with the items 1.0 and 2.0, and one whose first item is NULL
def fullRow : ArrayArg where
  dims := [1, 2]
  lbs := [1, 1]
  data := [0, 0, 128, 63, 0, 0, 0, 64]
  nullbitmap := none

def nullRow : ArrayArg where
  dims := [1, 2]
  lbs := [1, 1]
  data := [0, 0, 0, 64]
  nullbitmap := some [2]

def twoRows : ArrayArg where
  dims := [2, 2]
  lbs := [1, 1]
  data := [0, 0, 128, 63, 0, 0, 0, 64, 0, 0, 0, 64]
  nullbitmap := some [11]

theorem parallel_nullsLast : GapFree [[fullRow], [nullRow]] ∧
    ∀ junk, aggregateInParallel junk [[fullRow], [nullRow]] = .ok (some twoRows) := by
  have hargs : ∀ arg ∈ [[fullRow], [nullRow]].flatten, Matrix2d 1 2 1 1 arg := by
    intro arg harg
    simp only [List.flatten_cons, List.flatten_nil, List.append_nil, List.singleton_append,
      List.mem_cons, List.not_mem_nil, or_false] at harg
    rcases harg with rfl | rfl
    · exact ⟨rfl, rfl, by decide, by decide, by decide, by decide, by decide⟩
    · exact ⟨rfl, rfl, by decide, by decide, by decide, by decide, by decide⟩
  have hserial : aggregateSerially zeroes [[fullRow], [nullRow]].flatten = .ok (some twoRows) := by
    decide
  have hfree : GapFree [[fullRow], [nullRow]] := by decide
  exact ⟨hfree, (aggregateInParallel_eq_iff (by simp) (by simp) hargs hserial).mpr hfree⟩

/-- A worker with NULLs followed by one without: where the memory was zero, the second worker's
items come out as NULL. -/
theorem parallel_nullsFirst :
    aggregateSerially zeroes [nullRow, fullRow] ≠
      aggregateInParallel zeroes [[nullRow], [fullRow]] := by
  decide +kernel

end Peps.Agg
