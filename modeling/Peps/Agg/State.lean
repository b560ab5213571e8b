import Peps.Lib.Bitmap
import Peps.Lib.Cells
import Peps.Lib.Wire
import Peps.Pg.ArrayType

/-!
# `array_2d_agg` — the build state of the array aggregate

The aggregate collects 2-D arrays into one array with more rows. Its transition function is
PostgreSQL's `accumArrayResultArr`; a parallel plan ships each worker's state through
`array_agg_array_serialize` / `_deserialize`, joins the states with `array_2d_agg_combine` and
finishes with `array_2d_agg_finalfn`.

A state holds the data bytes appended so far, a null bitmap that exists from the first input
with NULLs on, and the capacities `abytes` and `aitems` of the two buffers. `nbytes` is the
length of `data`: bytes behind it are never read. What fresh memory holds is the parameter
`junk`; `palloc` itself does not fail here, since a result that fits `MaxArraySize` never asks
for more than `MaxAllocSize`.
-/

namespace Peps.Agg

open Lib

/-- An array argument with its elements as the bytes they are. -/
structure ArrayArg where
  dims : List Int
  lbs : List Int
  data : List UInt8
  nullbitmap : Option (List UInt8)
deriving DecidableEq

/-- `ArrayBuildStateArr`, without its memory contexts. -/
structure BuildState where
  data : List UInt8
  nullbitmap : Option (List UInt8)
  abytes : Nat
  aitems : Nat
  nitems : Nat
  ndims : Nat
  dims : List Int
  lbs : List Int
  array_type : Nat
  element_type : Nat
deriving DecidableEq

/-- `pg_nextpower2_32`. -/
def nextPower2 (n : Nat) : Nat := if 2 ^ n.log2 = n then n else 2 ^ (n.log2 + 1)

/-- `(n + 7) / 8`, the bytes `n` bits take. -/
def bitmapSize (n : Nat) : Nat := (n + 7) / 8

section Memory

variable (junk : Nat → UInt8)

def palloc (n : Nat) : List UInt8 := (List.range n).map junk

-- the old content up to the new size, and junk behind it
def repalloc (old : List UInt8) (n : Nat) : List UInt8 :=
  old.take n ++ (List.range (n - old.length)).map fun i => junk (old.length + i)

end Memory

/-- `initArrayResultArr`: all fields zero but the types. -/
def initArrayResultArr (array_type element_type : Nat) : BuildState where
  data := []
  nullbitmap := none
  abytes := 0
  aitems := 0
  nitems := 0
  ndims := 0
  dims := List.replicate MAXDIM 0
  lbs := List.replicate MAXDIM 0
  array_type := array_type
  element_type := element_type

/-! ## The transition function -/

def dimensionalityError : PgError :=
  .report "cannot accumulate arrays of different dimensionality" [] []

/-- The first input fixes the dimensionality. -/
def accumFirst (s : BuildState) (arg : ArrayArg) : Except PgError BuildState :=
  if arg.dims.length = 0 then .error (.report "cannot accumulate empty arrays" [] [])
  else if MAXDIM < arg.dims.length + 1 then
    .error (.report "number of array dimensions (%d) exceeds the maximum allowed (%d)" []
      [arg.dims.length + 1, MAXDIM])
  else
    .ok { s with
      ndims := arg.dims.length + 1
      dims := writeAt (s.dims.set 0 0) 1 arg.dims
      lbs := writeAt (s.lbs.set 0 1) 1 arg.lbs
      abytes := nextPower2 (max 1024 (arg.data.length + 1)) }

/-- A later input must match it; the data buffer grows when it has to. -/
def accumLater (s : BuildState) (arg : ArrayArg) : Except PgError BuildState :=
  if s.ndims ≠ arg.dims.length + 1 then .error dimensionalityError
  else if ∃ i < arg.dims.length,
      s.dims.getD (i + 1) 0 ≠ arg.dims.getD i 0 ∨ s.lbs.getD (i + 1) 0 ≠ arg.lbs.getD i 0 then
    .error dimensionalityError
  else if s.abytes < s.data.length + arg.data.length then
    .ok { s with abytes := max (s.abytes * 2) (s.data.length + arg.data.length) }
  else .ok s

/-- A null bitmap with its capacity: the fields `nullbitmap` and `aitems`. -/
structure NullBits where
  nullbitmap : Option (List UInt8)
  aitems : Nat

/-- The bitmap of the state is needed from the first input with NULLs on. -/
def accumBitmap (junk : Nat → UInt8) (old : NullBits) (oldItems : Nat)
    (arg : Option (List UInt8)) (nitems : Nat) : NullBits :=
  match old.nullbitmap with
  | none =>
    match arg with
    | none => old
    | some argBits =>
        let aitems := nextPower2 (max 256 (oldItems + nitems + 1))
        -- all earlier items are marked as not null
        let bits := copyBits (palloc junk (bitmapSize aitems)) 0 none 0 oldItems
        ⟨some (copyBits bits oldItems (some argBits) 0 nitems), aitems⟩
  | some bits =>
      if old.aitems < oldItems + nitems then
        let aitems := max (old.aitems * 2) (oldItems + nitems)
        ⟨some (copyBits (repalloc junk bits (bitmapSize aitems)) oldItems arg 0 nitems), aitems⟩
      else ⟨some (copyBits bits oldItems arg 0 nitems), old.aitems⟩

-- the data and the bits of the input, behind those of the state
def appendArray (junk : Nat → UInt8) (s : BuildState) (arg : ArrayArg) (nitems : Nat) :
    BuildState :=
  let nulls := accumBitmap junk ⟨s.nullbitmap, s.aitems⟩ s.nitems arg.nullbitmap nitems
  { s with
    data := s.data ++ arg.data
    nullbitmap := nulls.nullbitmap
    aitems := nulls.aitems
    nitems := s.nitems + nitems
    dims := s.dims.set 0 (s.dims.getD 0 0 + 1) }

/-- `accumArrayResultArr`. -/
def accumArrayResultArr (junk : Nat → UInt8) (s : BuildState) (arg : Option ArrayArg) :
    Except PgError BuildState :=
  match arg with
  | none => .error (.report "cannot accumulate null arrays" [] [])
  | some arg => do
      let nitems ← arrayGetNItems arg.dims
      let s ← (if s.ndims = 0 then accumFirst s arg else accumLater s arg)
      .ok (appendArray junk s arg nitems)

/-- `array_2d_agg_transfn`, called with arrays of type `real[]`. -/
def array2dAggTransfn (junk : Nat → UInt8) (state : Option BuildState) (arg : Option ArrayArg) :
    Except PgError BuildState :=
  accumArrayResultArr junk
    (state.getD (initArrayResultArr FLOAT4ARRAYOID FLOAT4OID)) arg

/-! ## `array_2d_agg_combine` -/

/-- The bitmap part of a combination. Only a second state *with* a bitmap is looked at: if the
first state has one and the second has none, the bits of the second state's items stay as the
memory was. -/
def combineBitmap (junk : Nat → UInt8) (nulls1 : NullBits) (nitems1 : Nat) (nulls2 : NullBits)
    (nitems2 : Nat) : NullBits :=
  match nulls2.nullbitmap with
  | none => nulls1
  | some bits2 =>
    match nulls1.nullbitmap with
    | none =>
        let aitems := nextPower2 (max 256 (nitems1 + nitems2 + 1))
        let bits := copyBits (palloc junk (bitmapSize aitems)) 0 none 0 nitems1
        ⟨some (copyBits bits nitems1 (some bits2) 0 nitems2), aitems⟩
    | some bits1 =>
        if nulls1.aitems < nitems1 + nitems2 then
          let aitems := nextPower2 (nulls1.aitems + nulls2.aitems)
          ⟨some (copyBits (repalloc junk bits1 (bitmapSize aitems)) nitems1 (some bits2) 0 nitems2),
            aitems⟩
        else ⟨some (copyBits bits1 nitems1 (some bits2) 0 nitems2), nulls1.aitems⟩

/-- Two states that both have items. -/
def combineStates (junk : Nat → UInt8) (state1 state2 : BuildState) :
    Except PgError BuildState :=
  let reqsize := state1.data.length + state2.data.length
  if state1.ndims ≠ state2.ndims then .error dimensionalityError
  else if ∃ i < state1.ndims, 1 ≤ i ∧ (state1.dims.getD i 0 ≠ state2.dims.getD i 0 ∨
      state1.lbs.getD i 0 ≠ state2.lbs.getD i 0) then
    .error dimensionalityError
  else
    let nulls := combineBitmap junk ⟨state1.nullbitmap, state1.aitems⟩ state1.nitems
      ⟨state2.nullbitmap, state2.aitems⟩ state2.nitems
    .ok { state1 with
      abytes := if state1.abytes < reqsize then nextPower2 reqsize else state1.abytes
      data := state1.data ++ state2.data
      nullbitmap := nulls.nullbitmap
      aitems := nulls.aitems
      nitems := state1.nitems + state2.nitems
      dims := state1.dims.set 0 (state1.dims.getD 0 0 + state2.dims.getD 0 0) }

/-- The copy of the second state into the aggregate's memory. -/
def copyState (state2 : BuildState) : BuildState :=
  { state2 with nullbitmap := state2.nullbitmap.map (·.take (bitmapSize state2.aitems)) }

/-- `array_2d_agg_combine`. -/
def array2dAggCombine (junk : Nat → UInt8) (state1 state2 : Option BuildState) :
    Except PgError (Option BuildState) :=
  match state1, state2 with
  | state1, none => .ok state1
  | none, some s2 => .ok (some (copyState s2))
  | some s1, some s2 =>
      if 0 < s2.nitems then do
        let s ← combineStates junk s1 s2
        .ok (some s)
      else .ok (some s1)

/-! ## `array_2d_agg_finalfn` -/

/-- `makeAgg2dResultArr`: the rows of all inputs under each other. -/
def makeAgg2dResultArr (s : BuildState) : Except PgError ArrayArg :=
  if s.ndims = 0 then .ok { dims := [], lbs := [], data := [], nullbitmap := none }
  else do
    let _ ← arrayGetNItems (s.dims.take s.ndims)
    .ok { dims := [s.dims.getD 0 0 * s.dims.getD 1 0, s.dims.getD 2 0].take (s.ndims - 1)
          lbs := [1, 1].take (s.ndims - 1)
          data := s.data
          nullbitmap := s.nullbitmap.map fun bits =>
            copyBits (List.replicate (bitmapSize s.nitems) 0) 0 (some bits) 0 s.nitems }

/-- `array_2d_agg_finalfn`. -/
def array2dAggFinalfn (state : Option BuildState) : Except PgError (Option ArrayArg) :=
  match state with
  | none => .ok none
  | some s => do
      let result ← makeAgg2dResultArr s
      .ok (some result)

/-! ## The wire format -/

/-- `array_agg_array_serialize`. -/
def arrayAggArraySerialize (s : BuildState) : List UInt8 :=
  beBytes 4 s.element_type ++ (beBytes 4 s.array_type ++ (beBytes 4 s.data.length ++ (s.data ++
    (beBytes 4 s.abytes ++ (beBytes 4 s.aitems ++
      (s.nullbitmap.elim [] (·.take (bitmapSize s.aitems)) ++
        (beBytes 4 s.nitems ++ (beBytes 4 s.ndims ++
          (wordsBytes s.dims ++ wordsBytes s.lbs)))))))))

def shortMessage : PgError := .report "insufficient data left in message" [] []

/-- `pq_getmsgint(buf, 4)`. -/
def getmsgint (buf : List UInt8) : Except PgError (Nat × List UInt8) := do
  let (field, rest) ← getBytes shortMessage 4 buf
  .ok (beValue field, rest)

/-- `array_agg_array_deserialize`. -/
def arrayAggArrayDeserialize (buf : List UInt8) : Except PgError BuildState := do
  let (element_type, buf) ← getmsgint buf
  let (array_type, buf) ← getmsgint buf
  let (nbytes, buf) ← getmsgint buf
  let (data, buf) ← getBytes shortMessage nbytes buf
  let (abytes, buf) ← getmsgint buf
  let (aitems, buf) ← getmsgint buf
  -- a bitmap follows exactly when there is room for one
  let (bits, buf) ← getBytes shortMessage (bitmapSize aitems) buf
  let (nitems, buf) ← getmsgint buf
  let (ndims, buf) ← getmsgint buf
  let (dims, buf) ← getBytes shortMessage (4 * MAXDIM) buf
  let (lbs, buf) ← getBytes shortMessage (4 * MAXDIM) buf
  if buf ≠ [] then .error (.report "invalid message format" [] [])
  else
    .ok { data, abytes, aitems, nitems, ndims, array_type, element_type
          nullbitmap := if 0 < aitems then some bits else none
          dims := wordsValue MAXDIM dims
          lbs := wordsValue MAXDIM lbs }

/-! ## The two ways to aggregate -/

/-- One worker: the transition function over its inputs. -/
def accumulate (junk : Nat → UInt8) (args : List ArrayArg) :
    Except PgError (Option BuildState) :=
  args.foldlM (fun state arg => do
    let s ← array2dAggTransfn junk state (some arg)
    .ok (some s)) none

/-- A worker's state as the leader receives it. -/
def shipped (junk : Nat → UInt8) (args : List ArrayArg) :
    Except PgError (Option BuildState) := do
  let state ← accumulate junk args
  match state with
  | none => .ok none
  | some s => do
      let s ← arrayAggArrayDeserialize (arrayAggArraySerialize s)
      .ok (some s)

/-- All inputs in one process. -/
def aggregateSerially (junk : Nat → UInt8) (args : List ArrayArg) :
    Except PgError (Option ArrayArg) := do
  let state ← accumulate junk args
  array2dAggFinalfn state

/-- One chunk of the inputs for each worker, their states combined from left to right. -/
def aggregateInParallel (junk : Nat → UInt8) (chunks : List (List ArrayArg)) :
    Except PgError (Option ArrayArg) := do
  let state ← chunks.foldlM (fun state chunk => do
    let part ← shipped junk chunk
    array2dAggCombine junk state part) none
  array2dAggFinalfn state

end Peps.Agg
