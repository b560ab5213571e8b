import Mathlib.Logic.Function.Basic
import Peps.Lib.Cells
import Peps.Pg.ArrayType

/-!
# `model_buffer.c` — the weight pool

The pool is a `dynahash` table under `string_hash`: a key is compared and stored on its first
`NAMEDATALEN - 1` bytes (`poolKey`), so the table is a partial map on truncated names. Text
values hold no NUL byte, so `strncmp` on them is equality of the truncations.

A `WeightEntry` has room for `MAX_DIMS` dimensions. `insert_weight` copies `ndims` of them
without a check: a fifth lands on `element_type`, which is stored right after it, and a sixth
on the first word behind the structure. The three fields are therefore one run of words here
(`words`), as they are in memory. What the sixth word belonged to is not followed.
-/

namespace Peps

open Lib

def NAMEDATALEN : Nat := 64
def MAX_DIMS : Nat := 4
def LRU_CACHE_SIZE : Nat := 128 * 1024 * 1024
def POOL_SIZE : Nat := 1024 * 1024 * 1024

/-- What `string_hash` and `string_compare` see of a name. -/
def poolKey (name : Bytes) : Bytes := name.take (NAMEDATALEN - 1)

/-- The two arrays of a weight table. -/
inductive Part where
  | val | bias
deriving DecidableEq

/-- What `psprintf` appends to the table name to get the pool name of the array. -/
def Part.suffix : Part → Bytes
  | .val => ascii "_val"
  | .bias => ascii "_bias"

structure WeightEntry (α : Type) where
  name : Bytes
  data : List α
  data_size : Nat
  ndims : Nat
  /-- `dims[0..3]`, `element_type`, and the word behind the entry. -/
  words : List Int
  hwords : words.length = MAX_DIMS + 2

namespace WeightEntry

variable {α : Type}

/-- `entry->dims[i]`. -/
def dimWord (e : WeightEntry α) (i : Nat) : Int := e.words.getD i 0

/-- The `ndims` words a reader of `entry->dims` finds. -/
def dims (e : WeightEntry α) : List Int := e.words.take e.ndims

/-- `entry->element_type`. -/
def element_type (e : WeightEntry α) : Int := e.dimWord MAX_DIMS

end WeightEntry

structure WeightPool (α : Type) where
  entries : Bytes → Option (WeightEntry α)
  current_memory_usage : Nat

namespace WeightPool

variable {α : Type}

/-- `create_weight_pool`. -/
def create : WeightPool α := { entries := fun _ => none, current_memory_usage := LRU_CACHE_SIZE }

/-- `get_weight`. -/
def getWeight (pool : WeightPool α) (name : Bytes) : Option (WeightEntry α) :=
  pool.entries (poolKey name)

/-- The words of an entry before `insert_weight` fills it in: those of the entry found, or
the unset ones of a new table element. -/
def oldWords (pool : WeightPool α) (name : Bytes) : List Int :=
  match pool.getWeight name with
  | some entry => entry.words
  | none => List.replicate (MAX_DIMS + 2) 0

theorem length_oldWords (pool : WeightPool α) (name : Bytes) :
    (pool.oldWords name).length = MAX_DIMS + 2 := by
  unfold oldWords
  split
  · next entry _ => exact entry.hwords
  · simp

/-- `insert_weight`, with `data_size` bytes given as the float4 values they are. -/
def insertWeight (pool : WeightPool α) (name : Bytes) (data : List α) (data_size : Nat)
    (dims : List Int) (element_type : Int) : Except PgError (WeightPool α) :=
  if POOL_SIZE < pool.current_memory_usage + data_size then
    .error (.report "weight pool memory limit exceeded" [] [])
  else
    let released := (pool.getWeight name).elim 0 WeightEntry.data_size
    let entry : WeightEntry α :=
      { name := poolKey name
        data := data
        data_size := data_size
        ndims := dims.length
        words := (writeAt (pool.oldWords name) 0 dims).set MAX_DIMS element_type
        hwords := by rw [List.length_set, length_writeAt, length_oldWords] }
    .ok { entries := Function.update pool.entries (poolKey name) (some entry)
          current_memory_usage := pool.current_memory_usage - released + data_size }

/-! ## What an insertion does -/

/-- The entry under `name` is the array: its elements, its rank and its dimensions. -/
def Holds (pool : WeightPool α) (name : Bytes) (a : ArrayType α) : Prop :=
  ∃ e, pool.getWeight name = some e ∧ e.data = a.data ∧ e.ndims = a.ndim ∧ e.dims = a.dims

section Insert

variable {pool pool' : WeightPool α} {name : Bytes} {data : List α} {data_size : Nat}
  {dims : List Int} {element_type : Int}

/-- Names with another truncation keep their entry. -/
theorem insertWeight_frame {other : Bytes} (hne : poolKey other ≠ poolKey name)
    (h : pool.insertWeight name data data_size dims element_type = .ok pool') :
    pool'.getWeight other = pool.getWeight other := by
  simp only [insertWeight, guard_ok_iff, Except.ok.injEq] at h
  obtain ⟨-, rfl⟩ := h
  exact Function.update_of_ne hne _ _

/-- The stored dimensions are the given ones as long as they fit. -/
theorem take_writeAt_words {words : List Int} (hlen : words.length = MAX_DIMS + 2)
    (hfit : dims.length ≤ MAX_DIMS) :
    ((writeAt words 0 dims).set MAX_DIMS element_type).take dims.length = dims := by
  refine List.ext_getElem? fun i => ?_
  rcases Nat.lt_or_ge i dims.length with hi | hi
  · rw [List.getElem?_take_of_lt hi, List.getElem?_set_ne (by omega)]
    have hmid : (writeAt words 0 dims)[0 + i]? = dims[i]? :=
      getElem?_writeAt_mid words dims hi (by omega)
    rwa [Nat.zero_add] at hmid
  · rw [List.getElem?_eq_none hi, List.getElem?_eq_none (by simp; omega)]

theorem insertWeight_self (hfit : dims.length ≤ MAX_DIMS)
    (h : pool.insertWeight name data data_size dims element_type = .ok pool') :
    ∃ e, pool'.getWeight name = some e ∧ e.data = data ∧ e.ndims = dims.length ∧
      e.dims = dims := by
  simp only [insertWeight, guard_ok_iff, Except.ok.injEq] at h
  obtain ⟨-, rfl⟩ := h
  refine ⟨_, Function.update_self .., rfl, rfl, ?_⟩
  exact take_writeAt_words (pool.length_oldWords name) hfit

/-- An insertion within the limit succeeds. -/
theorem insertWeight_of_le (h : pool.current_memory_usage + data_size ≤ POOL_SIZE) :
    ∃ pool', pool.insertWeight name data data_size dims element_type = .ok pool' ∧
      pool'.current_memory_usage ≤ pool.current_memory_usage + data_size := by
  unfold insertWeight
  rw [if_neg (Nat.not_lt.mpr h)]
  exact ⟨_, rfl, Nat.add_le_add_right (Nat.sub_le _ _) _⟩

end Insert

theorem Holds.data_eq {pool : WeightPool α} {name : Bytes} {a b : ArrayType α}
    (ha : pool.Holds name a) (hb : pool.Holds name b) : a.data = b.data := by
  obtain ⟨e, hget, hdata, -⟩ := ha
  obtain ⟨e', hget', hdata', -⟩ := hb
  obtain rfl : e = e' := Option.some.inj (hget.symm.trans hget')
  exact hdata.symm.trans hdata'

theorem Holds.dims_eq {pool : WeightPool α} {name : Bytes} {a b : ArrayType α}
    (ha : pool.Holds name a) (hb : pool.Holds name b) : a.dims = b.dims := by
  obtain ⟨e, hget, -, -, hdims⟩ := ha
  obtain ⟨e', hget', -, -, hdims'⟩ := hb
  obtain rfl : e = e' := Option.some.inj (hget.symm.trans hget')
  exact hdims.symm.trans hdims'

end WeightPool

end Peps
