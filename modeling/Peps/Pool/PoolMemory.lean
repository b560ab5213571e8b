import Mathlib.Data.Option.Basic
import Peps.Lib.Tally
import Peps.Pool.WeightPool

/-!
# `insert_weight` and its `palloc`

`WeightPool` has an insertion as one step. Here it is taken apart at the `palloc` that stands in it.
When `palloc` is called, the entry is in the table, its old buffer is freed and its size is off
`current_memory_usage`; `palloc` raises by a jump out of the function that puts nothing of this back,
and the pool is not part of the transaction that is aborted. So the function returns the pool
together with its result here, also when it raises.

As long as every `palloc` is served, `current_memory_usage` is what the entries take up
(`usage_of_reached`), and the pool is the one of `WeightPool` (`insertWeight_shows`). A `palloc` that
is not served never leaves the pool as it was (`insertWeight_undone_iff`).
-/

namespace Peps

open Lib

/-! ## The function -/

/-- `Size` has 64 bits. -/
def SIZE_RANGE : Nat := 2 ^ 64

/-- What `entry->data` is. -/
inductive Buffer (α : Type) where
  | null
  | live (data : List α)
  | freed
  | unset

/-- `if (entry->data)`. -/
def Buffer.isNull {α : Type} : Buffer α → Bool
  | .null => true
  | _ => false

/-- A `WeightEntry` of the table; `words` as in `WeightPool`. -/
structure MemEntry (α : Type) where
  name : Bytes
  data : Buffer α
  data_size : Nat
  ndims : Nat
  words : List Int
  hwords : words.length = MAX_DIMS + 2

structure MemPool (α : Type) where
  entries : Bytes → Option (MemEntry α)
  current_memory_usage : Nat

/-- The arguments of `insert_weight`. -/
structure Insertion (α : Type) where
  name : Bytes
  data : List α
  data_size : Nat
  dims : List Int
  element_type : Int

/-- The memory as a call finds it: which requests are served, and what is left over in the memory of
a new table element. -/
structure Memory (α : Type) where
  grants : Nat → Bool
  element : MemEntry α

/-- `palloc`. -/
def Memory.palloc {α : Type} (mem : Memory α) (size : Nat) : Except PgError Unit :=
  if MaxAllocSize < size then .error (.report "invalid memory alloc request size %zu" [] [size])
  else if mem.grants size then .ok ()
  else .error (.report "out of memory" [] [])

namespace MemEntry

variable {α : Type}

/-- The `ndims` words a reader of `entry->dims` finds. -/
def dims (e : MemEntry α) : List Int := e.words.take e.ndims

/-- The entry once `palloc` has returned. -/
def fill (e : MemEntry α) (c : Insertion α) : MemEntry α where
  name := e.name
  data := .live c.data
  data_size := c.data_size
  ndims := c.dims.length
  words := (writeAt e.words 0 c.dims).set MAX_DIMS c.element_type
  hwords := by rw [List.length_set, length_writeAt, e.hwords]

end MemEntry

namespace MemPool

variable {α : Type}

def create : MemPool α := { entries := fun _ => none, current_memory_usage := LRU_CACHE_SIZE }

/-- What `get_weight` shows: the data and the dimensions. -/
def answer (pool : MemPool α) (name : Bytes) : Option (Buffer α × List Int) :=
  (pool.entries (poolKey name)).map fun e => (e.data, e.dims)

/-- The test at the beginning of `insert_weight`. -/
def Refuses (pool : MemPool α) (c : Insertion α) : Prop :=
  POOL_SIZE < (pool.current_memory_usage + c.data_size) % SIZE_RANGE

instance (pool : MemPool α) (c : Insertion α) : Decidable (pool.Refuses c) := by
  unfold Refuses
  infer_instance

/-- The entry `hash_search` enters, at the time of the `palloc`: an old one without its buffer, or a
new one of which only the name is set. -/
def entered (pool : MemPool α) (mem : Memory α) (c : Insertion α) : MemEntry α :=
  match pool.entries (poolKey c.name) with
  | some e => { e with name := poolKey c.name, data := if e.data.isNull then .null else .freed }
  | none => { mem.element with name := poolKey c.name, data := .unset }

/-- `current_memory_usage` at the time of the `palloc`. -/
def usageEntered (pool : MemPool α) (c : Insertion α) : Nat :=
  match pool.entries (poolKey c.name) with
  | some e =>
    if e.data.isNull then pool.current_memory_usage
    else (pool.current_memory_usage + (SIZE_RANGE - e.data_size % SIZE_RANGE)) % SIZE_RANGE
  | none => pool.current_memory_usage

def put (pool : MemPool α) (key : Bytes) (e : MemEntry α) (usage : Nat) : MemPool α where
  entries := Function.update pool.entries key (some e)
  current_memory_usage := usage

@[simp] theorem entries_put_self (pool : MemPool α) (key : Bytes) (e : MemEntry α) (usage : Nat) :
    (pool.put key e usage).entries key = some e := by
  simp [put]

theorem entries_put_of_ne (pool : MemPool α) {key other : Bytes} (h : other ≠ key) (e : MemEntry α)
    (usage : Nat) : (pool.put key e usage).entries other = pool.entries other := by
  simp [put, h]

/-- `insert_weight`: how it ends, and the pool it leaves. -/
def insertWeight (pool : MemPool α) (mem : Memory α) (c : Insertion α) :
    Except PgError Unit × MemPool α :=
  if pool.Refuses c then (.error (.report "weight pool memory limit exceeded" [] []), pool)
  else
    let entry := pool.entered mem c
    let usage := pool.usageEntered c
    match mem.palloc c.data_size with
    | .error e => (.error e, pool.put (poolKey c.name) entry usage)
    | .ok () => (.ok (), pool.put (poolKey c.name) (entry.fill c)
        ((usage + c.data_size) % SIZE_RANGE))

/-! ## The accounting -/

/-- `current_memory_usage` is the cache's share and the sizes of the entries. -/
def Accounted (pool : MemPool α) : Prop :=
  ∃ total, Tally MemEntry.data_size pool.entries total ∧
    pool.current_memory_usage = LRU_CACHE_SIZE + total

/-- Every entry has its buffer. -/
def AllLive (pool : MemPool α) : Prop :=
  ∀ key e, pool.entries key = some e → ∃ data, e.data = .live data

/-- The call gets through to its end, or is refused at its beginning. -/
def Served (pool : MemPool α) (mem : Memory α) (c : Insertion α) : Prop :=
  pool.Refuses c ∨ mem.palloc c.data_size = .ok ()

/-- The pools that calls of `insert_weight` lead to, with every allocation served. The sizes may be
any numbers; those of the source are item counts times four. -/
inductive Reached : MemPool α → Prop where
  | create : Reached create
  | insert {pool : MemPool α} (h : Reached pool) (mem : Memory α) (c : Insertion α)
      (hserved : pool.Served mem c) : Reached (pool.insertWeight mem c).2

variable {pool : MemPool α} {mem : Memory α} {c : Insertion α}

theorem le_of_palloc {size : Nat} (h : mem.palloc size = .ok ()) : size ≤ MaxAllocSize := by
  unfold Memory.palloc at h
  split at h
  · cases h
  · next hle => exact Nat.not_lt.mp hle

/-- The test of a served call sees the real sum: a sum that wraps asks `palloc` for too much. -/
theorem refuses_iff (hserved : pool.Served mem c) (husage : pool.current_memory_usage ≤ POOL_SIZE) :
    pool.Refuses c ↔ POOL_SIZE < pool.current_memory_usage + c.data_size := by
  unfold Refuses
  constructor
  · intro h
    exact Nat.lt_of_lt_of_le h (Nat.mod_le _ _)
  · intro h
    rcases hserved with hrefused | hserved
    · exact hrefused
    · have hsize := le_of_palloc hserved
      rw [Nat.mod_eq_of_lt (by simp only [SIZE_RANGE, POOL_SIZE, MaxAllocSize] at *; omega)]
      exact h

/-- The size of the entry that an insertion replaces. -/
def replaced (pool : MemPool α) (c : Insertion α) : Nat :=
  (pool.entries (poolKey c.name)).elim 0 MemEntry.data_size

/-- Taking off the size of a live entry does not wrap. -/
theorem usageEntered_eq (hlive : pool.AllLive) (hacc : pool.Accounted)
    (husage : pool.current_memory_usage ≤ POOL_SIZE) :
    pool.replaced c ≤ pool.current_memory_usage ∧
      pool.usageEntered c = pool.current_memory_usage - pool.replaced c := by
  obtain ⟨total, htally, htotal⟩ := hacc
  have hle := htally.le (poolKey c.name)
  unfold replaced usageEntered
  cases hfound : pool.entries (poolKey c.name) with
  | none => exact ⟨Nat.zero_le _, rfl⟩
  | some e =>
    obtain ⟨data, hdata⟩ := hlive _ e hfound
    rw [hfound] at hle
    have hle : e.data_size ≤ total := hle
    show e.data_size ≤ _ ∧ (if e.data.isNull = true then _ else _) = _ - e.data_size
    rw [hdata]
    show e.data_size ≤ _ ∧ (_ + (SIZE_RANGE - e.data_size % SIZE_RANGE)) % SIZE_RANGE = _
    simp only [SIZE_RANGE, POOL_SIZE] at *
    omega

/-- **One call**: refused without a trace, or carried out with the exact sum. -/
theorem insertWeight_served (hlive : pool.AllLive) (hacc : pool.Accounted)
    (husage : pool.current_memory_usage ≤ POOL_SIZE) (hserved : pool.Served mem c) :
    (POOL_SIZE < pool.current_memory_usage + c.data_size →
      pool.insertWeight mem c =
        (.error (.report "weight pool memory limit exceeded" [] []), pool)) ∧
    (pool.current_memory_usage + c.data_size ≤ POOL_SIZE →
      pool.insertWeight mem c = (.ok (), pool.put (poolKey c.name) ((pool.entered mem c).fill c)
        (pool.current_memory_usage - pool.replaced c + c.data_size))) := by
  have hiff := refuses_iff hserved husage
  obtain ⟨-, hentered⟩ := usageEntered_eq (c := c) hlive hacc husage
  constructor
  · intro h
    rw [insertWeight, if_pos (hiff.mpr h)]
  · intro h
    have hnot : ¬ pool.Refuses c := fun hrefused => Nat.not_lt.mpr h (hiff.mp hrefused)
    rw [insertWeight, if_neg hnot]
    simp only [hserved.resolve_left hnot, hentered]
    rw [Nat.mod_eq_of_lt]
    simp only [SIZE_RANGE, POOL_SIZE] at *
    omega

theorem put_allLive (hlive : pool.AllLive) {key : Bytes} {e : MemEntry α} {data : List α}
    (he : e.data = .live data) (usage : Nat) : (pool.put key e usage).AllLive := by
  intro key' e' h
  by_cases hkey : key' = key
  · subst hkey
    obtain rfl : e = e' := Option.some.inj ((pool.entries_put_self key' e usage).symm.trans h)
    exact ⟨data, he⟩
  · exact hlive key' e' ((pool.entries_put_of_ne hkey e usage).symm.trans h)

theorem put_accounted (hacc : pool.Accounted) (key : Bytes) (e : MemEntry α) :
    (pool.put key e (pool.current_memory_usage - (pool.entries key).elim 0 MemEntry.data_size +
      e.data_size)).Accounted := by
  obtain ⟨total, htally, htotal⟩ := hacc
  refine ⟨_, htally.update key e, ?_⟩
  have hle := htally.le key
  show _ - _ + _ = _
  omega

/-- **A run of calls** keeps the accounts. -/
theorem accounted_of_reached (h : Reached pool) :
    pool.AllLive ∧ pool.Accounted ∧ pool.current_memory_usage ≤ POOL_SIZE := by
  induction h with
  | create =>
    refine ⟨fun key e h => (by cases h), ⟨0, tally_empty, rfl⟩, ?_⟩
    show LRU_CACHE_SIZE ≤ POOL_SIZE
    decide
  | @insert pool h mem c hserved ih =>
    obtain ⟨hlive, hacc, husage⟩ := ih
    obtain ⟨hrefused, hdone⟩ := insertWeight_served hlive hacc husage hserved
    rcases Nat.lt_or_ge POOL_SIZE (pool.current_memory_usage + c.data_size) with hover | hfits
    · rw [hrefused hover]
      exact ⟨hlive, hacc, husage⟩
    · rw [hdone hfits]
      refine ⟨put_allLive hlive rfl _, put_accounted hacc _ _, ?_⟩
      show pool.current_memory_usage - _ + c.data_size ≤ POOL_SIZE
      omega

/-- **The accounts of the pool** after any run of calls whose allocations are served: the usage is
the cache's share and the sizes of the entries, and within the limit. A further call that would pass
the limit raises and leaves the pool as it is; any other is carried out, and neither the difference
nor the sum wraps. -/
theorem usage_of_reached (h : Reached pool) :
    pool.Accounted ∧ pool.current_memory_usage ≤ POOL_SIZE ∧
    ∀ (mem : Memory α) (c : Insertion α), pool.Served mem c →
      (POOL_SIZE < pool.current_memory_usage + c.data_size →
        pool.insertWeight mem c =
          (.error (.report "weight pool memory limit exceeded" [] []), pool)) ∧
      (pool.current_memory_usage + c.data_size ≤ POOL_SIZE →
        pool.replaced c ≤ pool.current_memory_usage ∧
        ∃ pool', pool.insertWeight mem c = (.ok (), pool') ∧ pool'.current_memory_usage =
          pool.current_memory_usage - pool.replaced c + c.data_size) := by
  obtain ⟨hlive, hacc, husage⟩ := accounted_of_reached h
  refine ⟨hacc, husage, fun mem c hserved => ?_⟩
  obtain ⟨hrefused, hdone⟩ := insertWeight_served hlive hacc husage hserved
  exact ⟨hrefused, fun hfits => ⟨(usageEntered_eq hlive hacc husage).1, _, hdone hfits, rfl⟩⟩

/-- Memory that has room, or none. -/
def memoryWith (room : Bool) : Memory Int where
  grants := fun _ => room
  element := ⟨[], .unset, 7, 3, List.replicate 6 9, rfl⟩

def insertVector (name : Bytes) (xs : List Int) : Insertion Int :=
  ⟨name, xs, xs.length * 4, [xs.length], FLOAT4OID⟩

/-- A vector of three elements, replaced by one of two. -/
theorem usage_of_replacement :
    ∃ pool : MemPool Int, Reached pool ∧ pool.current_memory_usage = LRU_CACHE_SIZE + 8 ∧
      pool.Accounted ∧ pool.current_memory_usage ≤ POOL_SIZE := by
  have hreached := ((Reached.create.insert (memoryWith true) (insertVector (ascii "a_val") [1, 2, 3])
    (Or.inr rfl)).insert (memoryWith true) (insertVector (ascii "a_val") [4, 5]) (Or.inr rfl))
  obtain ⟨hacc, husage, -⟩ := usage_of_reached hreached
  exact ⟨_, hreached, by decide +kernel, hacc, husage⟩

/-! ## A `palloc` that raises -/

/-- No entry has a buffer that is freed, or a pointer that was never set. -/
def Intact (pool : MemPool α) : Prop :=
  ∀ key e, pool.entries key = some e → e.data ≠ .freed ∧ e.data ≠ .unset

/-- `pool'` is `pool` to every reader, and in order. -/
structure Undone (pool pool' : MemPool α) : Prop where
  answers : ∀ name, pool'.answer name = pool.answer name
  intact : pool'.Intact
  accounted : pool'.Accounted

/-- The answers are what the table shows under its keys. -/
theorem answer_put (pool : MemPool α) (name other : Bytes) (e : MemEntry α) (usage : Nat) :
    (pool.put (poolKey name) e usage).answer other =
      if poolKey other = poolKey name then some (e.data, e.dims) else pool.answer other := by
  unfold answer
  by_cases h : poolKey other = poolKey name
  · rw [if_pos h, h, entries_put_self, Option.map_some]
  · rw [if_neg h, entries_put_of_ne _ h]

theorem not_intact_put (pool : MemPool α) (key : Bytes) {e : MemEntry α} (usage : Nat)
    (he : e.data = .freed ∨ e.data = .unset) : ¬ (pool.put key e usage).Intact := by
  intro h
  obtain ⟨hfreed, hunset⟩ := h key e (pool.entries_put_self key e usage)
  exact he.elim hfreed hunset

/-- An entry without a buffer is left as it is. -/
theorem undone_of_null {e : MemEntry α} (hacc : pool.Accounted) (hintact : pool.Intact)
    (hfound : pool.entries (poolKey c.name) = some e) (hnull : e.data = .null) :
    Undone pool (pool.put (poolKey c.name) (pool.entered mem c) (pool.usageEntered c)) := by
  have hentered : pool.entered mem c = { e with name := poolKey c.name, data := .null } := by
    rw [entered, hfound]
    simp [hnull, Buffer.isNull]
  have husage : pool.usageEntered c = pool.current_memory_usage := by
    rw [usageEntered, hfound]
    simp [hnull, Buffer.isNull]
  rw [hentered, husage]
  refine ⟨fun name => ?_, fun key e' h => ?_, ?_⟩
  · rw [answer_put]
    split
    · next hkey =>
      rw [answer, hkey, hfound, Option.map_some, hnull]
      rfl
    · rfl
  · by_cases hkey : key = poolKey c.name
    · subst hkey
      rw [entries_put_self] at h
      cases h
      exact ⟨nofun, nofun⟩
    · rw [entries_put_of_ne _ hkey] at h
      exact hintact key e' h
  · obtain ⟨total, htally, htotal⟩ := hacc
    refine ⟨total, htally.congr fun key => ?_, htotal⟩
    by_cases hkey : key = poolKey c.name
    · subst hkey
      rw [entries_put_self, hfound]
      rfl
    · rw [entries_put_of_ne _ hkey]

/-- **`insert_weight` is never undone.** A call that gets as far as a `palloc` that raises leaves a
freed buffer behind, or an entry that was not there and has no data; unless the entry had no buffer
before. -/
theorem insertWeight_undone_iff (pool : MemPool α) (hacc : pool.Accounted) (mem : Memory α)
    (c : Insertion α) :
    (∀ err, ¬ pool.Refuses c → mem.palloc c.data_size = .error err →
      Undone pool (pool.insertWeight mem c).2) ↔
    pool.Refuses c ∨ mem.palloc c.data_size = .ok () ∨
      pool.Intact ∧ ∃ e, pool.entries (poolKey c.name) = some e ∧ e.data = .null := by
  constructor
  · intro h
    by_cases hrefused : pool.Refuses c
    · exact Or.inl hrefused
    cases hpalloc : mem.palloc c.data_size with
    | ok u => exact Or.inr (Or.inl rfl)
    | error err =>
      have hundone := h err hrefused hpalloc
      rw [insertWeight, if_neg hrefused] at hundone
      simp only [hpalloc] at hundone
      cases hfound : pool.entries (poolKey c.name) with
      | none =>
        have hunset : (pool.entered mem c).data = .unset := by rw [entered, hfound]
        exact absurd hundone.intact (not_intact_put _ _ _ (Or.inr hunset))
      | some e =>
        cases hdata : e.data with
        | null =>
          refine Or.inr (Or.inr ⟨fun key e' he' => ?_, e, rfl, hdata⟩)
          by_cases hkey : key = poolKey c.name
          · subst hkey
            obtain rfl : e = e' := Option.some.inj (hfound.symm.trans he')
            rw [hdata]
            exact ⟨nofun, nofun⟩
          · exact hundone.intact key e' ((entries_put_of_ne pool hkey _ _).trans he')
        | _ =>
          have hfreed : (pool.entered mem c).data = .freed := by
            rw [entered, hfound]
            simp [hdata, Buffer.isNull]
          exact absurd hundone.intact (not_intact_put _ _ _ (Or.inl hfreed))
  · rintro (hrefused | hpalloc | ⟨hintact, e, hfound, hnull⟩) err hnot herr
    · exact absurd hrefused hnot
    · rw [hpalloc] at herr
      cases herr
    · rw [insertWeight, if_neg hnot]
      simp only [herr]
      exact undone_of_null hacc hintact hfound hnull

/-- The first insertion, without room. -/
theorem insertWeight_undone_create :
    (create : MemPool Int).Accounted ∧
      ¬ (∀ err, ¬ create.Refuses (insertVector (ascii "a_val") [1, 2, 3]) →
        (memoryWith false).palloc 12 = .error err →
        Undone create (create.insertWeight (memoryWith false)
          (insertVector (ascii "a_val") [1, 2, 3])).2) := by
  have hacc : (create : MemPool Int).Accounted := ⟨0, tally_empty, rfl⟩
  refine ⟨hacc, fun h => ?_⟩
  rcases (insertWeight_undone_iff create hacc (memoryWith false) _).mp h with h | h | ⟨-, e, h, -⟩
  · exact absurd h (by decide)
  · cases h
  · cases h

/-- **Out of memory in the second insertion of `a_val`**: the entry stays with its size and a freed
buffer, and the usage has lost the size. In the first insertion of `b_val`: an entry appears that has
no data. -/
theorem insertWeight_outOfMemory :
    ∃ pool : MemPool Int, Reached pool ∧ pool.Accounted ∧
      (∃ pool', pool.insertWeight (memoryWith false) (insertVector (ascii "a_val") [4, 5]) =
          (.error (.report "out of memory" [] []), pool') ∧
        pool.answer (ascii "a_val") = some (.live [1, 2, 3], [3]) ∧
        pool'.answer (ascii "a_val") = some (.freed, [3]) ∧ ¬ pool'.Intact ∧ ¬ pool'.Accounted) ∧
      ∃ pool', pool.insertWeight (memoryWith false) (insertVector (ascii "b_val") [4, 5]) =
          (.error (.report "out of memory" [] []), pool') ∧
        pool.answer (ascii "b_val") = none ∧ pool'.answer (ascii "b_val") = some (.unset, [9, 9, 9]) := by
  have hreached := (Reached.create.insert (memoryWith true) (insertVector (ascii "a_val") [1, 2, 3])
    (Or.inr rfl))
  refine ⟨_, hreached, (accounted_of_reached hreached).2.1, ⟨_, rfl, by rfl, by rfl, ?_, ?_⟩, _, rfl,
    by rfl, by rfl⟩
  · exact not_intact_put _ _ _ (Or.inl rfl)
  · -- the table still has the twelve bytes
    rintro ⟨total, htally, htotal⟩
    have hle : 12 ≤ total := htally.le (ascii "a_val")
    have husage : LRU_CACHE_SIZE = LRU_CACHE_SIZE + total := htotal
    omega

/-! ## The pool of `WeightPool` -/

/-- The entry holds what the other holds. -/
structure MemEntry.Shows (e : MemEntry α) (f : WeightEntry α) : Prop where
  data : e.data = .live f.data
  data_size : e.data_size = f.data_size
  ndims : e.ndims = f.ndims
  dims : e.dims = f.dims

structure Shows (pool : MemPool α) (p : WeightPool α) : Prop where
  usage : pool.current_memory_usage = p.current_memory_usage
  entries : ∀ key, Option.Rel MemEntry.Shows (pool.entries key) (p.entries key)

/-- What a reader finds of the dimensions does not depend on what was there before. -/
theorem take_words_congr {old old' : List Int} (hold : old.length = MAX_DIMS + 2)
    (hold' : old'.length = MAX_DIMS + 2) (dims : List Int) (type : Int) :
    ((writeAt old 0 dims).set MAX_DIMS type).take dims.length =
      ((writeAt old' 0 dims).set MAX_DIMS type).take dims.length := by
  refine List.ext_getElem? fun i => ?_
  rcases Nat.lt_or_ge i dims.length with hi | hi
  · rw [List.getElem?_take_of_lt hi, List.getElem?_take_of_lt hi]
    rcases Nat.lt_or_ge i (MAX_DIMS + 2) with hin | hout
    · have hmid : ∀ old : List Int, old.length = MAX_DIMS + 2 →
          (writeAt old 0 dims)[i]? = dims[i]? := fun old hold => by
        rw [getElem?_writeAt old dims 0 i (by omega), if_pos (by omega), Nat.sub_zero]
      simp only [List.getElem?_set, length_writeAt, hmid old hold, hmid old' hold', hold, hold']
    · rw [List.getElem?_eq_none (by simpa [hold] using hout),
        List.getElem?_eq_none (by simpa [hold'] using hout)]
  · rw [List.getElem?_eq_none (by simp; omega), List.getElem?_eq_none (by simp; omega)]

/-- **One call** does to the pool what it does to the other. -/
theorem insertWeight_shows {p : WeightPool α} (hreached : Reached pool) (h : Shows pool p)
    (hserved : pool.Served mem c) :
    (∃ err, pool.insertWeight mem c = (.error err, pool) ∧
      p.insertWeight c.name c.data c.data_size c.dims c.element_type = .error err) ∨
    ∃ pool' p', pool.insertWeight mem c = (.ok (), pool') ∧
      p.insertWeight c.name c.data c.data_size c.dims c.element_type = .ok p' ∧ Shows pool' p' := by
  obtain ⟨hlive, hacc, husage⟩ := accounted_of_reached hreached
  obtain ⟨hrefused, hdone⟩ := insertWeight_served hlive hacc husage hserved
  unfold WeightPool.insertWeight
  rw [← h.usage]
  rcases Nat.lt_or_ge POOL_SIZE (pool.current_memory_usage + c.data_size) with hover | hfits
  · rw [if_pos hover]
    exact Or.inl ⟨_, hrefused hover, rfl⟩
  · rw [if_neg (Nat.not_lt.mpr hfits)]
    refine Or.inr ⟨_, _, hdone hfits, rfl, ?_, fun key => ?_⟩
    · -- the entry that is replaced has one size
      have hsize : pool.replaced c = (p.getWeight c.name).elim 0 WeightEntry.data_size := by
        have hrel := h.entries (poolKey c.name)
        unfold replaced WeightPool.getWeight
        generalize pool.entries (poolKey c.name) = e at hrel ⊢
        generalize p.entries (poolKey c.name) = f at hrel ⊢
        cases hrel with
        | some he => exact he.data_size
        | none => rfl
      show pool.current_memory_usage - pool.replaced c + c.data_size = _
      rw [hsize]
    · by_cases hkey : key = poolKey c.name
      · subst hkey
        simp only [entries_put_self, Function.update_self]
        exact .some ⟨rfl, rfl, rfl, take_words_congr (pool.entered mem c).hwords
          (p.length_oldWords c.name) c.dims c.element_type⟩
      · simp only [entries_put_of_ne _ hkey, Function.update_of_ne hkey]
        exact h.entries key

/-- **A run of calls** gives the pool of a run of the other. -/
theorem shows_of_reached (h : Reached pool) : ∃ p, Shows pool p := by
  induction h with
  | create => exact ⟨WeightPool.create, rfl, fun _ => .none⟩
  | insert hreached mem c hserved ih =>
    obtain ⟨p, hp⟩ := ih
    rcases insertWeight_shows hreached hp hserved with ⟨err, hrun, -⟩ | ⟨pool', p', hrun, -, hp'⟩
    · rw [hrun]
      exact ⟨p, hp⟩
    · rw [hrun]
      exact ⟨p', hp'⟩

end MemPool

end Peps
