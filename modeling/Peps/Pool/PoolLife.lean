import Peps.Pool.LruCache
import Peps.Pool.PoolMemory

/-!
# The memory of a pool, from `create_weight_pool` to `destroy_weight_pool`

`PoolMemory` follows what `insert_weight` leaves in the entries, `LruCache` what the cache functions
do to the cells. Here both are followed to the end: `_PG_fini` calls `destroy_weight_pool`, which
frees the buffer of every entry, the cells of the cache, the context with all that is in it, and then
the structure of the pool.

A `pfree` of memory that is not allocated is a `Fault`. There are three places for one: a buffer that
an insertion without memory has left behind, met again by an insertion of the same name or by the
teardown; a cell of the cache; and the structure of the pool, which was itself allocated in the
context that is gone by then. The second never happens (`holds_put`, `holds_get`), the third always,
unless the first comes before it (`weightPool_frees_iff`).
-/

namespace Peps

open Lib

/-! ## The cells of the cache -/

namespace LRUCache

variable {V : Type}

/-- `destroy_lru_cache`, the loop. -/
def destroyLruCache (cache : LRUCache V) : Option (Heap (LRUSlot V)) :=
  freeAll cache.heap cache.size cache.head

/-- No cell is allocated but those that are counted. -/
def Tight (cache : LRUCache V) : Prop := cache.heap.allocated.card = cache.size

theorem tight_create (capacity : Nat) : (createLruCache capacity : LRUCache V).Tight := by
  show (Heap.empty : Heap (LRUSlot V)).allocated.card = 0
  rw [Heap.allocated_empty, Finset.card_empty]

theorem tight_moveToHead {cache cache' : LRUCache V} {a : Addr} (h : cache.Tight)
    (hrun : cache.lruCacheMoveToHead a = some cache') : cache'.Tight := by
  unfold lruCacheMoveToHead at hrun
  split at hrun
  · rw [← Option.some.inj hrun]
    exact h
  · simp only [Option.bind_eq_bind, Option.bind_eq_some_iff] at hrun
    obtain ⟨_, _, h₁, hrun₁, _, _, h₂, hrun₂, _, _, h₃, hrun₃, h₄, hrun₄, h₅, hrun₅, hcache⟩ := hrun
    rw [← Option.some.inj hcache]
    show h₅.allocated.card = cache.size
    rw [Heap.allocated_relinkPrev hrun₅, Heap.allocated_modify hrun₄, Heap.allocated_modify hrun₃,
      Heap.allocated_relinkPrev hrun₂, Heap.allocated_relinkNext hrun₁]
    exact h

theorem tight_evict {cache cache' : LRUCache V} (h : cache.Tight)
    (hrun : cache.evict = some cache') : cache'.Tight := by
  unfold evict at hrun
  split at hrun
  · rw [← Option.some.inj hrun]
    exact h
  · next tail htail =>
    simp only [Option.bind_eq_bind, Option.bind_eq_some_iff] at hrun
    obtain ⟨t, ht, h₁, hrun₁, _, _, hcache⟩ := hrun
    have hmem : tail ∈ h₁.allocated := by
      rw [Heap.allocated_relinkNext hrun₁]
      simp [ht]
    rw [← Option.some.inj hcache]
    show (h₁.free tail).allocated.card = cache.size - 1
    rw [Heap.allocated_free, Finset.card_erase_of_mem hmem, Heap.allocated_relinkNext hrun₁, h]

theorem tight_insertNew (alloc : Allocator (LRUSlot V)) {cache cache' : LRUCache V} {name : Bytes}
    {entry : V} (h : cache.Tight) (hrun : cache.insertNew alloc name entry = some cache') :
    cache'.Tight := by
  unfold insertNew at hrun
  simp only [Option.bind_eq_bind, Option.bind_eq_some_iff] at hrun
  obtain ⟨h₁, hrun₁, hcache⟩ := hrun
  have hfresh : alloc.next cache.heap ∉ cache.heap.allocated := by simp [alloc.hfresh]
  rw [← Option.some.inj hcache]
  show h₁.allocated.card = cache.size + 1
  rw [Heap.allocated_relinkPrev hrun₁, Heap.allocated_write, Finset.card_insert_of_notMem hfresh, h]

theorem tight_put (alloc : Allocator (LRUSlot V)) {cache cache' : LRUCache V} {name : Bytes}
    {entry : V} (h : cache.Tight) (hrun : cache.putLruCache alloc name entry = some cache') :
    cache'.Tight := by
  unfold putLruCache at hrun
  simp only [Option.bind_eq_bind, Option.bind_eq_some_iff] at hrun
  obtain ⟨found, -, hrun⟩ := hrun
  cases found with
  | some current =>
    obtain ⟨heap, hset, hmove⟩ := Option.bind_eq_some_iff.mp hrun
    refine tight_moveToHead ?_ hmove
    show heap.allocated.card = cache.size
    rw [Heap.allocated_modify hset]
    exact h
  | none =>
    simp only at hrun
    split at hrun
    · obtain ⟨cache₁, hevict, hinsert⟩ := Option.bind_eq_some_iff.mp hrun
      exact tight_insertNew alloc (tight_evict h hevict) hinsert
    · exact tight_insertNew alloc h hrun

theorem tight_get {cache cache' : LRUCache V} {name : Bytes} {reply : Option V} (h : cache.Tight)
    (hrun : cache.getLruCache name = some (cache', reply)) : cache'.Tight := by
  unfold getLruCache at hrun
  simp only [Option.bind_eq_bind, Option.bind_eq_some_iff] at hrun
  obtain ⟨found, -, hrun⟩ := hrun
  cases found with
  | some current =>
    obtain ⟨cache₁, hmove, hrun⟩ := Option.bind_eq_some_iff.mp hrun
    obtain ⟨n, -, hreply⟩ := Option.bind_eq_some_iff.mp hrun
    cases hreply
    exact tight_moveToHead h hmove
  | none =>
    cases hrun
    exact h

/-- The cells of a list that is as long as there are cells are all the cells. -/
theorem Represents.mem_addrs {cache : LRUCache V} {cells : List (Addr × LRUSlot V)}
    (h : cache.Represents cells) (htight : cache.Tight) {a : Addr}
    (ha : a ∈ cache.heap.allocated) : a ∈ addrs cells := by
  have hsub : (addrs cells).toFinset ⊆ cache.heap.allocated := fun b hb => by
    obtain ⟨n, hn⟩ := h.chain.cell_isSome (List.mem_toFinset.mp hb)
    simp [hn]
  have hcard : cache.heap.allocated.card ≤ (addrs cells).toFinset.card := by
    rw [List.toFinset_card_of_nodup h.nodup, htight, h.size, addrs, List.length_map]
  rw [← Finset.eq_of_subset_of_card_le hsub hcard] at ha
  exact List.mem_toFinset.mp ha

/-- **Nothing of a cache is left** after `destroy_lru_cache`, and every cell is freed once. -/
theorem destroyLruCache_ok {cache : LRUCache V} {cells : List (Addr × LRUSlot V)}
    (h : cache.Represents cells) (htight : cache.Tight) :
    ∃ heap, cache.destroyLruCache = some heap ∧ heap.allocated = ∅ := by
  obtain ⟨heap, hrun, hcells⟩ := h.chain.freeAll_eq h.nodup (Nat.le_of_eq h.size.symm)
  rw [← h.head] at hrun
  refine ⟨heap, hrun, Finset.eq_empty_of_forall_notMem fun a ha => ?_⟩
  rw [Heap.mem_allocated, hcells a] at ha
  split at ha
  · cases ha
  · next hnot => exact hnot (h.mem_addrs htight (Heap.mem_allocated.mpr ha))

end LRUCache

/-! ## The calls and the teardown -/

/-- A `pfree` of memory that is not allocated, or an access to it. -/
inductive Fault where
  | data (key : Bytes)
  | cacheEntry
  | pool
deriving DecidableEq

/-- `if (entry->data) pfree(entry->data);` -/
def Buffer.release {α : Type} (key : Bytes) : Buffer α → Except Fault (Buffer α)
  | .null => .ok .null
  | .live _ => .ok .freed
  | .freed => .error (.data key)
  | .unset => .error (.data key)

/-- A pool with its cache, whose entries point to elements of the table; an element stays where it
is, so its key says which it is. -/
structure PoolState (α : Type) where
  pool : MemPool α
  cache : LRUCache Bytes
  -- whether the structure was allocated in the context that it names
  inContext : Bool

/-- The calls that change a pool. -/
inductive PoolCall (α : Type) where
  | insertWeight (mem : Memory α) (c : Insertion α)
  | putLruCache (name key : Bytes)
  | getLruCache (name : Bytes)

namespace MemPool

variable {α : Type}

/-- The buffer that an insertion frees. -/
def oldBuffer (pool : MemPool α) (c : Insertion α) : Buffer α :=
  (pool.entries (poolKey c.name)).elim .null MemEntry.data

/-- One round of the loop of `destroy_weight_pool`. -/
def freeEntry (pool : MemPool α) (key : Bytes) : Except Fault (MemPool α) :=
  match pool.entries key with
  | none => .ok pool
  | some e => do
      let data ← e.data.release key
      return pool.put key { e with data } pool.current_memory_usage

/-- `hash_seq_search` comes to every entry once, in an order of its own. -/
structure Enumerates (pool : MemPool α) (order : List Bytes) : Prop where
  nodup : order.Nodup
  mem_iff : ∀ key, key ∈ order ↔ pool.entries key ≠ none

end MemPool

namespace PoolState

variable {α : Type}

/-- `create_weight_pool`: the structure is allocated after `MemoryContextSwitchTo(pool_context)`. -/
def createWeightPool : PoolState α := ⟨MemPool.create, LRUCache.createLruCache 32, true⟩

def step (alloc : Allocator (LRUSlot Bytes)) (st : PoolState α) :
    PoolCall α → Except Fault (PoolState α)
  | .insertWeight mem c =>
      -- a call that is refused returns before the `pfree`
      if st.pool.Refuses c then .ok st
      else do
        let _ ← (st.pool.oldBuffer c).release (poolKey c.name)
        return { st with pool := (st.pool.insertWeight mem c).2 }
  | .putLruCache name key =>
      match st.cache.putLruCache alloc name key with
      | none => .error .cacheEntry
      | some cache => .ok { st with cache }
  | .getLruCache name =>
      match st.cache.getLruCache name with
      | none => .error .cacheEntry
      | some (cache, _) => .ok { st with cache }

def run (alloc : Allocator (LRUSlot Bytes)) (st : PoolState α) (calls : List (PoolCall α)) :
    Except Fault (PoolState α) :=
  calls.foldlM (step alloc) st

/-- `destroy_weight_pool`. -/
def destroyWeightPool (order : List Bytes) (st : PoolState α) : Except Fault Unit := do
  let _ ← order.foldlM MemPool.freeEntry st.pool
  match st.cache.destroyLruCache with
  | none => .error .cacheEntry
  | some _ =>
    -- `MemoryContextDelete(pool->context)`, then `pfree(pool)`
    if st.inContext then .error .pool else .ok ()

end PoolState

/-! ## The loop of the teardown -/

namespace MemPool

variable {α : Type} {pool pool' : MemPool α} {key : Bytes} {order : List Bytes}

theorem release_ok (key : Bytes) {b : Buffer α} (h : b ≠ .freed ∧ b ≠ .unset) :
    ∃ b', b.release key = .ok b' := by
  cases b with
  | null => exact ⟨_, rfl⟩
  | live data => exact ⟨_, rfl⟩
  | freed => exact absurd rfl h.1
  | unset => exact absurd rfl h.2

theorem release_fault {b : Buffer α} (h : ¬ (b ≠ .freed ∧ b ≠ .unset)) :
    b.release key = .error (.data key) := by
  cases b with
  | null => exact absurd ⟨nofun, nofun⟩ h
  | live data => exact absurd ⟨nofun, nofun⟩ h
  | freed => rfl
  | unset => rfl

/-- The entry under a key can be freed. -/
def Frees (pool : MemPool α) (key : Bytes) : Prop :=
  ∀ e, pool.entries key = some e → e.data ≠ .freed ∧ e.data ≠ .unset

theorem freeEntry_ok (h : pool.Frees key) : ∃ pool', pool.freeEntry key = .ok pool' ∧
    ∀ other, other ≠ key → pool'.entries other = pool.entries other := by
  unfold freeEntry
  split
  · exact ⟨pool, rfl, fun _ _ => rfl⟩
  · next e he =>
    obtain ⟨data, hdata⟩ := release_ok key (h e he)
    rw [hdata]
    exact ⟨_, rfl, fun other hne => entries_put_of_ne pool hne _ _⟩

theorem freeEntry_fault (h : ¬ pool.Frees key) : pool.freeEntry key = .error (.data key) := by
  unfold Frees at h
  push Not at h
  obtain ⟨e, he, hdata⟩ := h
  unfold freeEntry
  rw [he]
  show (e.data.release key >>= fun _ => _) = _
  rw [release_fault fun hok => hok.2 (hdata hok.1)]
  rfl

theorem frees_of_entries_eq (h : pool'.entries key = pool.entries key) :
    pool'.Frees key ↔ pool.Frees key := by
  unfold Frees
  rw [h]

/-- **The loop** frees the buffers of its entries, or stops at one that is not allocated. -/
theorem freeEntries (pool : MemPool α) (hnodup : order.Nodup) :
    ((∀ key ∈ order, pool.Frees key) → ∃ pool', order.foldlM freeEntry pool = .ok pool') ∧
    (∀ key ∈ order, ¬ pool.Frees key → ∃ key', order.foldlM freeEntry pool = .error (.data key')) := by
  induction order generalizing pool with
  | nil => exact ⟨fun _ => ⟨pool, rfl⟩, fun key hkey => absurd hkey List.not_mem_nil⟩
  | cons first order ih =>
    obtain ⟨hfirst, hnodup⟩ := List.nodup_cons.mp hnodup
    by_cases hfrees : pool.Frees first
    · obtain ⟨pool₁, hrun, hsame⟩ := freeEntry_ok hfrees
      have hrest : ∀ key ∈ order, (pool₁.Frees key ↔ pool.Frees key) := fun key hkey =>
        frees_of_entries_eq (hsame key fun heq => hfirst (heq ▸ hkey))
      obtain ⟨hok, hfault⟩ := ih pool₁ hnodup
      rw [List.foldlM_cons, hrun]
      refine ⟨fun hall => hok fun key hkey => (hrest key hkey).mpr (hall key (by simp [hkey])),
        fun key hkey hnot => ?_⟩
      rcases List.mem_cons.mp hkey with rfl | hkey
      · exact absurd hfrees hnot
      · exact hfault key hkey fun h => hnot ((hrest key hkey).mp h)
    · rw [List.foldlM_cons, freeEntry_fault hfrees]
      exact ⟨fun hall => absurd (hall first (by simp)) hfrees, fun _ _ _ => ⟨first, rfl⟩⟩

theorem not_intact_iff : ¬ pool.Intact ↔ ∃ key, ¬ pool.Frees key := by
  unfold Intact Frees
  exact not_forall

/-- **What an insertion does to the table**: nothing, or one entry. -/
theorem insertWeight_table (pool : MemPool α) (mem : Memory α) (c : Insertion α) :
    (pool.Refuses c ∧ (pool.insertWeight mem c).2 = pool) ∨
    (¬ pool.Refuses c ∧ mem.palloc c.data_size = .ok () ∧ ∃ usage, (pool.insertWeight mem c).2 =
      pool.put (poolKey c.name) ((pool.entered mem c).fill c) usage) ∨
    (¬ pool.Refuses c ∧ mem.palloc c.data_size ≠ .ok () ∧ ∃ usage, (pool.insertWeight mem c).2 =
      pool.put (poolKey c.name) (pool.entered mem c) usage) := by
  unfold insertWeight
  by_cases hrefused : pool.Refuses c
  · exact .inl ⟨hrefused, by rw [if_pos hrefused]⟩
  · rw [if_neg hrefused]
    cases hpalloc : mem.palloc c.data_size with
    | ok u => exact .inr (.inl ⟨hrefused, rfl, _, rfl⟩)
    | error e => exact .inr (.inr ⟨hrefused, nofun, _, rfl⟩)

/-- The keys after an insertion can be listed if those before it can. -/
theorem enumerates_put (h : pool.Enumerates order) (key : Bytes) (e : MemEntry α) (usage : Nat) :
    ∃ order', (pool.put key e usage).Enumerates order' := by
  have hsome : ∀ other, (pool.put key e usage).entries other ≠ none ↔
      other = key ∨ pool.entries other ≠ none := fun other => by
    by_cases heq : other = key
    · rw [heq, entries_put_self]
      simp
    · rw [entries_put_of_ne pool heq]
      simp [heq]
  by_cases hkey : key ∈ order
  · refine ⟨order, h.nodup, fun other => ?_⟩
    rw [hsome, ← h.mem_iff]
    refine ⟨.inr, fun hor => hor.elim (fun heq => heq ▸ hkey) id⟩
  · refine ⟨key :: order, List.nodup_cons.mpr ⟨hkey, h.nodup⟩, fun other => ?_⟩
    rw [List.mem_cons, hsome, h.mem_iff]

/-- An insertion whose `palloc` is not served leaves a buffer that cannot be freed, unless there was
an entry without one. -/
theorem not_frees_entered (mem : Memory α) (c : Insertion α) (hlive : pool.AllLive) (usage : Nat) :
    ¬ (pool.put (poolKey c.name) (pool.entered mem c) usage).Frees (poolKey c.name) := by
  intro h
  have hdata := h _ (entries_put_self pool _ _ _)
  unfold entered at hdata
  cases hfound : pool.entries (poolKey c.name) with
  | none =>
    rw [hfound] at hdata
    exact hdata.2 rfl
  | some e =>
    rw [hfound] at hdata
    obtain ⟨data, he⟩ := hlive _ e hfound
    simp [he, Buffer.isNull] at hdata

end MemPool

/-! ## Runs -/

namespace PoolCall

variable {α : Type}

/-- A name that an entry of the cache can hold. -/
def Fits : PoolCall α → Prop
  | .insertWeight _ _ => True
  | .putLruCache name _ => name.length < NAMEDATALEN
  | .getLruCache name => name.length < NAMEDATALEN

/-- The call does not run out of memory. -/
def Served (pool : MemPool α) : PoolCall α → Prop
  | .insertWeight mem c => pool.Served mem c
  | .putLruCache _ _ => True
  | .getLruCache _ => True

end PoolCall

namespace PoolState

variable {α : Type} {alloc : Allocator (LRUSlot Bytes)} {st st' : PoolState α} {call : PoolCall α}
  {calls : List (PoolCall α)}

/-- No call of a run runs out of memory. -/
def AllServed (alloc : Allocator (LRUSlot Bytes)) : PoolState α → List (PoolCall α) → Prop
  | _, [] => True
  | st, call :: calls =>
      call.Served st.pool ∧ ∀ st', st.step alloc call = .ok st' → AllServed alloc st' calls

/-- What every call keeps, served or not. -/
structure Holds (st : PoolState α) : Prop where
  cache : ∃ past, st.cache.Refines 32 (Lru.run 32 past).1
  tight : st.cache.Tight
  finite : ∃ order, st.pool.Enumerates order
  inContext : st.inContext = true

theorem holds_create : (createWeightPool : PoolState α).Holds where
  cache := ⟨[], [], LRUCache.represents_create 32, rfl, rfl⟩
  tight := LRUCache.tight_create 32
  finite := ⟨[], List.nodup_nil, fun key => by simp [createWeightPool, MemPool.create]⟩
  inContext := rfl

/-- The cache after one more call. -/
theorem cache_step (alloc : Allocator (LRUSlot Bytes)) (h : st.Holds)
    (next : Lru.Call Bytes Bytes) (hname : next.name.length < NAMEDATALEN) :
    ∃ cache reply, st.cache.step alloc next = some (cache, reply) ∧
      ∃ past, cache.Refines 32 (Lru.run 32 past).1 := by
  obtain ⟨past, hrefines⟩ := h.cache
  obtain ⟨cache, hstep, hrefines'⟩ := LRUCache.step_refines alloc (by decide) hrefines
    (Lru.run_valid (by decide) past).nodup hname
  refine ⟨cache, _, hstep, past ++ [next], ?_⟩
  rw [Lru.run_append_singleton]
  exact hrefines'

/-- **The cells of the cache are in order**, whatever is put. -/
theorem holds_put (alloc : Allocator (LRUSlot Bytes)) (h : st.Holds) {name : Bytes}
    (hname : name.length < NAMEDATALEN) (key : Bytes) :
    ∃ st', st.step alloc (.putLruCache name key) = .ok st' ∧ st'.Holds ∧ st'.pool = st.pool := by
  obtain ⟨cache, reply, hstep, hpast⟩ := cache_step alloc h (.put name key) hname
  obtain ⟨cache', hput, hcache⟩ := Option.map_eq_some_iff.mp hstep
  cases hcache
  refine ⟨{ st with cache }, by rw [step, hput], ⟨hpast, ?_, h.finite, h.inContext⟩, rfl⟩
  exact LRUCache.tight_put alloc h.tight hput

theorem holds_get (alloc : Allocator (LRUSlot Bytes)) (h : st.Holds) {name : Bytes}
    (hname : name.length < NAMEDATALEN) :
    ∃ st', st.step alloc (.getLruCache name) = .ok st' ∧ st'.Holds ∧ st'.pool = st.pool := by
  obtain ⟨cache, reply, hget, hpast⟩ := cache_step alloc h (.get name) hname
  have hget : st.cache.getLruCache name = some (cache, reply) := hget
  refine ⟨{ st with cache }, by rw [step, hget], ⟨hpast, ?_, h.finite, h.inContext⟩, rfl⟩
  exact LRUCache.tight_get h.tight hget

/-- **An insertion** faults exactly where it would free a buffer that is not allocated. -/
theorem step_insertWeight (mem : Memory α) (c : Insertion α) :
    (st.pool.Refuses c ∨ st.pool.Frees (poolKey c.name) →
      st.step alloc (.insertWeight mem c) =
        .ok { st with pool := (st.pool.insertWeight mem c).2 }) ∧
    (¬ st.pool.Refuses c → ¬ st.pool.Frees (poolKey c.name) →
      st.step alloc (.insertWeight mem c) = .error (.data (poolKey c.name))) := by
  have hold : st.pool.Frees (poolKey c.name) ↔
      st.pool.oldBuffer c ≠ .freed ∧ st.pool.oldBuffer c ≠ .unset := by
    unfold MemPool.Frees MemPool.oldBuffer
    cases st.pool.entries (poolKey c.name) <;> simp
  by_cases hrefused : st.pool.Refuses c
  · refine ⟨fun _ => ?_, fun h => absurd hrefused h⟩
    rw [step, if_pos hrefused, MemPool.insertWeight, if_pos hrefused]
  · rw [step, if_neg hrefused]
    refine ⟨fun h => ?_, fun _ h => ?_⟩
    · obtain ⟨b, hb⟩ := MemPool.release_ok (poolKey c.name)
        (hold.mp (h.resolve_left hrefused))
      rw [hb]
      rfl
    · rw [MemPool.release_fault fun hok => h (hold.mpr hok)]
      rfl

theorem holds_insertWeight (h : st.Holds) (mem : Memory α) (c : Insertion α) :
    Holds { st with pool := (st.pool.insertWeight mem c).2 } := by
  refine ⟨h.cache, h.tight, ?_, h.inContext⟩
  obtain ⟨order, horder⟩ := h.finite
  rcases st.pool.insertWeight_table mem c with ⟨-, heq⟩ | ⟨-, -, usage, heq⟩ | ⟨-, -, usage, heq⟩
  · exact ⟨order, by rw [heq]; exact horder⟩
  · rw [heq]
    exact MemPool.enumerates_put horder _ _ _
  · rw [heq]
    exact MemPool.enumerates_put horder _ _ _

/-- **One call keeps what holds**, if it does not fault. -/
theorem holds_step (h : st.Holds) (hfits : call.Fits) (hstep : st.step alloc call = .ok st') :
    st'.Holds := by
  cases call with
  | insertWeight mem c =>
    by_cases hok : st.pool.Refuses c ∨ st.pool.Frees (poolKey c.name)
    · rw [(step_insertWeight mem c).1 hok] at hstep
      cases hstep
      exact holds_insertWeight h mem c
    · rw [(step_insertWeight mem c).2 (fun hr => hok (.inl hr)) fun hf => hok (.inr hf)] at hstep
      cases hstep
  | putLruCache name key =>
    obtain ⟨st₁, hrun, hholds, -⟩ := holds_put alloc h hfits key
    rw [hrun] at hstep
    cases hstep
    exact hholds
  | getLruCache name =>
    obtain ⟨st₁, hrun, hholds, -⟩ := holds_get alloc h hfits
    rw [hrun] at hstep
    cases hstep
    exact hholds

theorem frees_of_reached (h : MemPool.Reached st.pool) (key : Bytes) : st.pool.Frees key := by
  intro e he
  obtain ⟨data, hdata⟩ := (MemPool.accounted_of_reached h).1 key e he
  rw [hdata]
  exact ⟨nofun, nofun⟩

/-- **A call with memory** does not fault, and leaves a pool that such calls lead to. -/
theorem reached_step (alloc : Allocator (LRUSlot Bytes)) (h : st.Holds)
    (hreached : MemPool.Reached st.pool) (hfits : call.Fits)
    (hserved : call.Served st.pool) :
    ∃ st', st.step alloc call = .ok st' ∧ MemPool.Reached st'.pool := by
  cases call with
  | insertWeight mem c =>
    exact ⟨_, (step_insertWeight mem c).1 (.inr (frees_of_reached hreached _)),
      hreached.insert mem c hserved⟩
  | putLruCache name key =>
    obtain ⟨st', hrun, -, hpool⟩ := holds_put alloc h hfits key
    exact ⟨st', hrun, hpool ▸ hreached⟩
  | getLruCache name =>
    obtain ⟨st', hrun, -, hpool⟩ := holds_get alloc h hfits
    exact ⟨st', hrun, hpool ▸ hreached⟩

/-- **A call without memory** leaves a buffer behind that is not allocated. -/
theorem broken_step (hreached : MemPool.Reached st.pool) (hserved : ¬ call.Served st.pool)
    (hstep : st.step alloc call = .ok st') : ¬ st'.pool.Intact := by
  cases call with
  | insertWeight mem c =>
    rw [(step_insertWeight mem c).1 (.inr (frees_of_reached hreached _))] at hstep
    cases hstep
    have hserved : ¬ st.pool.Served mem c := hserved
    rcases st.pool.insertWeight_table mem c with ⟨hrefused, -⟩ | ⟨-, hpalloc, -⟩ | ⟨-, -, usage, heq⟩
    · exact absurd (.inl hrefused) hserved
    · exact absurd (.inr hpalloc) hserved
    · show ¬ (st.pool.insertWeight mem c).2.Intact
      rw [heq]
      exact MemPool.not_intact_iff.mpr
        ⟨_, MemPool.not_frees_entered mem c (MemPool.accounted_of_reached hreached).1 usage⟩
  | putLruCache name key => exact absurd trivial hserved
  | getLruCache name => exact absurd trivial hserved

/-- **It stays there**: the only call that would come to it faults. -/
theorem broken_stays (h : st.Holds) (hfits : call.Fits) (hbroken : ¬ st.pool.Intact)
    (hstep : st.step alloc call = .ok st') : ¬ st'.pool.Intact := by
  obtain ⟨key, hkey⟩ := MemPool.not_intact_iff.mp hbroken
  cases call with
  | insertWeight mem c =>
    by_cases hok : st.pool.Refuses c ∨ st.pool.Frees (poolKey c.name)
    · rw [(step_insertWeight mem c).1 hok] at hstep
      cases hstep
      -- the entry is under another key, or nothing is changed
      have hother : ¬ st.pool.Refuses c → key ≠ poolKey c.name := fun hnot heq =>
        hkey (heq ▸ hok.resolve_left hnot)
      show ¬ (st.pool.insertWeight mem c).2.Intact
      refine MemPool.not_intact_iff.mpr ⟨key, fun hfrees => hkey ?_⟩
      rcases st.pool.insertWeight_table mem c with
        ⟨-, heq⟩ | ⟨hnot, -, usage, heq⟩ | ⟨hnot, -, usage, heq⟩
      · rwa [heq] at hfrees
      · rw [heq] at hfrees
        exact (MemPool.frees_of_entries_eq
          (MemPool.entries_put_of_ne _ (hother hnot) _ _)).mp hfrees
      · rw [heq] at hfrees
        exact (MemPool.frees_of_entries_eq
          (MemPool.entries_put_of_ne _ (hother hnot) _ _)).mp hfrees
    · rw [(step_insertWeight mem c).2 (fun hr => hok (.inl hr)) fun hf => hok (.inr hf)] at hstep
      cases hstep
  | putLruCache name key' =>
    obtain ⟨st₁, hrun, -, hpool⟩ := holds_put alloc h hfits key'
    rw [hrun] at hstep
    cases hstep
    rwa [hpool]
  | getLruCache name =>
    obtain ⟨st₁, hrun, -, hpool⟩ := holds_get alloc h hfits
    rw [hrun] at hstep
    cases hstep
    rwa [hpool]

/-- **A run with memory** from a pool in order does not fault. -/
theorem run_of_served (h : st.Holds) (hreached : MemPool.Reached st.pool)
    (hfits : ∀ call ∈ calls, call.Fits) (hserved : AllServed alloc st calls) :
    ∃ st', st.run alloc calls = .ok st' ∧ st'.Holds ∧ MemPool.Reached st'.pool := by
  induction calls generalizing st with
  | nil => exact ⟨st, rfl, h, hreached⟩
  | cons call calls ih =>
    obtain ⟨hfirst, hrest⟩ := hserved
    have hcall := hfits call (by simp)
    obtain ⟨st₁, hstep, hreached₁⟩ := reached_step alloc h hreached hcall hfirst
    rw [run, List.foldlM_cons, hstep]
    exact ih (holds_step h hcall hstep) hreached₁ (fun call hmem => hfits call (by simp [hmem]))
      (hrest st₁ hstep)

theorem run_of_broken (h : st.Holds) (hbroken : ¬ st.pool.Intact)
    (hfits : ∀ call ∈ calls, call.Fits) (hrun : st.run alloc calls = .ok st') :
    st'.Holds ∧ ¬ st'.pool.Intact := by
  induction calls generalizing st with
  | nil =>
    cases hrun
    exact ⟨h, hbroken⟩
  | cons call calls ih =>
    rw [run, List.foldlM_cons, bind_ok_iff] at hrun
    obtain ⟨st₁, hstep, hrun⟩ := hrun
    have hcall := hfits call (by simp)
    exact ih (holds_step h hcall hstep) (broken_stays h hcall hbroken hstep)
      (fun call hmem => hfits call (by simp [hmem])) hrun

/-- **A run that is short of memory once**, if it gets to its end, ends with a pool that cannot be
taken down. -/
theorem run_of_not_served (h : st.Holds) (hreached : MemPool.Reached st.pool)
    (hfits : ∀ call ∈ calls, call.Fits) (hserved : ¬ AllServed alloc st calls)
    (hrun : st.run alloc calls = .ok st') : st'.Holds ∧ ¬ st'.pool.Intact := by
  induction calls generalizing st with
  | nil => exact absurd trivial hserved
  | cons call calls ih =>
    rw [run, List.foldlM_cons, bind_ok_iff] at hrun
    obtain ⟨st₁, hstep, hrun⟩ := hrun
    have hcall := hfits call (by simp)
    have hrest : ∀ call ∈ calls, call.Fits := fun call hmem => hfits call (by simp [hmem])
    have hholds := holds_step h hcall hstep
    by_cases hfirst : call.Served st.pool
    · obtain ⟨st₂, hstep₂, hreached₂⟩ := reached_step alloc h hreached hcall hfirst
      obtain rfl : st₁ = st₂ := Except.ok.inj (hstep.symm.trans hstep₂)
      refine ih hholds hreached₂ hrest (fun hall => hserved ⟨hfirst, fun st₃ hstep₃ => ?_⟩) hrun
      rwa [← Except.ok.inj (hstep.symm.trans hstep₃)]
    · exact run_of_broken hholds (broken_step hreached hfirst hstep) hrest hrun

/-- **The teardown** comes to the structure of the pool if every buffer can be freed, and stops at a
buffer otherwise. -/
theorem destroyWeightPool_eq (h : st.Holds) {order : List Bytes}
    (horder : st.pool.Enumerates order) :
    (st.pool.Intact → st.destroyWeightPool order = .error .pool) ∧
    (¬ st.pool.Intact → ∃ key, st.destroyWeightPool order = .error (.data key)) := by
  obtain ⟨hok, hfault⟩ := MemPool.freeEntries st.pool horder.nodup
  obtain ⟨past, cells, hcells, -, -⟩ := h.cache
  obtain ⟨heap, hcache, -⟩ := LRUCache.destroyLruCache_ok hcells h.tight
  refine ⟨fun hintact => ?_, fun hbroken => ?_⟩
  · obtain ⟨pool', hloop⟩ := hok fun key _ e he => hintact key e he
    simp only [destroyWeightPool, hloop, hcache, h.inContext]
    rfl
  · obtain ⟨key, hkey⟩ := MemPool.not_intact_iff.mp hbroken
    have hmem : key ∈ order := (horder.mem_iff key).mpr fun hnone => hkey fun e he => by
      rw [hnone] at he
      cases he
    obtain ⟨key', hloop⟩ := hfault key hmem hkey
    exact ⟨key', by rw [destroyWeightPool, hloop]; rfl⟩

open MemPool (memoryWith insertVector)

end PoolState

end Peps
