import Peps.Lib.LinkedHeap
import Peps.Lib.Lru
import Peps.Pool.WeightPool

/-!
# `model_buffer.c` — the LRU cache

The cache is a doubly linked list of entries, most recent first, with a pointer to each end. The
functions are modelled on a heap of entries, statement by statement; an access through a pointer
that leads nowhere, or a walk that does not end, has no result.

`Represents` says which list of cells is in the heap, and each function is shown to do to that list
what it is for: `lru_cache_move_to_head` takes a cell from the middle to the front, the eviction
takes the last cell away, the insertion adds one in front. From this the cache follows the abstract
list of `Lib.Lru` call by call (`step_refines`).
-/

namespace Peps

open Lib

/-- The fields of an `LRUCacheEntry` other than its pointers. -/
structure LRUSlot (V : Type) where
  name : Bytes
  entry : V

abbrev LRUCacheEntry (V : Type) := Node (LRUSlot V)

/-- An `LRUCache`, with the memory its pointers go into. -/
structure LRUCache (V : Type) where
  heap : Heap (LRUSlot V)
  head : Option Addr
  tail : Option Addr
  capacity : Nat
  size : Nat

namespace LRUCache

variable {V : Type}

def createLruCache (capacity : Nat) : LRUCache V where
  heap := Heap.empty
  head := none
  tail := none
  capacity := capacity
  size := 0

def lruCacheMoveToHead (cache : LRUCache V) (entry : Addr) : Option (LRUCache V) :=
  if cache.head = some entry then some cache
  else do
    -- remove from current position
    let e ← cache.heap.cell entry
    let heap ← cache.heap.relinkNext e.prev e.next
    let e ← heap.cell entry
    let heap ← heap.relinkPrev e.next e.prev
    let e ← heap.cell entry
    let tail := if cache.tail = some entry then e.prev else cache.tail
    -- insert at head
    let heap ← heap.modify entry fun n => { n with next := cache.head }
    let heap ← heap.modify entry fun n => { n with prev := none }
    let heap ← heap.relinkPrev cache.head (some entry)
    some { cache with heap, head := some entry, tail := if tail = none then some entry else tail }

/-- `while (current != NULL) …` with `strcmp(current->name, name) == 0`. -/
def findEntry (cache : LRUCache V) (name : Bytes) : Option (Option Addr) :=
  seek cache.heap (fun slot => slot.name = name) cache.size cache.head

/-- The block that removes the least recently used entry. -/
def evict (cache : LRUCache V) : Option (LRUCache V) :=
  match cache.tail with
  | none => some cache
  | some tail => do
      let t ← cache.heap.cell tail
      let heap ← cache.heap.relinkNext t.prev none
      let t ← heap.cell tail
      some { cache with
        heap := heap.free tail
        tail := t.prev
        head := if cache.head = some tail then none else cache.head
        size := cache.size - 1 }

/-- The block that inserts a new entry; `strlcpy` keeps `NAMEDATALEN - 1` bytes. -/
def insertNew (alloc : Allocator (LRUSlot V)) (cache : LRUCache V) (name : Bytes) (entry : V) :
    Option (LRUCache V) := do
  let new_entry := alloc.next cache.heap
  let heap := cache.heap.write new_entry
    ⟨⟨name.take (NAMEDATALEN - 1), entry⟩, none, cache.head⟩
  let heap ← heap.relinkPrev cache.head (some new_entry)
  some { cache with
    heap
    head := some new_entry
    tail := if cache.tail = none then some new_entry else cache.tail
    size := cache.size + 1 }

def putLruCache (alloc : Allocator (LRUSlot V)) (cache : LRUCache V) (name : Bytes) (entry : V) :
    Option (LRUCache V) := do
  match ← cache.findEntry name with
  | some current =>
      let heap ← cache.heap.modify current fun n => { n with val := { n.val with entry } }
      lruCacheMoveToHead { cache with heap } current
  | none =>
      let cache ← if cache.capacity ≤ cache.size then cache.evict else some cache
      cache.insertNew alloc name entry

def getLruCache (cache : LRUCache V) (name : Bytes) : Option (LRUCache V × Option V) := do
  match ← cache.findEntry name with
  | some current =>
      let cache ← cache.lruCacheMoveToHead current
      let n ← cache.heap.cell current
      some (cache, some n.val.entry)
  | none => some (cache, none)

def step (alloc : Allocator (LRUSlot V)) (cache : LRUCache V) :
    Lru.Call Bytes V → Option (LRUCache V × Option V)
  | .put name entry => (cache.putLruCache alloc name entry).map fun cache => (cache, none)
  | .get name => cache.getLruCache name

/-- Any sequence of calls on a new cache, with what they return. -/
def run (alloc : Allocator (LRUSlot V)) (capacity : Nat) (calls : List (Lru.Call Bytes V)) :
    Option (LRUCache V × List (Option V)) :=
  calls.foldlM (fun s call => do
    let (cache, reply) ← s.1.step alloc call
    some (cache, s.2 ++ [reply])) (createLruCache capacity, [])

/-! ## The cells in the heap -/

/-- The cells `l` are the cache's list. -/
structure Represents (cache : LRUCache V) (l : List (Addr × LRUSlot V)) : Prop where
  chain : Chain cache.heap none l none
  nodup : (addrs l).Nodup
  head : cache.head = firstOf l none
  tail : cache.tail = lastOf none l
  size : cache.size = l.length

theorem represents_create (capacity : Nat) :
    Represents (createLruCache capacity : LRUCache V) [] :=
  ⟨trivial, List.nodup_nil, rfl, rfl, rfl⟩

/-- **`lru_cache_move_to_head`** takes a cell from where it is to the front. -/
theorem moveToHead_ok {cache : LRUCache V} {l₁ l₂ : List (Addr × LRUSlot V)} {a : Addr}
    {slot : LRUSlot V} (h : cache.Represents (l₁ ++ (a, slot) :: l₂)) :
    ∃ cache', cache.lruCacheMoveToHead a = some cache' ∧
      cache'.Represents ((a, slot) :: (l₁ ++ l₂)) ∧ cache'.capacity = cache.capacity := by
  cases l₁ with
  | nil =>
    have hhead : cache.head = some a := h.head
    exact ⟨cache, by rw [lruCacheMoveToHead, if_pos hhead], h, rfl⟩
  | cons x l₁ =>
    obtain ⟨-, hcell, -⟩ := chain_append.mp h.chain
    obtain ⟨h₁, h₂, hrun₁, hrun₂, hcell₁, hcell₂, hchain⟩ := h.chain.unlink h.nodup
    rw [hcell] at hcell₁ hcell₂
    obtain ⟨ha, hnodup⟩ := nodup_cut h.nodup
    have hhead : cache.head = some x.1 := h.head
    have hne : cache.head ≠ some a := by
      rw [hhead, ne_eq, Option.some.injEq]
      exact fun hxa => ha (by simp [hxa])
    have htail : (if cache.tail = some a then lastOf none (x :: l₁) else cache.tail) =
        lastOf none (x :: l₁ ++ l₂) := by
      rw [h.tail]
      exact lastOf_cut fun ha₂ => ha (by simp [ha₂])
    -- the two writes to the cell itself
    obtain ⟨h₃, hh₃⟩ : ∃ h₃, h₃ = (h₂.write a ⟨slot, lastOf none (x :: l₁), cache.head⟩).write a
      ⟨slot, none, cache.head⟩ := ⟨_, rfl⟩
    have hcell₃ : h₃.cell a = some ⟨slot, none, firstOf (x :: l₁ ++ l₂) none⟩ := by
      rw [hh₃, Heap.cell_write, if_pos rfl, hhead]
      rfl
    have hchain₃ : Chain h₃ none (x :: l₁ ++ l₂) none := hchain.frame fun b hb => by
      have hba : b ≠ a := fun hba => ha (hba ▸ hb)
      rw [hh₃, Heap.cell_write_of_ne _ _ hba, Heap.cell_write_of_ne _ _ hba]
    obtain ⟨h₄, hrun₄, hchain₄⟩ := hchain₃.pushFront hnodup ha hcell₃
    have hfirst : firstOf (x :: l₁ ++ l₂) none = cache.head := hhead.symm
    rw [hfirst] at hrun₄
    refine ⟨⟨h₄, some a, lastOf none (x :: l₁ ++ l₂), cache.capacity, cache.size⟩, ?_,
      ⟨hchain₄, List.nodup_cons.mpr ⟨ha, hnodup⟩, rfl, ?_, ?_⟩, rfl⟩
    · have hlast : lastOf none (x :: l₁ ++ l₂) ≠ none := fun hnone => by
        simpa using lastOf_eq_none.mp hnone
      rw [lruCacheMoveToHead, if_neg hne]
      simp only [hcell, hrun₁, hcell₁, hrun₂, hcell₂, Heap.modify_eq hcell₂, Option.bind_eq_bind,
        Option.bind_some, htail, if_neg hlast]
      rw [Heap.modify_eq (by rw [Heap.cell_write, if_pos rfl]), Option.bind_some, ← hh₃, hrun₄]
      rfl
    · obtain ⟨b, -, hlast⟩ := lastOf_of_ne_nil (List.cons_ne_nil x (l₁ ++ l₂))
      show lastOf none (x :: (l₁ ++ l₂)) = lastOf (some a) (x :: (l₁ ++ l₂))
      rw [hlast, hlast]
    · rw [show cache.size = _ from h.size]
      simp
      omega

/-- **The eviction** takes the last cell away. -/
theorem evict_ok {cache : LRUCache V} {l : List (Addr × LRUSlot V)} {a : Addr} {slot : LRUSlot V}
    (h : cache.Represents (l ++ [(a, slot)])) :
    ∃ cache', cache.evict = some cache' ∧ cache'.Represents l ∧
      cache'.capacity = cache.capacity := by
  obtain ⟨hfront, hcell, -⟩ := chain_append.mp h.chain
  obtain ⟨ha, hnodup⟩ := nodup_cut h.nodup
  rw [List.append_nil] at ha hnodup
  obtain ⟨h₁, hrun₁, hfront₁, hoff₁⟩ := hfront.relinkNext hnodup none
  have hcell₁ : h₁.cell a = some ⟨slot, lastOf none l, none⟩ := (hoff₁ a ha).trans hcell
  have htail : cache.tail = some a := by
    rw [h.tail, lastOf_append]
    rfl
  have hhead : (if cache.head = some a then none else cache.head) = firstOf l none := by
    rw [h.head]
    cases l with
    | nil => exact if_pos rfl
    | cons x l => exact if_neg fun hxa => ha (by simp [← Option.some.inj hxa])
  refine ⟨⟨h₁.free a, firstOf l none, lastOf none l, cache.capacity, cache.size - 1⟩, ?_,
    ⟨hfront₁.frame fun b hb => ?_, hnodup, rfl, rfl, ?_⟩, rfl⟩
  · have hnext : firstOf ([] : List (Addr × LRUSlot V)) none = none := rfl
    rw [hnext] at hcell
    rw [evict, htail]
    simp only [hcell, hrun₁, hcell₁, Option.bind_eq_bind, Option.bind_some, hhead]
  · have hba : b ≠ a := fun hba => ha (hba ▸ hb)
    rw [Heap.cell_free, if_neg hba]
  · show cache.size - 1 = _
    rw [h.size]
    simp

/-- **The insertion** adds a cell in front. -/
theorem insertNew_ok (alloc : Allocator (LRUSlot V)) {cache : LRUCache V}
    {l : List (Addr × LRUSlot V)} (h : cache.Represents l) (name : Bytes) (entry : V) :
    ∃ cache' a, cache.insertNew alloc name entry = some cache' ∧
      cache'.Represents ((a, ⟨name.take (NAMEDATALEN - 1), entry⟩) :: l) ∧
      cache'.capacity = cache.capacity := by
  obtain ⟨a, ha⟩ : ∃ a, a = alloc.next cache.heap := ⟨_, rfl⟩
  have hfresh : a ∉ addrs l := fun hmem => by
    obtain ⟨n, hn⟩ := h.chain.cell_isSome hmem
    rw [ha, alloc.hfresh] at hn
    cases hn
  obtain ⟨h₁, hh₁⟩ : ∃ h₁, h₁ = cache.heap.write a
    ⟨⟨name.take (NAMEDATALEN - 1), entry⟩, none, cache.head⟩ := ⟨_, rfl⟩
  have hcell₁ : h₁.cell a =
      some ⟨⟨name.take (NAMEDATALEN - 1), entry⟩, none, firstOf l none⟩ := by
    rw [hh₁, Heap.cell_write, if_pos rfl, h.head]
  have hchain₁ : Chain h₁ none l none := h.chain.frame fun b hb => by
    have hba : b ≠ a := fun hba => hfresh (hba ▸ hb)
    rw [hh₁, Heap.cell_write_of_ne _ _ hba]
  obtain ⟨h₂, hrun₂, hchain₂⟩ := hchain₁.pushFront h.nodup hfresh hcell₁
  refine ⟨⟨h₂, some a, if cache.tail = none then some a else cache.tail, cache.capacity,
    cache.size + 1⟩, a, ?_, ⟨hchain₂, List.nodup_cons.mpr ⟨hfresh, h.nodup⟩, rfl, ?_, ?_⟩, rfl⟩
  · rw [← h.head] at hrun₂
    rw [insertNew, ← ha, ← hh₁, hrun₂]
    rfl
  · show (if cache.tail = none then some a else cache.tail) = lastOf (some a) l
    rw [h.tail]
    cases l with
    | nil => exact if_pos rfl
    | cons x l =>
      obtain ⟨b, -, hlast⟩ := lastOf_of_ne_nil (List.cons_ne_nil x l)
      rw [hlast, hlast, if_neg (by simp)]
  · show cache.size + 1 = _
    rw [h.size]
    rfl

/-! ## Refinement -/

/-- What the cells hold. -/
def contents (l : List (Addr × LRUSlot V)) : List (Bytes × V) :=
  l.map fun x => (x.2.name, x.2.entry)

/-- The cache holds the abstract list `l`. -/
def Refines (capacity : Nat) (cache : LRUCache V) (l : List (Bytes × V)) : Prop :=
  ∃ cells, cache.Represents cells ∧ contents cells = l ∧ cache.capacity = capacity

/-- **The walk** finds the cell of a name that is in the list. -/
theorem findEntry_hit {cache : LRUCache V} {cells : List (Addr × LRUSlot V)} {name : Bytes}
    (h : cache.Represents cells) (hmem : name ∈ (contents cells).map Prod.fst) :
    ∃ l₁ a entry l₂, cells = l₁ ++ (a, ⟨name, entry⟩) :: l₂ ∧
      cache.findEntry name = some (some a) := by
  have hfind := h.chain.seek_eq (fun slot => decide (slot.name = name)) (Nat.le_of_eq h.size.symm)
  rw [← h.head] at hfind
  cases hcell : cells.find? fun x => decide (x.2.name = name) with
  | none =>
    simp only [contents, List.map_map, List.mem_map, Function.comp_apply] at hmem
    obtain ⟨x, hx, hxname⟩ := hmem
    exact absurd hxname (by simpa using List.find?_eq_none.mp hcell x hx)
  | some x =>
    obtain ⟨hx, l₁, l₂, hcells, -⟩ := List.find?_eq_some_iff_append.mp hcell
    obtain ⟨a, name', entry⟩ := x
    obtain rfl : name' = name := by simpa using hx
    exact ⟨l₁, a, entry, l₂, hcells, by rw [findEntry, hfind, hcell]; rfl⟩

theorem findEntry_miss {cache : LRUCache V} {cells : List (Addr × LRUSlot V)} {name : Bytes}
    (h : cache.Represents cells) (hmem : name ∉ (contents cells).map Prod.fst) :
    cache.findEntry name = some none := by
  have hfind := h.chain.seek_eq (fun slot => decide (slot.name = name)) (Nat.le_of_eq h.size.symm)
  rw [← h.head] at hfind
  rw [findEntry, hfind, List.find?_eq_none.mpr]
  · rfl
  · intro x hx hname
    exact hmem (List.mem_map.mpr ⟨_, List.mem_map_of_mem hx, by simpa using hname⟩)

theorem contents_split (l₁ l₂ : List (Addr × LRUSlot V)) (a : Addr) (slot : LRUSlot V) :
    contents (l₁ ++ (a, slot) :: l₂) = contents l₁ ++ (slot.name, slot.entry) :: contents l₂ := by
  simp [contents]

/-- A new entry in a cell, `current->entry = entry`. -/
theorem represents_setEntry {cache : LRUCache V} {l₁ l₂ : List (Addr × LRUSlot V)} {a : Addr}
    {name : Bytes} {entry₀ : V} (h : cache.Represents (l₁ ++ (a, ⟨name, entry₀⟩) :: l₂)) (entry : V) :
    ∃ heap, cache.heap.modify a (fun n => { n with val := { n.val with entry } }) = some heap ∧
      Represents { cache with heap } (l₁ ++ (a, ⟨name, entry⟩) :: l₂) := by
  obtain ⟨hfront, hcell, hback⟩ := chain_append.mp h.chain
  obtain ⟨ha, -⟩ := nodup_cut h.nodup
  have hsame : ∀ b ∈ addrs (l₁ ++ l₂), ∀ n, (cache.heap.write a n).cell b = cache.heap.cell b :=
    fun b hb n => Heap.cell_write_of_ne _ _ fun hba => ha (hba ▸ hb)
  refine ⟨_, Heap.modify_eq hcell _, ⟨chain_append.mpr ⟨?_, ?_, ?_⟩, by simpa using h.nodup, ?_, ?_, ?_⟩⟩
  · exact hfront.frame fun b hb => hsame b (by simp [hb]) _
  · rw [Heap.cell_write, if_pos rfl]
  · exact hback.frame fun b hb => hsame b (by simp [hb]) _
  · rw [show cache.head = _ from h.head, firstOf_append, firstOf_append]
    rfl
  · rw [show cache.tail = _ from h.tail, lastOf_append, lastOf_append]
    rfl
  · rw [show cache.size = _ from h.size]
    simp

/-- **`put_lru_cache`** does what the abstract list does. -/
theorem put_refines (alloc : Allocator (LRUSlot V)) {capacity : Nat} (hcap : 1 ≤ capacity)
    {cache : LRUCache V} {l : List (Bytes × V)} (h : cache.Refines capacity l)
    (hnodup : (l.map Prod.fst).Nodup) {name : Bytes} (hname : name.length < NAMEDATALEN) (entry : V) :
    ∃ cache', cache.putLruCache alloc name entry = some cache' ∧
      cache'.Refines capacity (Lru.put capacity l name entry).1 := by
  obtain ⟨cells, hcells, rfl, rfl⟩ := h
  have hkey : name.take (NAMEDATALEN - 1) = name := List.take_of_length_le (by omega)
  have hlen : cache.size = (contents cells).length := by rw [hcells.size, contents, List.length_map]
  unfold Lru.put
  split
  · -- the name is in the list: new entry, and to the front
    next hmem =>
    obtain ⟨l₁, a, entry₀, l₂, rfl, hfind⟩ := findEntry_hit hcells hmem
    obtain ⟨heap, hset, hset'⟩ := represents_setEntry hcells entry
    obtain ⟨cache', hmove, hmove', hcapacity⟩ := moveToHead_ok hset'
    rw [contents_split] at hnodup
    refine ⟨cache', ?_, _, hmove', ?_, hcapacity⟩
    · rw [putLruCache, hfind]
      simp only [Option.bind_eq_bind, Option.bind_some, hset]
      exact hmove
    · rw [contents_split, Lru.moveToFront_split hnodup]
      simp [contents]
  next hmem =>
  have hmiss := findEntry_miss hcells hmem
  split
  · -- no room: the last cell goes
    next hfull =>
    cases cells using List.reverseRecOn with
    | nil => simp [contents] at hfull; omega
    | append_singleton cells x =>
      obtain ⟨cache₁, hevict, hcells₁, hcapacity₁⟩ := evict_ok hcells
      obtain ⟨cache₂, a, hinsert, hcells₂, hcapacity₂⟩ := insertNew_ok alloc hcells₁ name entry
      refine ⟨cache₂, ?_, _, hcells₂, ?_, hcapacity₂.trans hcapacity₁⟩
      · rw [putLruCache, hmiss]
        simp only [Option.bind_eq_bind, Option.bind_some]
        rw [if_pos (by omega), hevict]
        exact hinsert
      · simp [contents, hkey]
  · next hroom =>
    obtain ⟨cache₂, a, hinsert, hcells₂, hcapacity₂⟩ := insertNew_ok alloc hcells name entry
    refine ⟨cache₂, ?_, _, hcells₂, ?_, hcapacity₂⟩
    · rw [putLruCache, hmiss]
      simp only [Option.bind_eq_bind, Option.bind_some]
      rw [if_neg (by omega)]
      exact hinsert
    · simp [contents, hkey]

/-- **`get_lru_cache`** does what the abstract list does. -/
theorem get_refines {capacity : Nat} {cache : LRUCache V} {l : List (Bytes × V)}
    (h : cache.Refines capacity l) (hnodup : (l.map Prod.fst).Nodup) (name : Bytes) :
    ∃ cache', cache.getLruCache name = some (cache', (Lru.get l name).2) ∧
      cache'.Refines capacity (Lru.get l name).1 := by
  obtain ⟨cells, hcells, rfl, rfl⟩ := h
  by_cases hmem : name ∈ (contents cells).map Prod.fst
  · obtain ⟨l₁, a, entry, l₂, rfl, hfind⟩ := findEntry_hit hcells hmem
    obtain ⟨cache', hmove, hmove', hcapacity⟩ := moveToHead_ok hcells
    rw [contents_split] at hnodup
    have hlook : Lru.lookup (contents (l₁ ++ (a, ⟨name, entry⟩) :: l₂)) name = some entry := by
      rw [contents_split]
      exact Lru.lookup_split hnodup
    unfold Lru.get
    rw [hlook]
    refine ⟨cache', ?_, _, hmove', ?_, hcapacity⟩
    · rw [getLruCache, hfind]
      simp only [Option.bind_eq_bind, Option.bind_some, hmove, hmove'.chain.1]
    · show _ = Lru.moveToFront _ name entry
      rw [contents_split, Lru.moveToFront_split hnodup]
      simp [contents]
  · have hlook := Lru.lookup_eq_none.mpr hmem
    unfold Lru.get
    rw [hlook]
    refine ⟨cache, ?_, cells, hcells, rfl, rfl⟩
    rw [getLruCache, findEntry_miss hcells hmem]
    rfl

theorem step_refines (alloc : Allocator (LRUSlot V)) {capacity : Nat} (hcap : 1 ≤ capacity)
    {cache : LRUCache V} {l : List (Bytes × V)} (h : cache.Refines capacity l)
    (hnodup : (l.map Prod.fst).Nodup) {call : Lru.Call Bytes V}
    (hname : call.name.length < NAMEDATALEN) :
    ∃ cache', cache.step alloc call = some (cache', (Lru.step capacity l call).2.reply) ∧
      cache'.Refines capacity (Lru.step capacity l call).1 := by
  cases call with
  | put name entry =>
    have hname : name.length < NAMEDATALEN := hname
    obtain ⟨cache', hput, hrefines⟩ := put_refines alloc hcap h hnodup hname entry
    exact ⟨cache', by rw [step, hput]; rfl, hrefines⟩
  | get name => exact get_refines h hnodup name

/-- **Every run** of the cache is a run of the abstract list, with the same replies. -/
theorem run_refines (alloc : Allocator (LRUSlot V)) {capacity : Nat} (hcap : 1 ≤ capacity)
    {calls : List (Lru.Call Bytes V)} (hnames : ∀ call ∈ calls, call.name.length < NAMEDATALEN) :
    ∃ cache, run alloc capacity calls =
        some (cache, (Lru.run capacity calls).2.map Lru.Event.reply) ∧
      cache.Refines capacity (Lru.run capacity calls).1 := by
  induction calls using List.reverseRecOn with
  | nil => exact ⟨_, rfl, [], represents_create capacity, rfl, rfl⟩
  | append_singleton calls call ih =>
    obtain ⟨cache, hrun, hrefines⟩ := ih fun call hcall => hnames call (by simp [hcall])
    obtain ⟨cache', hstep, hrefines'⟩ := step_refines alloc hcap hrefines
      (Lru.run_valid hcap calls).nodup (hnames call (by simp))
    rw [Lru.run_append_singleton]
    refine ⟨cache', ?_, hrefines'⟩
    rw [run] at hrun
    rw [run, List.foldlM_append, hrun]
    simp only [Option.bind_eq_bind, Option.bind_some, List.foldlM_cons, List.foldlM_nil, hstep,
      List.map_append, List.map_singleton]
    rfl

/-- What a reader of the cache sees of the abstract list: along `next` from the head, along
`prev` from the tail, and in the counters. The walks end, so more fuel shows nothing more. -/
structure Shows (cache : LRUCache V) (l : List (Bytes × V)) : Prop where
  forward : ∀ fuel ≥ l.length, (followNext cache.heap fuel cache.head).map
    (fun slot => (slot.name, slot.entry)) = l
  backward : ∀ fuel ≥ l.length, (followPrev cache.heap fuel cache.tail).map
    (fun slot => (slot.name, slot.entry)) = l.reverse
  ends : cache.head = none ↔ cache.tail = none
  size : cache.size = l.length

theorem Refines.shows {capacity : Nat} {cache : LRUCache V} {l : List (Bytes × V)}
    (h : cache.Refines capacity l) : cache.Shows l := by
  obtain ⟨cells, hcells, rfl, -⟩ := h
  have hlen : (contents cells).length = cells.length := by simp [contents]
  refine ⟨fun fuel hfuel => ?_, fun fuel hfuel => ?_, ?_, hcells.size.trans hlen.symm⟩
  · rw [hcells.head, hcells.chain.followNext_eq (by omega), List.map_map]
    rfl
  · rw [hcells.tail, hcells.chain.followPrev_eq (by omega), List.map_reverse, List.map_map]
    rfl
  · rw [hcells.head, hcells.tail, firstOf_eq_none, lastOf_eq_none]

/-- **The cache is an LRU cache.** For every capacity, allocator and sequence of calls the
functions run without a wild access, the pointers show the abstract most-recent-first list, and
that list and every reply and eviction are the ones the history of the calls asks for. -/
theorem lruCache_correct (alloc : Allocator (LRUSlot V)) {capacity : Nat} (hcap : 1 ≤ capacity)
    {calls : List (Lru.Call Bytes V)} (hnames : ∀ call ∈ calls, call.name.length < NAMEDATALEN) :
    ∃ cache l events, Lru.run capacity calls = (l, events) ∧
      run alloc capacity calls = some (cache, events.map Lru.Event.reply) ∧
      cache.Shows l ∧ cache.capacity = capacity ∧ Lru.Valid capacity l events ∧
      ∀ before e after, events = before ++ e :: after → Lru.Explained capacity before e := by
  obtain ⟨cache, hrun, hrefines⟩ := run_refines alloc hcap hnames
  have hshows := hrefines.shows
  obtain ⟨-, -, -, hcapacity⟩ := hrefines
  exact ⟨cache, _, _, rfl, hrun, hshows, hcapacity, Lru.run_valid hcap calls,
    fun _ _ _ hsplit => Lru.run_explained hcap calls hsplit⟩

/-- Two names in a cache for one: the second evicts the first. -/
theorem lruCache_twoNames :
    ∃ cache l events, Lru.run 1 [.put [97] 1, .put [98] 2, .get [97], .get [98]] = (l, events) ∧
      run (Allocator.above (LRUSlot Nat)) 1 [.put [97] 1, .put [98] 2, .get [97], .get [98]] =
        some (cache, events.map Lru.Event.reply) ∧
      cache.Shows l ∧ cache.capacity = 1 ∧ Lru.Valid 1 l events ∧
      ∀ before e after, events = before ++ e :: after → Lru.Explained 1 before e :=
  lruCache_correct (Allocator.above (LRUSlot Nat)) (by decide) (by decide)

end LRUCache

end Peps
