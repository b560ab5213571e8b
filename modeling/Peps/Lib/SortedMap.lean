import Mathlib.Data.List.Nodup
import Mathlib.Data.List.Perm.Basic

/-!
# Sorted containers

`insertBy` puts an element before the first one it is smaller than. A `SortedMap` is a
dictionary whose iteration follows a numeric `rank` of its keys; no two of its keys have the same
rank, so a key that ties with another one can not be inserted at all. Clients reason through
`get?`: `mem_entries_iff` turns a statement about the entries into one about it.
-/

namespace Peps.Lib

section Insert

variable {α : Type}

def insertBy (before : α → α → Bool) (x : α) : List α → List α
  | [] => [x]
  | y :: ys => if before x y then x :: y :: ys else y :: insertBy before x ys

theorem insertBy_perm (before : α → α → Bool) (x : α) (l : List α) :
    (insertBy before x l).Perm (x :: l) := by
  induction l with
  | nil => exact List.Perm.refl _
  | cons y ys ih =>
    unfold insertBy
    split
    · exact List.Perm.refl _
    · exact (List.Perm.cons y ih).trans (List.Perm.swap x y ys)

@[simp] theorem mem_insertBy {before : α → α → Bool} {x y : α} {l : List α} :
    y ∈ insertBy before x l ↔ y = x ∨ y ∈ l := by
  rw [(insertBy_perm before x l).mem_iff, List.mem_cons]

-- taking the new element out again gives the old list
theorem filter_insertBy {before : α → α → Bool} {x : α} {l : List α} {keep : α → Bool}
    (hx : keep x = false) (hl : ∀ y ∈ l, keep y = true) : (insertBy before x l).filter keep = l := by
  induction l with
  | nil => simp [insertBy, hx]
  | cons y ys ih =>
    have hy := hl y (List.mem_cons_self ..)
    have hys := ih fun z hz => hl z (List.mem_cons_of_mem _ hz)
    unfold insertBy
    split
    · rw [List.filter_cons_of_neg (by simp [hx]), List.filter_eq_self.mpr hl]
    · rw [List.filter_cons_of_pos hy, hys]

end Insert

structure SortedMap {κ : Type} (rank : κ → Nat) (β : Type) where
  entries : List (κ × β)
  hranks : (entries.map fun entry => rank entry.1).Nodup
deriving DecidableEq

namespace SortedMap

variable {κ β : Type} {rank : κ → Nat}

def empty : SortedMap rank β := ⟨[], List.nodup_nil⟩

def keys (m : SortedMap rank β) : List κ := m.entries.map Prod.fst

theorem nodup_keys (m : SortedMap rank β) : m.keys.Nodup := by
  have h : (m.keys.map rank).Nodup := by
    rw [keys, List.map_map]
    exact m.hranks
  exact h.of_map

/-- Add a key that ties with none of those present. -/
def insertNew (m : SortedMap rank β) (k : κ) (v : β) (h : ∀ k' ∈ m.keys, rank k' ≠ rank k) :
    SortedMap rank β where
  entries := insertBy (fun a b => decide (rank a.1 < rank b.1)) (k, v) m.entries
  hranks := by
    rw [((insertBy_perm _ (k, v) m.entries).map _).nodup_iff, List.map_cons, List.nodup_cons]
    refine ⟨fun hmem => ?_, m.hranks⟩
    obtain ⟨entry, hentry, heq⟩ := List.mem_map.mp hmem
    exact h entry.1 (List.mem_map_of_mem hentry) heq

theorem keys_insertNew {m : SortedMap rank β} {k : κ} {v : β}
    (h : ∀ k' ∈ m.keys, rank k' ≠ rank k) (j : κ) :
    j ∈ (m.insertNew k v h).keys ↔ j = k ∨ j ∈ m.keys := by
  unfold keys
  show j ∈ (insertBy _ (k, v) m.entries).map Prod.fst ↔ _
  rw [((insertBy_perm _ (k, v) m.entries).map Prod.fst).mem_iff]
  simp

section Lookup

variable [DecidableEq κ]

def get? (m : SortedMap rank β) (k : κ) : Option β :=
  (m.entries.find? fun entry => entry.1 = k).map Prod.snd

/-- Replace the value of a key; nothing happens to a map without the key. -/
def set (m : SortedMap rank β) (k : κ) (v : β) : SortedMap rank β where
  entries := m.entries.map fun entry => (entry.1, if entry.1 = k then v else entry.2)
  hranks := by
    rw [List.map_map]
    exact m.hranks

def erase (m : SortedMap rank β) (k : κ) : SortedMap rank β where
  entries := m.entries.filter fun entry => entry.1 ≠ k
  hranks := m.hranks.sublist (List.Sublist.map _ List.filter_sublist)

/-- The entries are the graph of `get?`. -/
theorem mem_entries_iff {m : SortedMap rank β} {k : κ} {v : β} :
    (k, v) ∈ m.entries ↔ m.get? k = some v := by
  unfold get?
  rw [Option.map_eq_some_iff]
  constructor
  · intro hmem
    cases hfind : m.entries.find? fun entry => entry.1 = k with
    | none =>
      have := List.find?_eq_none.mp hfind (k, v) hmem
      simp at this
    | some entry =>
      have hkey : entry.1 = k := by simpa using List.find?_some hfind
      have heq : entry = (k, v) := by
        refine List.inj_on_of_nodup_map m.hranks (List.mem_of_find?_eq_some hfind) hmem ?_
        rw [hkey]
      exact ⟨entry, rfl, by rw [heq]⟩
  · rintro ⟨entry, hfind, rfl⟩
    have hkey : entry.1 = k := by simpa using List.find?_some hfind
    rw [← hkey]
    exact List.mem_of_find?_eq_some hfind

theorem mem_keys_iff {m : SortedMap rank β} {k : κ} : k ∈ m.keys ↔ ∃ v, m.get? k = some v := by
  unfold keys
  rw [List.mem_map]
  constructor
  · rintro ⟨entry, hmem, rfl⟩
    exact ⟨entry.2, mem_entries_iff.mp hmem⟩
  · rintro ⟨v, hv⟩
    exact ⟨(k, v), mem_entries_iff.mpr hv, rfl⟩

theorem get?_eq_none_iff {m : SortedMap rank β} {k : κ} : m.get? k = none ↔ k ∉ m.keys := by
  rw [mem_keys_iff]
  cases m.get? k with
  | none => simp
  | some v => simp

@[simp] theorem get?_empty (k : κ) : (empty : SortedMap rank β).get? k = none := rfl

theorem get?_insertNew {m : SortedMap rank β} {k : κ} {v : β}
    (h : ∀ k' ∈ m.keys, rank k' ≠ rank k) (j : κ) :
    (m.insertNew k v h).get? j = if j = k then some v else m.get? j := by
  ext w
  rw [← mem_entries_iff]
  show (j, w) ∈ insertBy _ (k, v) m.entries ↔ _
  rw [mem_insertBy, mem_entries_iff, Prod.mk.injEq]
  by_cases hj : j = k
  · subst hj
    have hnone : m.get? j = none := get?_eq_none_iff.mpr fun hmem => h j hmem rfl
    simp [hnone, eq_comm]
  · simp [hj]

theorem get?_set (m : SortedMap rank β) (k : κ) (v : β) (j : κ) :
    (m.set k v).get? j = if j = k then (m.get? k).map fun _ => v else m.get? j := by
  ext w
  rw [← mem_entries_iff]
  show (j, w) ∈ m.entries.map _ ↔ _
  simp only [List.mem_map, Prod.mk.injEq, Prod.exists]
  by_cases hj : j = k
  · subst hj
    rw [if_pos rfl, Option.map_eq_some_iff]
    constructor
    · rintro ⟨j', u, hmem, rfl, rfl⟩
      exact ⟨u, mem_entries_iff.mp hmem, by simp⟩
    · rintro ⟨u, hu, rfl⟩
      exact ⟨j, u, mem_entries_iff.mpr hu, rfl, by simp⟩
  · rw [if_neg hj]
    constructor
    · rintro ⟨j', u, hmem, rfl, rfl⟩
      rw [if_neg hj]
      exact mem_entries_iff.mp hmem
    · intro hw
      exact ⟨j, w, mem_entries_iff.mpr hw, rfl, by rw [if_neg hj]⟩

theorem get?_erase (m : SortedMap rank β) (k j : κ) :
    (m.erase k).get? j = if j = k then none else m.get? j := by
  ext w
  rw [← mem_entries_iff]
  show (j, w) ∈ m.entries.filter _ ↔ _
  rw [List.mem_filter, mem_entries_iff]
  by_cases hj : j = k
  · simp [hj]
  · simp [hj]

@[simp] theorem keys_set (m : SortedMap rank β) (k : κ) (v : β) : (m.set k v).keys = m.keys := by
  simp [keys, set]

theorem mem_keys_erase {m : SortedMap rank β} {k j : κ} :
    j ∈ (m.erase k).keys ↔ j ≠ k ∧ j ∈ m.keys := by
  rw [mem_keys_iff, mem_keys_iff, get?_erase]
  by_cases hj : j = k
  · simp [hj]
  · simp [hj]

theorem length_keys_erase {m : SortedMap rank β} {k : κ} (h : k ∈ m.keys) :
    (m.erase k).keys.length < m.keys.length := by
  obtain ⟨v, hv⟩ := mem_keys_iff.mp h
  rw [keys, keys, List.length_map, List.length_map]
  refine List.length_filter_lt_length_iff_exists.mpr ⟨(k, v), mem_entries_iff.mpr hv, by simp⟩

/-- A key put in and taken out leaves the map as it was. -/
theorem erase_insertNew {m : SortedMap rank β} {k : κ} {v : β}
    (h : ∀ k' ∈ m.keys, rank k' ≠ rank k) : (m.insertNew k v h).erase k = m := by
  have hentries : ((m.insertNew k v h).erase k).entries = m.entries := by
    refine filter_insertBy (by simp) fun entry hmem => ?_
    have hne : entry.1 ≠ k := fun heq => h entry.1 (List.mem_map_of_mem hmem) (by rw [heq])
    simpa using hne
  cases m
  simpa [erase] using hentries

end Lookup

end SortedMap

end Peps.Lib
