import Mathlib.Data.List.Basic

/-!
# Hash-consing tables

A table of values under keys, filled by a `get or create` discipline: a request computes
its key, takes the stored value when the key is present and otherwise builds and stores a
new one. `Built` is the invariant such a table keeps: every entry was built for some
request with that key. What a hit returns is then the value of an *earlier* request with
the same key, so the table is transparent exactly as far as equal keys mean equal values.
-/

namespace Peps.Lib

variable {κ β ρ : Type}

/-- The value stored under `key`. -/
def lookupKey [DecidableEq κ] (table : List (κ × β)) (key : κ) : Option β :=
  (table.find? (fun entry => entry.1 = key)).map Prod.snd

theorem mem_of_lookupKey [DecidableEq κ] {table : List (κ × β)} {key : κ} {value : β}
    (h : lookupKey table key = some value) : (key, value) ∈ table := by
  unfold lookupKey at h
  obtain ⟨⟨k, v⟩, hfind, hv⟩ := Option.map_eq_some_iff.mp h
  have hk : k = key := by simpa using List.find?_some hfind
  have hmem := List.mem_of_find?_eq_some hfind
  rw [hk, show v = value from hv] at hmem
  exact hmem

/-- Every entry of the table answers some request `r` made before: `r` has the entry's key
and its value stands for `r`. -/
def Built (key : ρ → κ) (stands : ρ → β → Prop) (made : List ρ) (table : List (κ × β)) :
    Prop :=
  ∀ k v, (k, v) ∈ table → ∃ r ∈ made, key r = k ∧ stands r v

theorem Built.nil (key : ρ → κ) (stands : ρ → β → Prop) (made : List ρ) :
    Built key stands made [] := by
  intro k v h
  simp at h

/-- More requests on record never hurt. -/
theorem Built.mono {key : ρ → κ} {stands : ρ → β → Prop} {made made' : List ρ}
    {table : List (κ × β)} (h : Built key stands made table) (hsub : made ⊆ made') :
    Built key stands made' table := by
  intro k v hmem
  obtain ⟨r, hr, hk, hv⟩ := h k v hmem
  exact ⟨r, hsub hr, hk, hv⟩

/-- Storing the value just built for `r` keeps the invariant. -/
theorem Built.insert {key : ρ → κ} {stands : ρ → β → Prop} {made : List ρ}
    {table : List (κ × β)} {r : ρ} {v : β} (h : Built key stands made table)
    (hr : r ∈ made) (hv : stands r v) : Built key stands made ((key r, v) :: table) := by
  intro k w hmem
  rcases List.mem_cons.mp hmem with heq | htail
  · cases heq
    exact ⟨r, hr, rfl, hv⟩
  · exact h k w htail

/-- **A hit answers an earlier request with the same key.** -/
theorem Built.of_hit [DecidableEq κ] {key : ρ → κ} {stands : ρ → β → Prop} {made : List ρ}
    {table : List (κ × β)} {k : κ} {v : β} (h : Built key stands made table)
    (hit : lookupKey table k = some v) : ∃ r ∈ made, key r = k ∧ stands r v :=
  h k v (mem_of_lookupKey hit)

end Peps.Lib
