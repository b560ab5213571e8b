import Mathlib.Data.List.Basic

/-!
# Writing runs of cells into a buffer

A buffer is a list of cells of fixed length. `writeAt buf pos vs` stores the cells
`vs` one after the other from position `pos` on, as a loop of `buf[pos++] = v` does;
a cell that falls outside the buffer is not stored. The one lemma every client uses is
`getElem?_writeAt`: what stands at a position after the write.
-/

namespace Peps.Lib

variable {α : Type}

/-- Store `vs` at `pos`, `pos + 1`, … -/
def writeAt (buf : List α) (pos : Nat) : List α → List α
  | [] => buf
  | v :: vs => writeAt (buf.set pos v) (pos + 1) vs

@[simp] theorem length_writeAt (buf : List α) (pos : Nat) (vs : List α) :
    (writeAt buf pos vs).length = buf.length := by
  induction vs generalizing buf pos with
  | nil => rfl
  | cons v vs ih => simp [writeAt, ih]

/-- Positions below the write keep their cell. -/
theorem getElem?_writeAt_lt (buf vs : List α) {pos j : Nat} (h : j < pos) :
    (writeAt buf pos vs)[j]? = buf[j]? := by
  induction vs generalizing buf pos with
  | nil => rfl
  | cons v vs ih =>
    rw [writeAt, ih _ (Nat.lt_succ_of_lt h), List.getElem?_set_ne (by omega)]

/-- Positions past the write keep their cell. -/
theorem getElem?_writeAt_ge (buf vs : List α) {pos j : Nat} (h : pos + vs.length ≤ j) :
    (writeAt buf pos vs)[j]? = buf[j]? := by
  induction vs generalizing buf pos with
  | nil => rfl
  | cons v vs ih =>
    simp only [List.length_cons] at h
    rw [writeAt, ih _ (by omega), List.getElem?_set_ne (by omega)]

/-- A written position inside the buffer holds the written cell. -/
theorem getElem?_writeAt_mid (buf vs : List α) {pos k : Nat} (hk : k < vs.length)
    (hin : pos + k < buf.length) : (writeAt buf pos vs)[pos + k]? = vs[k]? := by
  induction vs generalizing buf pos k with
  | nil => simp at hk
  | cons v vs ih =>
    rw [writeAt]
    cases k with
    | zero =>
      simp only [Nat.add_zero] at hin ⊢
      rw [getElem?_writeAt_lt _ _ (Nat.lt_succ_self pos), List.getElem?_set_self hin]
      rfl
    | succ k =>
      rw [show pos + (k + 1) = (pos + 1) + k from by omega, List.getElem?_cons_succ]
      refine ih _ (by simpa using hk) ?_
      rw [List.length_set]
      omega

/-- **What a write leaves behind**, at every position of the buffer. -/
theorem getElem?_writeAt (buf vs : List α) (pos j : Nat) (hj : j < buf.length) :
    (writeAt buf pos vs)[j]? =
      if pos ≤ j ∧ j < pos + vs.length then vs[j - pos]? else buf[j]? := by
  split
  · next h =>
    obtain ⟨k, rfl⟩ : ∃ k, j = pos + k := ⟨j - pos, by omega⟩
    rw [getElem?_writeAt_mid _ _ (by omega) hj, Nat.add_sub_cancel_left]
  · next h =>
    rcases Nat.lt_or_ge j pos with hlt | hge
    · exact getElem?_writeAt_lt _ _ hlt
    · exact getElem?_writeAt_ge _ _ (by omega)

/-- A write that covers the whole buffer leaves nothing of it. -/
theorem writeAt_eq_of_length (buf vs : List α) (h : vs.length = buf.length) :
    writeAt buf 0 vs = vs := by
  refine List.ext_getElem? fun j => ?_
  by_cases hj : j < buf.length
  · rw [getElem?_writeAt _ _ _ _ hj, if_pos (by omega), Nat.sub_zero]
  · rw [List.getElem?_eq_none (by rw [length_writeAt]; omega), List.getElem?_eq_none (by omega)]

/-- A write to the front of a fresh buffer. -/
theorem writeAt_replicate (n : Nat) (z : α) (vs : List α) (h : vs.length ≤ n) :
    writeAt (List.replicate n z) 0 vs = vs ++ List.replicate (n - vs.length) z := by
  refine List.ext_getElem? fun j => ?_
  by_cases hj : j < n
  · rw [getElem?_writeAt _ _ _ _ (by simpa using hj)]
    split
    · next hin => rw [Nat.sub_zero, List.getElem?_append_left (by omega)]
    · next hout =>
      rw [List.getElem?_append_right (by omega), List.getElem?_replicate_of_lt hj,
        List.getElem?_replicate_of_lt (by omega)]
  · rw [List.getElem?_eq_none (by simp; omega), List.getElem?_eq_none (by simp; omega)]

/-- Writes that all start at one position: the last one that reaches a cell has it. -/
theorem getElem?_foldl_writeAt {ι : Type} (is : List ι) (vs : ι → List α) (buf : List α)
    {pos k : Nat} (hin : pos + k < buf.length) :
    (is.foldl (fun b i => writeAt b pos (vs i)) buf)[pos + k]? =
      (is.reverse.findSome? fun i => (vs i)[k]?).or buf[pos + k]? := by
  induction is generalizing buf with
  | nil => rfl
  | cons i is ih =>
    rw [List.foldl_cons, ih _ (by simpa using hin), List.reverse_cons, List.findSome?_append,
      getElem?_writeAt _ _ _ _ hin]
    by_cases hk : k < (vs i).length
    · rw [if_pos (by omega), Nat.add_sub_cancel_left]
      simp [List.getElem?_eq_getElem hk]
    · rw [if_neg (by omega)]
      simp [List.getElem?_eq_none (Nat.le_of_not_lt hk)]

theorem length_foldl_writeAt {ι : Type} (is : List ι) (vs : ι → List α) (buf : List α) (pos : Nat) :
    (is.foldl (fun b i => writeAt b pos (vs i)) buf).length = buf.length := by
  induction is generalizing buf with
  | nil => rfl
  | cons i is ih => rw [List.foldl_cons, ih, length_writeAt]

/-- Cells that are all filled. -/
theorem exists_map_some {cells : List (Option α)}
    (h : ∀ cell ∈ cells, cell.isSome = true) : ∃ xs : List α, cells = xs.map some := by
  induction cells with
  | nil => exact ⟨[], rfl⟩
  | cons cell cells ih =>
    obtain ⟨x, rfl⟩ := Option.isSome_iff_exists.mp (h cell (List.mem_cons_self ..))
    obtain ⟨xs, rfl⟩ := ih fun c hc => h c (List.mem_cons_of_mem _ hc)
    exact ⟨x :: xs, rfl⟩

end Peps.Lib
