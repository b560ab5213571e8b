import Mathlib.Data.List.Nodup
import Peps.Lib.Cells

/-!
# Logs of stores and loads

What a loop nest does to a buffer, as the list of its stores in the order in which they are made. If
no position occurs twice, the order does not matter: every cell of the log is in the buffer
afterwards (`getElem?_applyStores`), and the same stores in another order leave the same buffer
(`applyStores_perm`).

The loads of a computation are kept in a state that each load appends its cells to; what a loop adds
to it is the concatenation of what its rounds add (`run_mapM_logged`, `run_foldlM_logged`).
-/

namespace Peps.Lib

variable {β : Type}

/-- The buffer after the stores of a log. -/
def applyStores (buf : List β) (log : List (Nat × β)) : List β :=
  log.foldl (fun buf e => buf.set e.1 e.2) buf

@[simp] theorem length_applyStores (buf : List β) (log : List (Nat × β)) :
    (applyStores buf log).length = buf.length := by
  unfold applyStores
  induction log generalizing buf with
  | nil => rfl
  | cons e log ih => rw [List.foldl_cons, ih, List.length_set]

/-- A cell that is not in the log keeps its content. -/
theorem getElem?_applyStores_frame {log : List (Nat × β)} {i : Nat} (h : i ∉ log.map Prod.fst)
    (buf : List β) : (applyStores buf log)[i]? = buf[i]? := by
  unfold applyStores
  induction log generalizing buf with
  | nil => rfl
  | cons e log ih =>
    rw [List.map_cons, List.mem_cons, not_or] at h
    rw [List.foldl_cons, ih h.2, List.getElem?_set_ne (Ne.symm h.1)]

/-- A position that is stored to once has what was stored. -/
theorem getElem?_applyStores {log : List (Nat × β)} (hnodup : (log.map Prod.fst).Nodup) {i : Nat}
    {v : β} (hmem : (i, v) ∈ log) {buf : List β} (hi : i < buf.length) :
    (applyStores buf log)[i]? = some v := by
  induction log generalizing buf with
  | nil => cases hmem
  | cons e log ih =>
    rw [List.map_cons, List.nodup_cons] at hnodup
    show (applyStores (buf.set e.1 e.2) log)[i]? = some v
    rcases List.mem_cons.mp hmem with rfl | hlog
    · rw [getElem?_applyStores_frame hnodup.1, List.getElem?_set_self hi]
    · exact ih hnodup.2 hlog (by rw [List.length_set]; exact hi)

/-- **The order of the stores does not matter** if no position occurs twice. -/
theorem applyStores_perm {log log' : List (Nat × β)} (hperm : log.Perm log')
    (hnodup : (log.map Prod.fst).Nodup) (buf : List β) :
    applyStores buf log = applyStores buf log' := by
  have hnodup' : (log'.map Prod.fst).Nodup := (hperm.map Prod.fst).nodup_iff.mp hnodup
  refine List.ext_getElem? fun i => ?_
  by_cases hi : i < buf.length
  · by_cases hlog : i ∈ log.map Prod.fst
    · obtain ⟨⟨j, v⟩, hmem, hj⟩ := List.mem_map.mp hlog
      obtain rfl : j = i := hj
      rw [getElem?_applyStores hnodup hmem hi,
        getElem?_applyStores hnodup' (hperm.mem_iff.mp hmem) hi]
    · have hlog' : i ∉ log'.map Prod.fst := fun h => hlog ((hperm.map Prod.fst).mem_iff.mpr h)
      rw [getElem?_applyStores_frame hlog, getElem?_applyStores_frame hlog']
  · rw [List.getElem?_eq_none (by rw [length_applyStores]; omega),
      List.getElem?_eq_none (by rw [length_applyStores]; omega)]

theorem applyStores_flatMap {ι : Type} (log : ι → List (Nat × β)) (ps : List ι) (buf : List β) :
    applyStores buf (ps.flatMap log) = ps.foldl (fun buf p => applyStores buf (log p)) buf :=
  List.foldl_flatMap ..

/-- A run of cells is a log of stores to consecutive positions. -/
theorem writeAt_eq_applyStores (buf vs : List β) (pos : Nat) :
    writeAt buf pos vs = applyStores buf ((vs.zipIdx pos).map Prod.swap) := by
  induction vs generalizing buf pos with
  | nil => rfl
  | cons v vs ih => exact ih (buf.set pos v) (pos + 1)

/-! ## Loads -/

section Loads

variable {ι γ δ : Type} {touched : γ → List ι}

/-- What a loop over `xs` returns and logs, from what each round returns and logs. -/
theorem run_mapM_logged {f : γ → StateM (List ι) δ} {value : γ → δ}
    (hround : ∀ x log, (f x).run log = (value x, log ++ touched x)) (xs : List γ) (log : List ι) :
    (xs.mapM f).run log = (xs.map value, log ++ xs.flatMap touched) := by
  induction xs generalizing log with
  | nil => rw [List.mapM_nil, List.flatMap_nil, List.append_nil]; rfl
  | cons x xs ih =>
    rw [List.mapM_cons, StateT.run_bind, hround]
    show (xs.mapM f >>= fun vs => pure (value x :: vs)).run (log ++ touched x) = _
    rw [StateT.run_bind, ih, List.flatMap_cons, List.append_assoc]
    rfl

theorem run_foldlM_logged {f : δ → γ → StateM (List ι) δ} {value : δ → γ → δ}
    (hround : ∀ acc x log, (f acc x).run log = (value acc x, log ++ touched x)) (xs : List γ)
    (acc : δ) (log : List ι) :
    (xs.foldlM f acc).run log = (xs.foldl value acc, log ++ xs.flatMap touched) := by
  induction xs generalizing acc log with
  | nil => rw [List.foldlM_nil, List.flatMap_nil, List.append_nil]; rfl
  | cons x xs ih =>
    rw [List.foldlM_cons, StateT.run_bind, hround]
    show (xs.foldlM f (value acc x)).run (log ++ touched x) = _
    rw [ih, List.flatMap_cons, List.append_assoc]
    rfl

end Loads

end Peps.Lib
