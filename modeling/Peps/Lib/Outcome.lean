import Mathlib.Data.List.Basic

/-!
# Peeling computations that can fail

A computation in the exception monad is reasoned about through its successful runs: a bind
succeeds when both parts do, a guarded step when its guard lets it pass. Proofs peel a run
apart with these lemmas and never unfold the monad.
-/

namespace Peps.Lib

variable {ε α β : Type}

theorem bind_ok_iff {step : Except ε α} {rest : α → Except ε β} {out : β} :
    (step >>= rest) = .ok out ↔ ∃ mid, step = .ok mid ∧ rest mid = .ok out := by
  rcases step with e | mid
  · simp [bind, Except.bind]
  · simp [bind, Except.bind]

/-- A step that only decides whether a value is returned. -/
theorem eq_of_map_const_ok {step : Except ε α} {out out' : β}
    (h : step.map (fun _ => out) = .ok out') : out = out' := by
  cases step with
  | error e => cases h
  | ok a => exact Except.ok.inj h

theorem toOption_eq_some {step : Except ε α} {out : α} :
    step.toOption = some out ↔ step = .ok out := by
  rcases step with e | mid
  · simp [Except.toOption]
  · simp [Except.toOption]

/-- A step that fails on a condition has passed it. -/
theorem guard_ok_iff {cond : Prop} [Decidable cond] {e : ε} {step : Except ε α} {out : α} :
    (if cond then .error e else step) = .ok out ↔ ¬ cond ∧ step = .ok out := by
  by_cases h : cond
  · simp [h]
  · simp [h]

/-- The invariant rule for a loop that can fail: if every step succeeds and carries the
property of the items read so far on to one more item, the loop succeeds with the property of
all items. -/
theorem foldlM_ok {step : β → α → Except ε β} {P : List α → β → Prop} (xs : List α)
    (hstep : ∀ read s a, a ∈ xs → P read s → ∃ s', step s a = .ok s' ∧ P (read ++ [a]) s')
    {read : List α} {s : β} (h : P read s) :
    ∃ s', xs.foldlM step s = .ok s' ∧ P (read ++ xs) s' := by
  induction xs generalizing read s with
  | nil => exact ⟨s, rfl, by simpa using h⟩
  | cons a xs ih =>
    obtain ⟨mid, hmid, hinv⟩ := hstep read s a (List.mem_cons_self ..) h
    obtain ⟨out, hout, hend⟩ :=
      ih (fun read s b hb => hstep read s b (List.mem_cons_of_mem _ hb)) hinv
    refine ⟨out, ?_, by simpa using hend⟩
    rw [List.foldlM_cons, hmid]
    exact hout

/-- A loop that succeeded keeps what each of its steps keeps. -/
theorem foldlM_keeps {step : β → α → Except ε β} {P : β → Prop} {xs : List α}
    (hstep : ∀ a ∈ xs, ∀ s s', P s → step s a = .ok s' → P s') {s out : β} (h : P s)
    (hrun : xs.foldlM step s = .ok out) : P out := by
  induction xs generalizing s with
  | nil =>
    cases hrun
    exact h
  | cons a xs ih =>
    rw [List.foldlM_cons, bind_ok_iff] at hrun
    obtain ⟨mid, hmid, hrest⟩ := hrun
    exact ih (fun b hb => hstep b (List.mem_cons_of_mem _ hb))
      (hstep a (List.mem_cons_self ..) s mid h hmid) hrest

/-- A loop that succeeded made every step. -/
theorem foldlM_steps {step : β → α → Except ε β} {xs : List α} {s out : β}
    (hrun : xs.foldlM step s = .ok out) : ∀ a ∈ xs, ∃ s s', step s a = .ok s' := by
  induction xs generalizing s with
  | nil => exact fun a ha => (by cases ha)
  | cons b xs ih =>
    rw [List.foldlM_cons, bind_ok_iff] at hrun
    obtain ⟨mid, hmid, hrest⟩ := hrun
    intro a ha
    rcases List.mem_cons.mp ha with rfl | ha
    · exact ⟨s, mid, hmid⟩
    · exact ih hrest a ha

/-- A loop whose steps are total. -/
theorem foldlM_eq_ok_foldl {step : β → α → Except ε β} {f : β → α → β} {xs : List α}
    (h : ∀ a ∈ xs, ∀ s, step s a = .ok (f s a)) (s : β) :
    xs.foldlM step s = .ok (xs.foldl f s) := by
  induction xs generalizing s with
  | nil => rfl
  | cons a xs ih =>
    rw [List.foldlM_cons, h a (List.mem_cons_self ..)]
    exact ih (fun b hb => h b (List.mem_cons_of_mem _ hb)) (f s a)

/-- A loop over a state in another form. -/
theorem foldlM_map_state {γ : Type} {step : β → α → Except ε β} {step' : γ → α → Except ε γ}
    {form : γ → β} (h : ∀ s a, step (form s) a = (step' s a).map form) (xs : List α) (s : γ) :
    xs.foldlM step (form s) = (xs.foldlM step' s).map form := by
  induction xs generalizing s with
  | nil => rfl
  | cons a xs ih =>
    rw [List.foldlM_cons, List.foldlM_cons, h]
    cases step' s a with
    | error e => rfl
    | ok mid => exact ih mid

theorem mapM_eq_ok_map {xs : List α} {step : α → Except ε β} {f : α → β}
    (h : ∀ x ∈ xs, step x = .ok (f x)) : xs.mapM step = .ok (xs.map f) := by
  induction xs with
  | nil => rfl
  | cons x xs ih =>
    rw [List.mapM_cons, h x (List.mem_cons_self ..), ih fun y hy => h y (List.mem_cons_of_mem _ hy)]
    rfl

/-- The results of a successful `mapM`, and the steps that gave them. -/
theorem mapM_ok {xs : List α} {ys : List β} {step : α → Except ε β} (h : xs.mapM step = .ok ys) :
    (∀ y, y ∈ ys ↔ ∃ x ∈ xs, step x = .ok y) ∧ ∀ x ∈ xs, ∃ y, step x = .ok y := by
  induction xs generalizing ys with
  | nil =>
    cases h
    simp
  | cons x xs ih =>
    rw [List.mapM_cons] at h
    simp only [bind_ok_iff] at h
    obtain ⟨z, hz, zs, hzs, hret⟩ := h
    cases hret
    obtain ⟨hmem, hall⟩ := ih hzs
    refine ⟨fun y => ?_, fun w hw => ?_⟩
    · rw [List.mem_cons, hmem]
      constructor
      · rintro (rfl | ⟨w, hw, hy⟩)
        · exact ⟨x, List.mem_cons_self .., hz⟩
        · exact ⟨w, List.mem_cons_of_mem _ hw, hy⟩
      · rintro ⟨w, hw, hy⟩
        rcases List.mem_cons.mp hw with rfl | hw
        · rw [hz] at hy
          cases hy
          exact Or.inl rfl
        · exact Or.inr ⟨w, hw, hy⟩
    · rcases List.mem_cons.mp hw with rfl | hw
      · exact ⟨z, hz⟩
      · exact hall w hw

/-- The results of a successful `mapM`, position by position. -/
theorem mapM_entries {xs : List α} {ys : List β} {step : α → Except ε β}
    (h : xs.mapM step = .ok ys) :
    ys.length = xs.length ∧
      ∀ (i : Nat) y, ys[i]? = some y → ∃ x, xs[i]? = some x ∧ step x = .ok y := by
  induction xs generalizing ys with
  | nil =>
    cases h
    exact ⟨rfl, fun i y hy => (by cases hy)⟩
  | cons x xs ih =>
    rw [List.mapM_cons] at h
    obtain ⟨z, hz, h⟩ := bind_ok_iff.mp h
    obtain ⟨zs, hzs, h⟩ := bind_ok_iff.mp h
    cases h
    obtain ⟨hlen, hall⟩ := ih hzs
    refine ⟨by rw [List.length_cons, List.length_cons, hlen], fun i y hy => ?_⟩
    cases i with
    | zero =>
      cases hy
      exact ⟨x, rfl, hz⟩
    | succ i => exact hall i y hy

theorem mapM_succeeds {xs : List α} {step : α → Except ε β} (h : ∀ x ∈ xs, ∃ y, step x = .ok y) :
    ∃ ys, xs.mapM step = .ok ys := by
  induction xs with
  | nil => exact ⟨[], rfl⟩
  | cons x xs ih =>
    obtain ⟨y, hy⟩ := h x (List.mem_cons_self ..)
    obtain ⟨ys, hys⟩ := ih fun x' hx' => h x' (List.mem_cons_of_mem _ hx')
    refine ⟨y :: ys, ?_⟩
    rw [List.mapM_cons, hy]
    show (xs.mapM step >>= fun ys => Except.ok (y :: ys)) = _
    rw [hys]
    rfl

theorem forM_ok {xs : List α} {step : α → Except ε Unit} (h : ∀ x ∈ xs, step x = .ok ()) :
    xs.forM step = .ok () := by
  induction xs with
  | nil => rfl
  | cons x xs ih =>
    show (step x >>= fun _ => xs.forM step) = _
    rw [h x (List.mem_cons_self ..)]
    exact ih fun y hy => h y (List.mem_cons_of_mem _ hy)

/-! ## States that outlive errors -/

section Stateful

variable {σ : Type} {step : EStateM ε σ α} {rest : α → EStateM ε σ β} {s s' : σ}

theorem estate_bind_ok {a : α} (h : step s = .ok a s') : (step >>= rest) s = rest a s' := by
  show EStateM.bind step rest s = _
  rw [EStateM.bind, h]

theorem estate_bind_error {e : ε} (h : step s = .error e s') :
    (step >>= rest) s = .error e s' := by
  show EStateM.bind step rest s = _
  rw [EStateM.bind, h]

end Stateful

end Peps.Lib
