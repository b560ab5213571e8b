import Mathlib.Data.List.Infix

/-!
# Transducers

A machine that reads a word symbol by symbol and emits outputs on the way, with a `close` that says what
it still owes at the end of the word, or that the word must not end there. Running over two words one
after the other is running over the first and then, from where that ended, over the second.

When the outputs are words themselves, `held` bounds what a state is sure to emit: if every step keeps
`held` below what was emitted plus what is held then, all outputs together begin with it
(`held_isPrefix_flatten`).
-/

namespace Peps.Lib

variable {σ α β : Type*}

/-- The outputs of a run, and the state it ends in. -/
def transduce (step : σ → α → List β × σ) : σ → List α → List β × σ
  | s, [] => ([], s)
  | s, a :: as =>
    match step s a with
    | (out, s') =>
      match transduce step s' as with
      | (outs, t) => (out ++ outs, t)

/-- All outputs for a whole word. -/
def transduceAll (step : σ → α → List β × σ) (close : σ → Option (List β)) (s : σ) (as : List α) :
    Option (List β) :=
  (close (transduce step s as).2).map ((transduce step s as).1 ++ ·)

section Runs

variable (step : σ → α → List β × σ) (close : σ → Option (List β))

theorem transduce_cons (s : σ) (a : α) (as : List α) :
    transduce step s (a :: as) =
      ((step s a).1 ++ (transduce step (step s a).2 as).1, (transduce step (step s a).2 as).2) := rfl

theorem transduce_append (s : σ) (as as' : List α) :
    transduce step s (as ++ as') =
      ((transduce step s as).1 ++ (transduce step (transduce step s as).2 as').1,
        (transduce step (transduce step s as).2 as').2) := by
  induction as generalizing s with
  | nil => rfl
  | cons a as ih => rw [List.cons_append, transduce_cons, ih, transduce_cons, List.append_assoc]

theorem transduceAll_nil (s : σ) : transduceAll step close s [] = close s := by
  show (close s).map ([] ++ ·) = close s
  cases close s <;> rfl

theorem transduceAll_append (s : σ) (as as' : List α) :
    transduceAll step close s (as ++ as') =
      (transduceAll step close (transduce step s as).2 as').map ((transduce step s as).1 ++ ·) := by
  rw [transduceAll, transduce_append, transduceAll, Option.map_map]
  congr 1
  funext outs
  exact List.append_assoc ..

theorem transduceAll_cons (s : σ) (a : α) (as : List α) :
    transduceAll step close s (a :: as) =
      (transduceAll step close (step s a).2 as).map ((step s a).1 ++ ·) := by
  rw [← List.singleton_append, transduceAll_append]
  show (transduceAll step close (step s a).2 as).map ((step s a).1 ++ [] ++ ·) = _
  rw [List.append_nil]

end Runs

/-- **What is held comes out first.** `dead` are the states no word can end from. -/
theorem held_isPrefix_flatten {γ : Type*} {step : σ → α → List (List γ) × σ}
    {close : σ → Option (List (List γ))} {held : σ → List γ} {dead : σ → Prop}
    (hstep : ∀ s a, held s <+: (step s a).1.flatten ++ held (step s a).2 ∨ dead (step s a).2)
    (hclose : ∀ s outs, close s = some outs → held s <+: outs.flatten)
    (hdead : ∀ s as, dead s → transduceAll step close s as = none) :
    ∀ as s outs, transduceAll step close s as = some outs → held s <+: outs.flatten := by
  intro as
  induction as with
  | nil =>
    intro s outs h
    rw [transduceAll_nil] at h
    exact hclose s outs h
  | cons a as ih =>
    intro s outs h
    rw [transduceAll_cons] at h
    obtain ⟨outs', hrest, rfl⟩ := Option.map_eq_some_iff.mp h
    rw [List.flatten_append]
    rcases hstep s a with hheld | hgone
    · exact hheld.trans ((List.prefix_append_right_inj _).mpr (ih _ _ hrest))
    · rw [hdead _ as hgone] at hrest
      cases hrest

end Peps.Lib
