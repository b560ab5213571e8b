import Mathlib.Algebra.BigOperators.Group.List.Basic
import Mathlib.Algebra.GroupWithZero.Nat
import Mathlib.Data.List.Nodup
import Mathlib.Data.List.Sublists
import Peps.Lib.Outcome

/-!
# Kahn's algorithm

The loop keeps, for each vertex, the number of incoming edges it still waits for. It takes the
vertices off a queue one by one, counts down the vertices their edges lead to, and puts a vertex
at the end of the queue when its count reaches zero. The successors are looked up in a state of
the client's, which the look-up may change.

The loop is described against the successor lists `outs` by `Kahn.Inv`: a vertex is in the list
of scheduled vertices if and only if its count has been used up, and then by those that stand
before it (`Kahn.Inv.ordered`). `kahn_ok` runs it from start to end.
-/

namespace Peps.Lib

variable {V ε σ : Type} [DecidableEq V]

/-- One edge into `v`. A vertex without a count raises `missing`. -/
def relax (missing : ε) (s : (V → Option Int) × List V) (v : V) :
    Except ε ((V → Option Int) × List V) :=
  match s.1 v with
  | none => .error missing
  | some n =>
      .ok (Function.update s.1 v (some (n - 1)), if n - 1 = 0 then s.2 ++ [v] else s.2)

/-- The loop, with at most `fuel` vertices taken off the queue. -/
def kahn (missing stuck : ε) (succ : σ → V → Except ε (List V × σ)) :
    Nat → σ → (V → Option Int) → List V → List V → Except ε (List V × σ)
  | _, s, _, [], done => .ok (done, s)
  | 0, _, _, _ :: _, _ => .error stuck
  | fuel + 1, s, todos, v :: queue, done => do
      let (vs, s) ← succ s v
      let (todos, queue) ← vs.foldlM (relax missing) (todos, queue)
      kahn missing stuck succ fuel s todos queue (done ++ [v])

namespace Kahn

variable (outs : V → List V)

/-- The edges into `v` from the vertices `us`. -/
def arrivals (us : List V) (v : V) : Nat := (us.map fun u => (outs u).count v).sum

variable {outs}

@[simp] theorem arrivals_nil (v : V) : arrivals outs [] v = 0 := rfl

theorem arrivals_append (us ws : List V) (v : V) :
    arrivals outs (us ++ ws) v = arrivals outs us v + arrivals outs ws v := by
  simp [arrivals]

theorem arrivals_singleton (u v : V) : arrivals outs [u] v = (outs u).count v := by
  simp [arrivals]

theorem arrivals_le_append (us ws : List V) (v : V) :
    arrivals outs us v ≤ arrivals outs (us ++ ws) v := by
  rw [arrivals_append]
  exact Nat.le_add_right _ _

variable {keys : List V} {count : V → Nat}

/-! ## Counting down -/

/-- The counts after `hits v` edges into each `v`: exactly the vertices without open edges have
been listed. -/
structure Counted (keys : List V) (count : V → Nat) (listed : List V) (hits : V → Nat)
    (todos : V → Option Int) : Prop where
  todos : ∀ v, todos v = if v ∈ keys then some ((count v : Int) - hits v) else none
  nodup : listed.Nodup
  subset : ∀ v ∈ listed, v ∈ keys
  listed : ∀ v ∈ keys, v ∈ listed ↔ count v ≤ hits v

theorem relax_ok (missing : ε) {listed : List V} (queue : List V) {hits : V → Nat} {todos : V → Option Int}
    (h : Counted keys count listed hits todos) {w : V} (hw : w ∈ keys) :
    ∃ todos' more, relax missing (todos, queue) w = .ok (todos', queue ++ more) ∧
      Counted keys count (listed ++ more) (fun v => hits v + [w].count v) todos' := by
  have hget : todos w = some ((count w : Int) - hits w) := by rw [h.todos, if_pos hw]
  have hself : [w].count w = 1 := by simp
  have hother : ∀ v, v ≠ w → [w].count v = 0 := fun v hv =>
    List.count_eq_zero.mpr (by simpa using hv)
  have htodos : ∀ v, Function.update todos w (some ((count w : Int) - hits w - 1)) v =
      if v ∈ keys then some ((count v : Int) - (hits v + [w].count v : Nat)) else none := by
    intro v
    by_cases hv : v = w
    · subst hv
      rw [Function.update_self, if_pos hw, hself]
      congr 1
      omega
    · rw [Function.update_of_ne hv, h.todos, hother v hv, Nat.add_zero]
  unfold relax
  rw [show (todos, queue).1 w = some ((count w : Int) - hits w) from hget]
  by_cases hzero : (count w : Int) - hits w - 1 = 0
  · -- the last open edge: `w` was not listed before
    have hnew : w ∉ listed := fun hmem => by
      have := (h.listed w hw).mp hmem
      omega
    refine ⟨_, [w], by simp only [if_pos hzero], htodos, ?_, ?_, ?_⟩
    · rw [List.nodup_append]
      exact ⟨h.nodup, List.nodup_singleton w, fun a ha b hb => by
        rw [List.mem_singleton.mp hb]
        exact fun heq => hnew (heq ▸ ha)⟩
    · intro v hv
      rcases List.mem_append.mp hv with hv | hv
      · exact h.subset v hv
      · rwa [List.mem_singleton.mp hv]
    · intro v hv
      rw [List.mem_append, List.mem_singleton, h.listed v hv]
      by_cases heq : v = w
      · subst heq
        rw [hself]
        exact ⟨fun _ => by omega, fun _ => Or.inr rfl⟩
      · rw [hother v heq]
        simp [heq]
  · refine ⟨_, [], by simp only [if_neg hzero, List.append_nil], htodos, ?_, ?_, ?_⟩
    · simpa using h.nodup
    · simpa using h.subset
    · intro v hv
      rw [List.append_nil, h.listed v hv]
      by_cases heq : v = w
      · subst heq
        rw [hself]
        omega
      · rw [hother v heq, Nat.add_zero]

theorem relaxAll_ok (missing : ε) (ws : List V) {listed : List V} (queue : List V) {hits : V → Nat}
    {todos : V → Option Int} (h : Counted keys count listed hits todos)
    (hws : ∀ w ∈ ws, w ∈ keys) :
    ∃ todos' more, ws.foldlM (relax missing) (todos, queue) = .ok (todos', queue ++ more) ∧
      Counted keys count (listed ++ more) (fun v => hits v + ws.count v) todos' := by
  induction ws generalizing listed queue hits todos with
  | nil => exact ⟨todos, [], by simp [pure, Except.pure], by simpa using h⟩
  | cons w ws ih =>
    obtain ⟨todos1, more1, hstep, h1⟩ :=
      relax_ok missing queue h (hws w (List.mem_cons_self ..))
    obtain ⟨todos2, more2, hrest, h2⟩ := ih (queue ++ more1) h1
      fun v hv => hws v (List.mem_cons_of_mem _ hv)
    refine ⟨todos2, more1 ++ more2, ?_, ?_⟩
    · rw [List.foldlM_cons, hstep]
      show ws.foldlM (relax missing) (todos1, queue ++ more1) = _
      rw [hrest, List.append_assoc]
    · rw [List.append_assoc] at h2
      have hhits : (fun v => hits v + (w :: ws).count v) =
          fun v => hits v + [w].count v + ws.count v := by
        funext v
        rw [show w :: ws = [w] ++ ws from rfl, List.count_append]
        omega
      rw [hhits]
      exact h2

/-! ## The whole loop -/

/-- Every vertex comes after the ones it waits for. -/
def Ordered (outs : V → List V) (count : V → Nat) (listed : List V) : Prop :=
  ∀ before v after, listed = before ++ v :: after → count v ≤ arrivals outs before v

theorem Ordered.append {listed more : List V} (h : Ordered outs count listed)
    (hmore : ∀ v ∈ more, count v ≤ arrivals outs listed v) :
    Ordered outs count (listed ++ more) := by
  intro before v after heq
  rcases List.append_eq_append_iff.mp heq with ⟨mid, rfl, hmid⟩ | ⟨mid, rfl, hmid⟩
  · -- `v` is one of the new vertices
    refine Nat.le_trans (hmore v ?_) (arrivals_le_append listed mid v)
    rw [hmid]
    exact List.mem_append_right _ (List.mem_cons_self ..)
  · cases mid with
    | nil =>
      rw [List.append_nil] at hmore
      refine hmore v ?_
      rw [List.nil_append] at hmid
      rw [← hmid]
      exact List.mem_cons_self ..
    | cons w mid =>
      rw [List.cons_append, List.cons.injEq] at hmid
      obtain ⟨rfl, -⟩ := hmid
      exact h before v mid rfl

/-- What the loop returns: vertices without repetition, each after those it waits for, and no
vertex missing whose edges all come from the list. -/
structure Schedule (outs : V → List V) (keys : List V) (count : V → Nat) (order : List V) :
    Prop where
  nodup : order.Nodup
  subset : ∀ v ∈ order, v ∈ keys
  ordered : Ordered outs count order
  complete : ∀ v ∈ keys, count v ≤ arrivals outs order v → v ∈ order

/-- **The loop runs to its end.** -/
theorem kahn_ok (missing stuck : ε) {succ : σ → V → Except ε (List V × σ)} {I : σ → Prop}
    (hsucc : ∀ s v, I s → v ∈ keys → ∃ s', succ s v = .ok (outs v, s') ∧ I s')
    (houts : ∀ v ∈ keys, ∀ w ∈ outs v, w ∈ keys) (fuel : Nat) {s : σ} (hs : I s)
    {todos : V → Option Int} {queue done : List V}
    (h : Counted keys count (done ++ queue) (arrivals outs done) todos)
    (hord : Ordered outs count (done ++ queue)) (hfuel : keys.length ≤ fuel + done.length) :
    ∃ order s', kahn missing stuck succ fuel s todos queue done = .ok (order, s') ∧ I s' ∧
      Schedule outs keys count order := by
  induction fuel generalizing s todos queue done with
  | zero =>
    cases queue with
    | nil =>
      refine ⟨done, s, rfl, hs, ?_⟩
      rw [List.append_nil] at h hord
      exact ⟨h.nodup, h.subset, hord, fun v hv => (h.listed v hv).mpr⟩
    | cons v queue =>
      -- more different vertices listed than there are keys
      have hle : (done ++ v :: queue).length ≤ keys.length :=
        (h.nodup.subperm fun w hw => h.subset w hw).length_le
      simp only [List.length_append, List.length_cons] at hle
      omega
  | succ fuel ih =>
    cases queue with
    | nil =>
      refine ⟨done, s, rfl, hs, ?_⟩
      rw [List.append_nil] at h hord
      exact ⟨h.nodup, h.subset, hord, fun v hv => (h.listed v hv).mpr⟩
    | cons v queue =>
      have hv : v ∈ keys := h.subset v (by simp)
      obtain ⟨s1, hlook, hs1⟩ := hsucc s v hs hv
      obtain ⟨todos1, more, hrelax, h1⟩ :=
        relaxAll_ok missing (outs v) queue h (houts v hv)
      have hhits : (fun w => arrivals outs done w + (outs v).count w) =
          arrivals outs (done ++ [v]) := by
        funext w
        rw [arrivals_append, arrivals_singleton]
      have hlist : done ++ v :: queue ++ more = done ++ [v] ++ (queue ++ more) := by simp
      rw [hhits] at h1
      -- a vertex that joins the queue has all its edges from `done ++ [v]`
      have hmore : ∀ w ∈ more, count w ≤ arrivals outs (done ++ v :: queue) w := by
        intro w hw
        have hmem : w ∈ done ++ v :: queue ++ more := List.mem_append_right _ hw
        have hle := (h1.listed w (h1.subset w hmem)).mp hmem
        rw [show done ++ v :: queue = done ++ [v] ++ queue by simp]
        exact Nat.le_trans hle (arrivals_le_append _ _ _)
      have hord1 := hord.append hmore
      rw [hlist] at h1 hord1
      obtain ⟨order, s2, hrun, hs2, hend⟩ := ih hs1 h1 hord1 (by simp; omega)
      refine ⟨order, s2, ?_, hs2, hend⟩
      show (succ s v >>= fun p => p.1.foldlM (relax missing) (todos, queue) >>= fun q =>
        kahn missing stuck succ fuel p.2 q.1 q.2 (done ++ [v])) = _
      rw [hlook]
      show ((outs v).foldlM (relax missing) (todos, queue) >>= fun q =>
        kahn missing stuck succ fuel s1 q.1 q.2 (done ++ [v])) = _
      rw [hrelax]
      exact hrun

/-- What every look-up keeps, the loop keeps. -/
theorem kahn_keeps {missing stuck : ε} {succ : σ → V → Except ε (List V × σ)} {I : σ → Prop}
    (hsucc : ∀ s v vs s', I s → succ s v = .ok (vs, s') → I s') (fuel : Nat) {s s' : σ} (hs : I s)
    {todos : V → Option Int} {queue done order : List V}
    (h : kahn missing stuck succ fuel s todos queue done = .ok (order, s')) : I s' := by
  induction fuel generalizing s todos queue done with
  | zero =>
    cases queue with
    | nil =>
      cases h
      exact hs
    | cons v queue => cases h
  | succ fuel ih =>
    cases queue with
    | nil =>
      cases h
      exact hs
    | cons v queue =>
      unfold kahn at h
      obtain ⟨⟨vs, s1⟩, hlook, h⟩ := bind_ok_iff.mp h
      obtain ⟨⟨todos1, queue1⟩, -, h⟩ := bind_ok_iff.mp h
      exact ih (hsucc s v vs s1 hs hlook) h

/-- The queue at the start: the vertices that wait for nothing. -/
theorem counted_start (hkeys : keys.Nodup) :
    Counted keys count (keys.filter fun v => count v = 0) (arrivals outs [])
      (fun v => if v ∈ keys then some (count v : Int) else none) where
  todos := fun v => by simp
  nodup := hkeys.filter _
  subset := fun v hv => (List.mem_filter.mp hv).1
  listed := fun v hv => by simp [hv]

theorem ordered_start : Ordered outs count (keys.filter fun v => count v = 0) := by
  intro before v after heq
  have hv : v ∈ keys.filter fun v => count v = 0 := by
    rw [heq]
    simp
  have hzero : count v = 0 := by simpa using (List.mem_filter.mp hv).2
  omega

/-! ## Counts that come from the incoming edges -/

theorem countP_or {α : Type} {p q : α → Bool} {l : List α}
    (h : ∀ x ∈ l, ¬ (p x = true ∧ q x = true)) :
    l.countP (fun x => p x || q x) = l.countP p + l.countP q := by
  induction l with
  | nil => rfl
  | cons x l ih =>
    have hx := h x (List.mem_cons_self ..)
    rw [List.countP_cons, List.countP_cons, List.countP_cons,
      ih fun y hy => h y (List.mem_cons_of_mem _ hy)]
    cases hp : p x <;> cases hq : q x <;> simp_all <;> omega

theorem of_countP_le {α : Type} {p q : α → Bool} {l : List α} (hqp : ∀ x ∈ l, q x = true → p x = true)
    (hle : l.countP p ≤ l.countP q) : ∀ x ∈ l, p x = true → q x = true := by
  induction l with
  | nil => exact fun x hx => absurd hx (List.not_mem_nil)
  | cons a l ih =>
    have hmono : l.countP q ≤ l.countP p :=
      List.countP_mono_left fun x hx => hqp x (List.mem_cons_of_mem _ hx)
    have ha := hqp a (List.mem_cons_self ..)
    rw [List.countP_cons, List.countP_cons] at hle
    intro x hx hpx
    rcases List.mem_cons.mp hx with rfl | hx
    · by_contra hq
      rw [if_pos hpx, if_neg hq] at hle
      omega
    · refine ih (fun y hy => hqp y (List.mem_cons_of_mem _ hy)) ?_ x hx hpx
      by_cases hq : q a = true
      · rw [if_pos hq, if_pos (ha hq)] at hle
        omega
      · rw [if_neg hq] at hle
        omega

section Incoming

variable {E : Type} {ins : V → List E} {src : E → Option V}

/-- `ins` lists the edges into a vertex, with the vertex each comes from if it comes from one. -/
def Incoming (outs : V → List V) (ins : V → List E) (src : E → Option V) : Prop :=
  ∀ u v, (outs u).count v = (ins v).countP fun e => src e = some u

/-- The edge comes from one of the vertices `us`. -/
def comesFrom (src : E → Option V) (us : List V) (e : E) : Bool :=
  (src e).any fun u => decide (u ∈ us)

theorem comesFrom_iff {us : List V} {e : E} :
    comesFrom src us e = true ↔ ∃ u ∈ us, src e = some u := by
  unfold comesFrom
  cases src e with
  | none => simp
  | some u => simp [eq_comm]

theorem arrivals_eq_countP (h : Incoming outs ins src) {us : List V} (hus : us.Nodup) (v : V) :
    arrivals outs us v = (ins v).countP (comesFrom src us) := by
  induction us with
  | nil =>
    rw [arrivals_nil, eq_comm, List.countP_eq_zero]
    intro e _ he
    obtain ⟨u, hu, -⟩ := comesFrom_iff.mp he
    exact List.not_mem_nil hu
  | cons u us ih =>
    obtain ⟨hu, hus⟩ := List.nodup_cons.mp hus
    rw [show u :: us = [u] ++ us from rfl, arrivals_append, arrivals_singleton, ih hus, h u v,
      ← countP_or]
    · congr 1
      funext e
      rw [Bool.eq_iff_iff, Bool.or_eq_true, comesFrom_iff, comesFrom_iff, decide_eq_true_eq]
      simp
    · -- one edge does not come from two vertices
      rintro e - ⟨h1, h2⟩
      obtain ⟨w, hw, hsrc⟩ := comesFrom_iff.mp h2
      rw [decide_eq_true_eq, hsrc, Option.some.injEq] at h1
      exact hu (h1 ▸ hw)

variable {counted : E → Bool} {order : List V}

/-- A vertex comes after the sources of the edges it waits for. -/
theorem Schedule.sources (hsched : Schedule outs keys count order) (h : Incoming outs ins src)
    (hcount : ∀ v, count v = (ins v).countP counted)
    (hkeys : ∀ v, ∀ e ∈ ins v, ∀ u ∈ keys, src e = some u → counted e = true)
    {before after : List V} {v : V} (heq : order = before ++ v :: after) :
    ∀ e ∈ ins v, counted e = true → ∃ u ∈ before, src e = some u := by
  have hbefore : before.Nodup := by
    have hnodup := hsched.nodup
    rw [heq] at hnodup
    exact (List.nodup_append.mp hnodup).1
  have hle := hsched.ordered before v after heq
  rw [arrivals_eq_countP h hbefore, hcount] at hle
  intro e he hcounted
  refine comesFrom_iff.mp (of_countP_le (fun f hf hfrom => ?_) hle e he hcounted)
  obtain ⟨u, hu, hsrc⟩ := comesFrom_iff.mp hfrom
  refine hkeys v f hf u (hsched.subset u ?_) hsrc
  rw [heq]
  exact List.mem_append_left _ hu

/-- A vertex is listed as soon as the sources it waits for are. -/
theorem Schedule.mem_of_sources (hsched : Schedule outs keys count order)
    (h : Incoming outs ins src) (hcount : ∀ v, count v = (ins v).countP counted) {v : V}
    (hv : v ∈ keys) (hsrc : ∀ e ∈ ins v, counted e = true → ∃ u ∈ order, src e = some u) :
    v ∈ order := by
  refine hsched.complete v hv ?_
  rw [arrivals_eq_countP h hsched.nodup, hcount]
  exact List.countP_mono_left fun e he hcounted => comesFrom_iff.mpr (hsrc e he hcounted)

/-- **Nothing is missing** when the edges that are waited for come from keys and go down a
well-founded relation. -/
theorem Schedule.mem_of_wellFounded (hsched : Schedule outs keys count order)
    (h : Incoming outs ins src) (hcount : ∀ v, count v = (ins v).countP counted)
    {R : V → V → Prop} (hwf : WellFounded R)
    (hR : ∀ v ∈ keys, ∀ e ∈ ins v, counted e = true → ∃ u ∈ keys, src e = some u ∧ R u v) :
    ∀ v ∈ keys, v ∈ order := by
  intro v
  induction v using hwf.induction with
  | h v ih =>
    intro hv
    refine hsched.mem_of_sources h hcount hv fun e he hcounted => ?_
    obtain ⟨u, hu, hsrc, hlt⟩ := hR v hv e he hcounted
    exact ⟨u, ih u hlt hu, hsrc⟩

end Incoming

end Kahn

end Peps.Lib
