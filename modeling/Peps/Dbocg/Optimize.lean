import Mathlib.Algebra.Field.Rat
import Mathlib.Algebra.Order.Ring.Rat
import Peps.Dbocg.GraphCost
import Peps.Dbocg.Session
import Peps.Lib.BestFirst

/-!
# `Graph.optimize`

The search takes the cheapest candidate out of a heap, keeps it if it is cheaper than the best
graph so far, and runs every rule on it; `run` puts the new graphs into the heap. It is a search with
a queue and a best entry (`Lib.BestFirst`), whose entries are graphs with their `totalCost`.

The loop compares what the graphs' `totalCost` holds. For a candidate that is its cost, since `run`
has just computed it. The start graph's can be older than the graph, and then the best graph need
not be the cheapest one.
-/

namespace Peps

open Lib Lib.BestFirst

variable {K : Type} [Field K] [LinearOrder K]

/-- A `GraphXfer`: its rule, and what its runs change. -/
structure Xfer where
  rule : Rule
  matching : Matching
  dstMap : Nat → Op

/-- `GraphXfer(…)`. -/
def Xfer.new (x : Rule) : Xfer := ⟨x, Matching.start, fun _ => Op.invalid⟩

/-- What `optimize` takes from elsewhere: the costs of operators, the hashes of graphs and
`heapq`, of which only matters that it gives out what was put in. -/
structure OptEnv (K : Type) where
  opCost : OpBase → K
  hash : Graph → Nat
  heapq : Queue (Costed K)

/-- The variables of `optimize`. `popped` and `pushed` record what left and entered the heap, the
last first. -/
structure OptState (K : Type) where
  xfers : List Xfer
  model : Model
  candidates : List (Costed K)
  hashmap : List Nat
  bestGraph : Costed K
  bestCost : K
  popped : List (Costed K)
  pushed : List (Pushed (Costed K))

namespace OptEnv

variable (env : OptEnv K)

/-- `new_graph.total_cost() < threshold and new_graph.inEdges.size() < maxNumOps`. Where
`total_cost` raises, `run` does not return; here the graph is not kept. -/
def keeps (threshold : K) (maxNumOps : Nat) (g : Graph) : Bool :=
  (g.sumCost env.opCost).toOption.any (fun total => decide (total < threshold)) &&
    decide (g.inEdges.keys.length < maxNumOps)

/-- A graph that `run` puts into the heap, after `total_cost`. -/
def candidate (g : Graph) : Costed K := ⟨g, (g.sumCost env.opCost).toOption.getD 0⟩

/-- `heapq.heappush(candidates, new_graph)` of a run on `sub`. -/
def heappush (sub : Costed K) (st : OptState K) (c : Costed K) : OptState K :=
  { st with candidates := env.heapq.push c st.candidates
            pushed := ⟨sub, st.bestGraph, c⟩ :: st.pushed }

/-- `xfers[i].run(0, subGraph, candidates, hashmap, threshold, maxNumOps)`. -/
def runXfer (threshold : K) (maxNumOps : Nat) (sub : Costed K) (x : Xfer) (st : OptState K) :
    Except PyError (Xfer × OptState K) := do
  let out ← run ⟨env.keeps threshold maxNumOps, env.hash⟩ x.rule sub.graph x.rule.srcOps 0
    ⟨x.matching, ⟨st.model, x.dstMap, [], st.hashmap⟩, []⟩
  let st := { st with model := out.leaf.model, hashmap := out.leaf.hashmap }
  -- `run` lists its graphs with the last first
  let st := (out.leaf.candidates.reverse.map env.candidate).foldl (env.heappush sub) st
  return (⟨x.rule, out.matching, out.leaf.dstMap⟩, st)

/-- The loop over the rules. -/
def runXfers (threshold : K) (maxNumOps : Nat) (sub : Costed K) :
    List Xfer → OptState K → Except PyError (List Xfer × OptState K)
  | [], st => .ok ([], st)
  | x :: xs, st => do
      let (x, st) ← env.runXfer threshold maxNumOps sub x st
      let (xs, st) ← runXfers threshold maxNumOps sub xs st
      return (x :: xs, st)

/-- The candidate taken out of the heap becomes the best graph if it is cheaper. -/
def select (sub : Costed K) (rest : List (Costed K)) (st : OptState K) :
    Except PyError (OptState K) := do
  let st := { st with candidates := rest, popped := sub :: st.popped }
  if sub.cached < st.bestCost then do
    let sub ← sub.totalCost env.opCost
    return { st with bestGraph := sub, bestCost := sub.cached }
  else return st

/-- The body of the loop after the test of `counter`. -/
def expand (alpha : K) (maxNumOps : Nat) (sub : Costed K) (st : OptState K) :
    Except PyError (OptState K) := do
  let (xfers, st) ← env.runXfers (st.bestCost * alpha) (2 * maxNumOps) sub st.xfers st
  return { st with xfers := xfers }

/-- The loop of `optimize`; `left` is `budget + 1 - counter`. -/
def searchLoop (alpha : K) (maxNumOps : Nat) : Nat → OptState K → Except PyError (OptState K)
  | 0, st =>
      match env.heapq.pop st.candidates with
      | none => .ok st
      | some (sub, rest) => env.select sub rest st
  | left + 1, st =>
      match env.heapq.pop st.candidates with
      | none => .ok st
      | some (sub, rest) => do
          let st ← env.select sub rest st
          let st ← env.expand alpha maxNumOps sub st
          searchLoop alpha maxNumOps left st

/-- `optimize` before its loop. `self` is put into the heap before its `total_cost` is asked for,
which does not change its place: it is alone there. -/
def initialState (rules : List Rule) (m : Model) (start : Costed K) : OptState K where
  xfers := rules.map Xfer.new
  model := m
  candidates := env.heapq.push start []
  hashmap := [env.hash start.graph]
  bestGraph := start
  bestCost := start.cached
  popped := []
  pushed := []

/-- `optimize` up to the end of its loop. -/
def search (alpha : K) (budget : Nat) (rules : List Rule) (m : Model) (start : Costed K) :
    Except PyError (OptState K) := do
  let start ← start.totalCost env.opCost
  env.searchLoop alpha start.graph.inEdges.keys.length (budget + 1)
    (env.initialState rules m start)

/-- `optimize`. -/
def optimize (alpha : K) (budget : Nat) (rules : List Rule) (m : Model) (start : Costed K) :
    Except PyError Graph := do
  let st ← env.search alpha budget rules m start
  st.bestGraph.graph.preprocessWeights

end OptEnv

/-! ## One rule application -/

/-- The source operators before `depth` are mapped to operators of the graph they can match. -/
def Mapped (g : Graph) (srcOps : List OpX) (depth : Nat) (s : Matching) : Prop :=
  ∀ k < depth, ∀ opx, srcOps[k]? = some opx →
    s.mapOp k ∈ g.inEdges.keys ∧ ∃ s₀, canMatch s₀ g opx (s.mapOp k) = .ok true

/-- One application of `x` to `g` gives `g'`: all its source operators are mapped, its target
operators can be created, and the rebuilt graph passes the tests of `run`. -/
inductive Rewrites (x : Rule) (g g' : Graph) : Prop where
  | intro (s : Matching) (dstMap dstMap' : Nat → Op) (m m' : Model) (rebuilt : Graph)
      (mapped : Mapped g x.srcOps x.srcOps.length s)
      (targets : createTargets s x.dstOps.zipIdx dstMap m = .ok (true, dstMap', m'))
      (outputs : outputsMapped x s g = .ok true)
      (graph : createNewGraph x s dstMap' g = .ok rebuilt)
      (loopless : rebuilt.hasLoop = .ok (false, g')) (correct : checkCorrectness g' = .ok ())

theorem Rewrites.inOwn {x : Rule} {g g' : Graph} (h : Rewrites x g g') :
    ∀ op, ∀ e ∈ g'.ins op, e.dstOp = op := by
  obtain ⟨s, dstMap, dstMap', m, m', rebuilt, -, -, -, hgraph, hloop, -⟩ := h
  obtain ⟨kept, -, hgraph⟩ := bind_ok_iff.mp hgraph
  obtain ⟨added, -, hgraph⟩ := bind_ok_iff.mp hgraph
  have hown := (Graph.consistent_new.added (Graph.addEdges_added hgraph)).inOwn
  intro op e he
  refine hown op e ?_
  unfold Graph.ins at he ⊢
  rwa [Graph.hasLoop_inEdges hloop] at he

section Run

variable {env : RunEnv} {x : Rule} {g : Graph}

theorem completeMatch_candidates {s : Matching} {leaf leaf' : Leaf}
    (hmapped : Mapped g x.srcOps x.srcOps.length s)
    (h : completeMatch env x g s leaf = .ok leaf') :
    ∀ c ∈ leaf'.candidates, c ∈ leaf.candidates ∨ env.worthKeeping c = true ∧ Rewrites x g c := by
  unfold completeMatch at h
  obtain ⟨⟨created, dstMap', m'⟩, htargets, h⟩ := bind_ok_iff.mp h
  dsimp only at h
  intro c hc
  split at h
  · cases h
    exact .inl hc
  · next hcreated =>
    obtain ⟨mapped, houtputs, h⟩ := bind_ok_iff.mp h
    split at h
    · cases h
      exact .inl hc
    · next houtmapped =>
      obtain ⟨rebuilt, hgraph, h⟩ := bind_ok_iff.mp h
      obtain ⟨⟨loop, g'⟩, hloop, h⟩ := bind_ok_iff.mp h
      dsimp only at h
      rw [Bool.not_eq_false] at hcreated houtmapped
      subst hcreated houtmapped
      split at h
      · cases h
        exact .inl hc
      · next hloopless =>
        rw [Bool.not_eq_true] at hloopless
        subst hloopless
        obtain ⟨_, hcorrect, h⟩ := bind_ok_iff.mp h
        split at h
        · next hkeep =>
          cases h
          rcases List.mem_cons.mp hc with rfl | hc
          · exact .inr ⟨hkeep.1, ⟨s, _, dstMap', _, m', rebuilt, hmapped, htargets, houtputs,
              hgraph, hloop, hcorrect⟩⟩
          · exact .inl hc
        · cases h
          exact .inl hc

theorem matchOp_mapOp {s s' : Matching} {depth : Nat} {srcOp : OpX} {op : Op}
    (h : matchOp s g depth srcOp op = .ok s') : s'.mapOp = Function.update s.mapOp depth op := by
  unfold matchOp at h
  split at h
  · cases h
    rfl
  · cases h

theorem unmatchOp_mapOp {s s' : Matching} {depth : Nat} {srcOp : OpX} {op : Op}
    (h : unmatchOp s depth srcOp op = .ok s') :
    s'.mapOp = Function.update s.mapOp depth Op.invalid := by
  obtain ⟨mappedInputs, -, h⟩ := bind_ok_iff.mp h
  split at h
  · cases h
    rfl
  · cases h

theorem Mapped.congr {srcOps : List OpX} {depth : Nat} {s s' : Matching}
    (h : Mapped g srcOps depth s) (heq : ∀ k < depth, s'.mapOp k = s.mapOp k) :
    Mapped g srcOps depth s' := by
  intro k hk opx hopx
  rw [heq k hk]
  exact h k hk opx hopx

theorem Mapped.succ {srcOps : List OpX} {depth : Nat} {s s' : Matching} {srcOp : OpX} {op : Op}
    (h : Mapped g srcOps depth s) (hmem : op ∈ g.inEdges.keys)
    (hsrc : srcOps[depth]? = some srcOp) (hcan : canMatch s g srcOp op = .ok true)
    (hmap : s'.mapOp = Function.update s.mapOp depth op) : Mapped g srcOps (depth + 1) s' := by
  intro k hk opx hopx
  rw [hmap]
  by_cases heq : k = depth
  · subst heq
    rw [Function.update_self]
    rw [hsrc] at hopx
    cases hopx
    exact ⟨hmem, s, hcan⟩
  · rw [Function.update_of_ne heq]
    exact h k (by omega) opx hopx

/-- The graphs a run adds are worth keeping and made by the rule. The mapping below `depth` is
there again at the end. -/
theorem run_candidates (rest : List OpX) (depth : Nat) (hrest : x.srcOps.drop depth = rest)
    {st st' : Search} (hmapped : Mapped g x.srcOps depth st.matching)
    (h : run env x g rest depth st = .ok st') :
    (∀ k < depth, st'.matching.mapOp k = st.matching.mapOp k) ∧
      ∀ c ∈ st'.leaf.candidates,
        c ∈ st.leaf.candidates ∨ env.worthKeeping c = true ∧ Rewrites x g c := by
  induction rest generalizing depth st st' with
  | nil =>
    obtain ⟨leaf, hleaf, h⟩ := bind_ok_iff.mp h
    cases h
    have hlen : x.srcOps.length ≤ depth := List.drop_eq_nil_iff.mp hrest
    exact ⟨fun _ _ => rfl, completeMatch_candidates
      (fun k hk => hmapped k (Nat.lt_of_lt_of_le hk hlen)) hleaf⟩
  | cons srcOp rest ih =>
    have hsrc : x.srcOps[depth]? = some srcOp := by
      rw [← List.head?_drop, hrest]
      rfl
    have hrest' : x.srcOps.drop (depth + 1) = rest := by
      rw [← List.tail_drop, hrest]
      rfl
    -- each operator that is tried restores the mapping and adds such graphs
    refine foldlM_keeps (P := fun st' : Search =>
      (∀ k < depth, st'.matching.mapOp k = st.matching.mapOp k) ∧
        ∀ c ∈ st'.leaf.candidates,
          c ∈ st.leaf.candidates ∨ env.worthKeeping c = true ∧ Rewrites x g c)
      (fun op hop s s' hs hstep => ?_) ⟨fun _ _ => rfl, fun c hc => .inl hc⟩ h
    obtain ⟨hmap, hcands⟩ := hs
    obtain ⟨ok, hcan, hstep⟩ := bind_ok_iff.mp hstep
    split at hstep
    · next hok =>
      obtain ⟨matching, hmatch, hstep⟩ := bind_ok_iff.mp hstep
      obtain ⟨s1, hrun, hstep⟩ := bind_ok_iff.mp hstep
      obtain ⟨matching1, hunmatch, hstep⟩ := bind_ok_iff.mp hstep
      cases hstep
      rw [hok.1] at hcan
      obtain ⟨hmap1, hcands1⟩ := ih (depth + 1) hrest'
        ((hmapped.congr hmap).succ hop hsrc hcan (matchOp_mapOp hmatch)) hrun
      refine ⟨fun k hk => ?_, fun c hc => ?_⟩
      · show matching1.mapOp k = _
        rw [unmatchOp_mapOp hunmatch, Function.update_of_ne (by omega), hmap1 k (by omega)]
        show matching.mapOp k = _
        rw [matchOp_mapOp hmatch, Function.update_of_ne (by omega), hmap k hk]
      · rcases hcands1 c hc with hc | hc
        · exact hcands c hc
        · exact .inr hc
    · cases hstep
      exact ⟨hmap, hcands⟩

end Run

/-! ## The loop is a search with a best entry -/

namespace OptEnv

variable (env : OptEnv K) (alpha : K) (maxNumOps : Nat) (rules : List Rule)

/-- The heap as the queue. -/
def entries (st : OptState K) : State (Costed K) :=
  ⟨st.candidates, st.bestGraph, st.popped, st.pushed⟩

/-- A graph that a rule makes of `sub`, cheap and small enough to be kept. -/
structure Expands (sub best c : Costed K) : Prop where
  cost : c.graph.sumCost env.opCost = .ok c.cached
  cheap : c.cached < best.cached * alpha
  small : c.graph.inEdges.keys.length < 2 * maxNumOps
  rule : ∃ x ∈ rules, Rewrites x sub.graph c.graph

/-- One step of the search. -/
abbrev SearchStep : State (Costed K) → State (Costed K) → Prop :=
  BestFirst.Step Costed.cached (env.Expands alpha maxNumOps rules)

abbrev Known (c : Costed K) : Prop :=
  0 < c.cached ∨ c.graph.sumCost env.opCost = .ok c.cached

/-- Between two rounds: the cost that is compared is the best graph's, the rules are those that
were loaded, and `total_cost` of a candidate changes nothing. -/
structure Fits (st : OptState K) : Prop where
  cost : st.bestCost = st.bestGraph.cached
  rules : ∀ x ∈ st.xfers, x.rule ∈ rules
  known : ∀ c ∈ st.candidates, env.Known c

/-- From `st` to `st'` graphs were put into the heap, and nothing else happened to it. -/
structure Grown (st st' : OptState K) : Prop where
  steps : Relation.ReflTransGen (env.SearchStep alpha maxNumOps rules) (entries st) (entries st')
  popped : st'.popped = st.popped
  bestGraph : st'.bestGraph = st.bestGraph
  bestCost : st'.bestCost = st.bestCost
  known : (∀ c ∈ st.candidates, env.Known c) → ∀ c ∈ st'.candidates, env.Known c

variable {env alpha maxNumOps rules} {st st' st1 : OptState K} {sub : Costed K}

theorem Grown.refl (st : OptState K) : env.Grown alpha maxNumOps rules st st :=
  ⟨.refl, rfl, rfl, rfl, id⟩

theorem Grown.trans (h : env.Grown alpha maxNumOps rules st st1)
    (h' : env.Grown alpha maxNumOps rules st1 st') : env.Grown alpha maxNumOps rules st st' where
  steps := h.steps.trans h'.steps
  popped := h'.popped.trans h.popped
  bestGraph := h'.bestGraph.trans h.bestGraph
  bestCost := h'.bestCost.trans h.bestCost
  known := fun hknown => h'.known (h.known hknown)

theorem grown_heappush {c : Costed K} (hlast : st.popped.head? = some sub)
    (hc : env.Expands alpha maxNumOps rules sub st.bestGraph c) :
    env.Grown alpha maxNumOps rules st (env.heappush sub st c) where
  steps := .single (.push hlast hc (env.heapq.push_perm c st.candidates))
  popped := rfl
  bestGraph := rfl
  bestCost := rfl
  known := fun hknown c' hc' => by
    rcases List.mem_cons.mp ((env.heapq.push_perm c st.candidates).mem_iff.mp hc') with rfl | hc'
    · exact .inr hc.cost
    · exact hknown c' hc'

theorem grown_heappushes (cs : List (Costed K)) (hlast : st.popped.head? = some sub)
    (hcs : ∀ c ∈ cs, env.Expands alpha maxNumOps rules sub st.bestGraph c) :
    env.Grown alpha maxNumOps rules st (cs.foldl (env.heappush sub) st) := by
  induction cs generalizing st with
  | nil => exact Grown.refl st
  | cons c cs ih =>
    have hfirst := grown_heappush hlast (hcs c (List.mem_cons_self ..))
    refine hfirst.trans (ih hlast fun c' hc' => ?_)
    exact hcs c' (List.mem_cons_of_mem _ hc')

theorem keeps_iff {threshold : K} {g : Graph} : env.keeps threshold maxNumOps g = true ↔
    ∃ total, g.sumCost env.opCost = .ok total ∧ total < threshold ∧
      g.inEdges.keys.length < maxNumOps := by
  unfold keeps
  cases g.sumCost env.opCost with
  | error e => simp [Except.toOption]
  | ok total => simp [Except.toOption]

theorem grown_runXfer {x x' : Xfer} (hrule : x.rule ∈ rules) (hlast : st.popped.head? = some sub)
    (h : env.runXfer (st.bestGraph.cached * alpha) (2 * maxNumOps) sub x st = .ok (x', st')) :
    env.Grown alpha maxNumOps rules st st' ∧ x'.rule = x.rule := by
  obtain ⟨out, hrun, h⟩ := bind_ok_iff.mp h
  cases h
  obtain ⟨-, hcands⟩ := run_candidates x.rule.srcOps 0 rfl
    (fun k hk => absurd hk (Nat.not_lt_zero k)) hrun
  -- the model and the hashes are not part of the queue
  have hquiet : env.Grown alpha maxNumOps rules st
      { st with model := out.leaf.model, hashmap := out.leaf.hashmap } := ⟨.refl, rfl, rfl, rfl, id⟩
  refine ⟨hquiet.trans (grown_heappushes _ hlast fun c hc => ?_), rfl⟩
  obtain ⟨g, hg, rfl⟩ := List.mem_map.mp hc
  obtain ⟨hkeep, hrewrites⟩ := (hcands g (List.mem_reverse.mp hg)).resolve_left (List.not_mem_nil)
  obtain ⟨total, htotal, hcheap, hsmall⟩ := keeps_iff.mp hkeep
  have hcost : (env.candidate g).cached = total := by
    rw [candidate, htotal]
    rfl
  refine ⟨?_, ?_, hsmall, x.rule, hrule, hrewrites⟩
  · rw [hcost]
    exact htotal
  · rw [hcost]
    exact hcheap

theorem grown_runXfers (xs : List Xfer) {xs' : List Xfer} (hrules : ∀ x ∈ xs, x.rule ∈ rules)
    (hlast : st.popped.head? = some sub)
    (h : env.runXfers (st.bestGraph.cached * alpha) (2 * maxNumOps) sub xs st = .ok (xs', st')) :
    env.Grown alpha maxNumOps rules st st' ∧ ∀ x ∈ xs', x.rule ∈ rules := by
  induction xs generalizing st xs' with
  | nil =>
    cases h
    exact ⟨Grown.refl _, hrules⟩
  | cons x xs ih =>
    obtain ⟨⟨x', st1⟩, hfirst, h⟩ := bind_ok_iff.mp h
    obtain ⟨⟨xs1, st2⟩, hrest, h⟩ := bind_ok_iff.mp h
    cases h
    obtain ⟨hrule, hrules⟩ := List.forall_mem_cons.mp hrules
    obtain ⟨hgrown, hsame⟩ := grown_runXfer hrule hlast hfirst
    rw [← hgrown.bestGraph] at hrest
    obtain ⟨hgrown', hrules'⟩ := ih hrules (by rw [hgrown.popped]; exact hlast) hrest
    refine ⟨hgrown.trans hgrown', List.forall_mem_cons.mpr ⟨?_, hrules'⟩⟩
    rw [hsame]
    exact hrule

theorem expand_steps (hfits : env.Fits rules st) (hlast : st.popped.head? = some sub)
    (h : env.expand alpha maxNumOps sub st = .ok st') :
    Relation.ReflTransGen (env.SearchStep alpha maxNumOps rules) (entries st) (entries st') ∧
      env.Fits rules st' ∧ st'.popped = st.popped := by
  obtain ⟨⟨xfers, st1⟩, hrun, h⟩ := bind_ok_iff.mp h
  cases h
  rw [hfits.cost] at hrun
  obtain ⟨hgrown, hrules⟩ := grown_runXfers st.xfers hfits.rules hlast hrun
  refine ⟨hgrown.steps, ⟨?_, hrules, hgrown.known hfits.known⟩, hgrown.popped⟩
  show st1.bestCost = st1.bestGraph.cached
  rw [hgrown.bestCost, hgrown.bestGraph, hfits.cost]

theorem select_step (alpha : K) (maxNumOps : Nat) {rest : List (Costed K)} (hfits : env.Fits rules st)
    (hpop : env.heapq.pop st.candidates = some (sub, rest))
    (h : env.select sub rest st = .ok st') :
    env.SearchStep alpha maxNumOps rules (entries st) (entries st') ∧
      env.Fits rules st' ∧ st'.popped = sub :: st.popped := by
  have hperm := env.heapq.pop_perm hpop
  have hstep : env.SearchStep alpha maxNumOps rules (entries st)
      ⟨rest, if sub.cached < st.bestGraph.cached then sub else st.bestGraph, sub :: st.popped,
        st.pushed⟩ := .pop hperm
  have hsub : env.Known sub := hfits.known sub (hperm.mem_iff.mpr (List.mem_cons_self ..))
  have hrest : ∀ c ∈ rest, env.Known c :=
    fun c hc => hfits.known c (hperm.mem_iff.mpr (List.mem_cons_of_mem _ hc))
  unfold select at h
  dsimp only at h
  rw [hfits.cost] at h
  split at h
  · next hless =>
    rw [Costed.totalCost_known hsub] at h
    cases h
    rw [if_pos hless] at hstep
    exact ⟨hstep, ⟨rfl, hfits.rules, hrest⟩, rfl⟩
  · next hless =>
    cases h
    rw [if_neg hless] at hstep
    exact ⟨hstep, ⟨rfl, hfits.rules, hrest⟩, rfl⟩

/-- **The loop is a run of the search**, with at most `left + 1` graphs taken out, and one at least
if there is any. -/
theorem searchLoop_steps (left : Nat) (hfits : env.Fits rules st)
    (h : env.searchLoop alpha maxNumOps left st = .ok st') :
    Relation.ReflTransGen (env.SearchStep alpha maxNumOps rules) (entries st) (entries st') ∧
      st'.popped.length ≤ st.popped.length + (left + 1) ∧
      st.popped.length ≤ st'.popped.length ∧
      (st.candidates ≠ [] → st.popped.length < st'.popped.length) := by
  induction left generalizing st with
  | zero =>
    unfold searchLoop at h
    split at h
    · next hpop =>
      cases h
      exact ⟨.refl, Nat.le_add_right .., Nat.le_refl _,
        fun hne => absurd (env.heapq.pop_none hpop) hne⟩
    · next sub rest hpop =>
      obtain ⟨hstep, -, hpopped⟩ := select_step alpha maxNumOps hfits hpop h
      rw [hpopped, List.length_cons]
      exact ⟨.single hstep, Nat.le_refl _, Nat.le_succ _, fun _ => Nat.lt_succ_self _⟩
  | succ left ih =>
    unfold searchLoop at h
    split at h
    · next hpop =>
      cases h
      exact ⟨.refl, Nat.le_add_right .., Nat.le_refl _,
        fun hne => absurd (env.heapq.pop_none hpop) hne⟩
    · next sub rest hpop =>
      obtain ⟨st1, hselect, h⟩ := bind_ok_iff.mp h
      obtain ⟨st2, hexpand, h⟩ := bind_ok_iff.mp h
      obtain ⟨hstep, hfits1, hpopped1⟩ := select_step alpha maxNumOps hfits hpop hselect
      obtain ⟨hsteps, hfits2, hpopped2⟩ := expand_steps hfits1 (by rw [hpopped1]; rfl) hexpand
      obtain ⟨hrun, hupper, hlower, -⟩ := ih hfits2 h
      rw [hpopped2, hpopped1, List.length_cons] at hupper hlower
      exact ⟨(Relation.ReflTransGen.head hstep hsteps).trans hrun, by omega, by omega,
        fun _ => hlower⟩

theorem fits_initialState (m : Model) {start : Costed K} (hknown : env.Known start) :
    env.Fits rules (env.initialState rules m start) where
  cost := rfl
  rules := fun x hx => by
    obtain ⟨rule, hrule, rfl⟩ := List.mem_map.mp hx
    exact hrule
  known := fun c hc => by
    have hmem := (env.heapq.push_perm start []).mem_iff.mp hc
    rw [List.mem_singleton.mp hmem]
    exact hknown

omit [Field K] [LinearOrder K] in
/-- A heap with one entry is the list of it. -/
theorem entries_initialState (m : Model) (start : Costed K) :
    entries (env.initialState rules m start) = initial start := by
  have hheap : env.heapq.push start [] = [start] :=
    List.perm_singleton.mp (env.heapq.push_perm start [])
  unfold entries initialState initial
  rw [hheap]

/-! ## What the search finds -/

/-- `best` is the cost of the graph the search has selected when it ends. -/
structure Finds (alpha : K) (budget : Nat) (rules : List Rule) (m : Model) (start : Costed K)
    (env : OptEnv K) (st : OptState K) (best : K) : Prop where
  pops : st.popped.length ≤ budget + 2
  selected : st.bestGraph ∈ st.popped
  cost : st.bestGraph.graph.sumCost env.opCost = .ok best
  least : ∀ c ∈ st.popped, ∃ total, c.graph.sumCost env.opCost = .ok total ∧ best ≤ total
  below : ∃ total, start.graph.sumCost env.opCost = .ok total ∧ best ≤ total
  -- each graph put into the heap, with the best one at that time
  pushed : ∀ p ∈ st.pushed,
    Relation.ReflTransGen (fun g g' => ∃ x ∈ rules, Rewrites x g g') start.graph p.entry.graph ∧
      ∃ total known, p.entry.graph.sumCost env.opCost = .ok total ∧
        p.best.graph.sumCost env.opCost = .ok known ∧ total < alpha * known ∧
        p.entry.graph.inEdges.keys.length < 2 * start.graph.inEdges.keys.length
  cleaned : ∀ g', env.optimize alpha budget rules m start = .ok g' →
    ∃ total, g'.sumCost env.opCost = .ok total ∧ total ≤ best

/-- The graphs of a chain of expansions come from each other by the rules. -/
theorem rewrites_of_leads {first c : Costed K}
    (h : Relation.ReflTransGen (Leads (env.Expands alpha maxNumOps rules)) first c) :
    Relation.ReflTransGen (fun g g' => ∃ x ∈ rules, Rewrites x g g') first.graph c.graph :=
  h.lift Costed.graph fun _ _ hleads => hleads.elim fun _ hexp => hexp.rule

/-- **The search of `optimize` finds the cheapest graph it looks at**, if the start graph's
`totalCost` was not computed before the graph was complete. -/
theorem search_finds [IsStrictOrderedRing K] (env : OptEnv K) (hcost : ∀ p, 0 ≤ env.opCost p)
    (alpha : K) (budget : Nat) (rules : List Rule) (m : Model) (start : Costed K)
    (hown : ∀ op, ∀ e ∈ start.graph.ins op, e.dstOp = op) (hfresh : start.Fresh env.opCost)
    (hreturns : ∀ e, env.search alpha budget rules m start ≠ .error e) :
    ∃ st best, env.search alpha budget rules m start = .ok st ∧
      Finds alpha budget rules m start env st best := by
  cases hsearch : env.search alpha budget rules m start with
  | error e => exact absurd hsearch (hreturns e)
  | ok st =>
    obtain ⟨first, hfirst, hloop⟩ := bind_ok_iff.mp hsearch
    obtain ⟨hgraph, hsum⟩ := Costed.totalCost_fresh hfirst hfresh
    obtain ⟨hsteps, hpops, -, hgrows⟩ := searchLoop_steps (budget + 1)
      (fits_initialState m (Costed.known_totalCost hfirst)) hloop
    rw [entries_initialState] at hsteps
    have hinv := inv_initial.run hsteps
    have hne : st.popped ≠ [] := by
      have hheap : (env.initialState rules m first).candidates ≠ [] := fun hnil => by
        have hperm := env.heapq.push_perm first []
        rw [show env.heapq.push first [] = [] from hnil] at hperm
        exact absurd hperm.length_eq (by simp)
      exact List.ne_nil_of_length_pos (Nat.lt_of_le_of_lt (Nat.zero_le _) (hgrows hheap))
    obtain ⟨hfirstMem, hbestMem⟩ := hinv.taken hne
    -- the cached number of every graph the search has reached is its cost
    have hcached : ∀ c, Relation.ReflTransGen (Leads (env.Expands alpha
        first.graph.inEdges.keys.length rules)) first c →
        c.graph.sumCost env.opCost = .ok c.cached ∧ ∀ op, ∀ e ∈ c.graph.ins op, e.dstOp = op := by
      intro c hc
      rcases first_or_expanded hc with rfl | ⟨source, best, hexp⟩
      · rw [hgraph]
        exact ⟨hsum, hown⟩
      · obtain ⟨x, -, hrewrites⟩ := hexp.rule
        exact ⟨hexp.cost, hrewrites.inOwn⟩
    have hpopped : ∀ c ∈ st.popped, c.graph.sumCost env.opCost = .ok c.cached ∧
        ∀ op, ∀ e ∈ c.graph.ins op, e.dstOp = op := fun c hc => hcached c (hinv.popped c hc)
    obtain ⟨hbest, hbestOwn⟩ := hpopped st.bestGraph hbestMem
    have hbudget : st.popped.length ≤ budget + 2 := by
      rw [show (env.initialState rules m first).popped = [] from rfl, List.length_nil] at hpops
      omega
    refine ⟨st, st.bestGraph.cached, rfl, hbudget, hbestMem, hbest, fun c hc => ?_, ?_,
      fun p hp => ?_, fun g' hg' => ?_⟩
    · exact ⟨c.cached, (hpopped c hc).1, hinv.least c hc⟩
    · exact ⟨first.cached, hsum, hinv.least first hfirstMem⟩
    · obtain ⟨hexp, hfrom, hknown⟩ := hinv.pushed p hp
      have hreached := hfrom.tail ⟨p.best, hexp⟩
      have hknownMem : p.best ∈ st.popped := by
        rcases hknown with heq | hmem
        · rw [heq]
          exact hfirstMem
        · exact hmem
      rw [← hgraph]
      refine ⟨rewrites_of_leads hreached, p.entry.cached, p.best.cached, hexp.cost,
        (hpopped _ hknownMem).1, ?_, hexp.small⟩
      rw [mul_comm]
      exact hexp.cheap
    · obtain ⟨st', hst', hclean⟩ := bind_ok_iff.mp hg'
      rw [hsearch] at hst'
      cases hst'
      exact Graph.preprocessWeights_sumCost hcost hbestOwn hclean hbest

/-- A convolution with stride 1 and its activation. -/
def convConstraints (activation : ActiMode) : List PMConstraint :=
  [⟨.COMPARE_EQ, .PM_STRIDE_H, .int 1⟩, ⟨.COMPARE_EQ, .PM_STRIDE_W, .int 1⟩,
    ⟨.COMPARE_EQ, .PM_PAD, .padding .PD_MODE_SAME⟩, ⟨.COMPARE_EQ, .PM_ACTI, .acti activation⟩]

/-- The rule of `create_conv_relu`: an activation moves into the convolution before it. -/
def convRelu : Rule where
  srcOps := [⟨.OP_CONV2D, [.ext 0, .ext 1], convConstraints .AC_MODE_NONE, []⟩,
    ⟨.OP_RELU, [.out 0 0], [], []⟩]
  dstOps := [⟨.OP_CONV2D, [.ext 0, .ext 1], convConstraints .AC_MODE_RELU, []⟩]
  mappedOutputs := [((1, 0), (0, 0))]

/-- Every operator costs 0.1, as the source has it. -/
def tenths : OptEnv ℚ where
  opCost := fun _ => 1 / 10
  hash := fun g => g.inEdges.keys.length
  heapq := Queue.sorted fun a b => decide (a.cached < b.cached)

-- a convolution, and then an activation
def convCalls : List Call :=
  [.newInput [1, 1, 2, 2], .newWeight [1, 1, 1, 1] (some 0),
    .conv2d 0 1 1 1 .PD_MODE_SAME .AC_MODE_NONE]

def convReluCalls : List Call := convCalls ++ [.relu 2 false]

/-- The graph a list of calls builds, with its `Model`. -/
def built (calls : List Call) : Except PyError (Graph × Model) := do
  let s ← (calls.map Step.build).foldlM Session.step Session.start
  let m ← s.model s.current
  return (s.graph, m)

theorem built_inOwn {calls : List Call} {g : Graph} {m : Model} (h : built calls = .ok (g, m)) :
    ∀ op, ∀ e ∈ g.ins op, e.dstOp = op := by
  obtain ⟨s, hs, h⟩ := bind_ok_iff.mp h
  obtain ⟨m', -, h⟩ := bind_ok_iff.mp h
  cases h
  have hsound := Session.sound_of_reachable (Session.reachable_of_builds _ hs)
  exact hsound.inv.graph.inOwn

/-- The search with the rule, from a graph whose `total_cost` was not asked for before. -/
theorem search_finds_convRelu : ∃ (g : Graph) (m : Model) (st : OptState ℚ) (best : ℚ),
    built convReluCalls = .ok (g, m) ∧ tenths.search 2 0 [convRelu] m ⟨g, 0⟩ = .ok st ∧
      Finds 2 0 [convRelu] m ⟨g, 0⟩ tenths st best := by
  have hrun : (built convReluCalls >>= fun p =>
      (tenths.search 2 0 [convRelu] p.2 ⟨p.1, 0⟩).map fun _ => ()).toOption = some () := by
    decide +kernel
  obtain ⟨⟨g, m⟩, hbuilt, hrun⟩ := bind_ok_iff.mp (toOption_eq_some.mp hrun)
  have hreturns : ∀ e, tenths.search 2 0 [convRelu] m ⟨g, 0⟩ ≠ .error e := by
    intro e herror
    rw [show (⟨g, m⟩ : Graph × Model).2 = m from rfl, herror] at hrun
    cases hrun
  have hcost : ∀ p, 0 ≤ tenths.opCost p := fun _ => (by decide +kernel : (0 : ℚ) ≤ 1 / 10)
  obtain ⟨st, best, hst, hfinds⟩ := search_finds tenths hcost 2 0 [convRelu] m ⟨g, 0⟩
    (built_inOwn hbuilt) (fun hpos => absurd hpos (lt_irrefl 0)) hreturns
  exact ⟨g, m, st, best, hbuilt, hst, hfinds⟩

/-- `total_cost` is asked for before the activation is added, and 0.3 stays in `totalCost`. The
cheaper graph is taken out of the heap, but 0.3 is not below 0.3; the start graph is selected, and
costs 0.4. -/
theorem search_stale : ∃ (early g : Graph) (m₀ m : Model) (st : OptState ℚ) (g' : Graph),
    built convCalls = .ok (early, m₀) ∧ early.sumCost tenths.opCost = .ok (3 / 10) ∧
      built convReluCalls = .ok (g, m) ∧
      tenths.search 2 0 [convRelu] m ⟨g, 3 / 10⟩ = .ok st ∧
      (∃ c ∈ st.popped, c.graph.sumCost tenths.opCost = .ok (3 / 10)) ∧
      st.bestGraph.graph.sumCost tenths.opCost = .ok (4 / 10) ∧
      tenths.optimize 2 0 [convRelu] m ⟨g, 3 / 10⟩ = .ok g' ∧
      g'.sumCost tenths.opCost = .ok (4 / 10) := by
  have hearly : (built convCalls >>= fun p => p.1.sumCost tenths.opCost).toOption =
      some (3 / 10) := by decide +kernel
  have hlate : (built convReluCalls >>= fun p =>
      tenths.search 2 0 [convRelu] p.2 ⟨p.1, 3 / 10⟩ >>= fun st =>
        st.bestGraph.graph.preprocessWeights >>= fun g' => pyAssert
          ((∃ c ∈ st.popped, (c.graph.sumCost tenths.opCost).toOption = some (3 / 10)) ∧
            (st.bestGraph.graph.sumCost tenths.opCost).toOption = some (4 / 10) ∧
            (g'.sumCost tenths.opCost).toOption = some (4 / 10))).toOption = some () := by
    decide +kernel
  obtain ⟨⟨early, m₀⟩, hbuilt₀, hcost₀⟩ := bind_ok_iff.mp (toOption_eq_some.mp hearly)
  obtain ⟨⟨g, m⟩, hbuilt, hlate⟩ := bind_ok_iff.mp (toOption_eq_some.mp hlate)
  obtain ⟨st, hst, hlate⟩ := bind_ok_iff.mp hlate
  obtain ⟨g', hclean, hlate⟩ := bind_ok_iff.mp hlate
  obtain ⟨⟨c, hc, hcheap⟩, hbest, hdear⟩ := pyAssert_eq_ok.mp hlate
  refine ⟨early, g, m₀, m, st, g', hbuilt₀, hcost₀, hbuilt, hst,
    ⟨c, hc, toOption_eq_some.mp hcheap⟩, toOption_eq_some.mp hbest, ?_,
    toOption_eq_some.mp hdear⟩
  exact bind_ok_iff.mpr ⟨st, hst, hclean⟩

end OptEnv

end Peps
