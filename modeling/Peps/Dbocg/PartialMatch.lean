import Peps.Dbocg.Match

/-!
# Partial matches, and how `can_match`, `match` and `unmatch` see them

`PartialMatch g srcOps ops` says that the first source operators of a pattern can be mapped to the
operators `ops` of a graph: they fit, they read from each other as the pattern asks, and there is one
tensor for each external tensor. `can_match` decides the inputs of one operator under the bindings
made so far (`canMatch_eq_true`). `match` appends to the bindings (`bindInputs_ok`), and `unmatch`
deletes them (`unbindInputs_ok_iff`), all bindings of an external tensor at once.
-/

namespace Peps

open Lib

/-! ## Partial matches -/

def TensorX.ext? : TensorX → Option Nat
  | .ext idx => some idx
  | .out _ _ => none

/-- The external tensors among `inputs`, with repetitions. -/
def exts (inputs : List TensorX) : List Nat := inputs.filterMap TensorX.ext?

@[simp] theorem exts_nil : exts [] = [] := rfl

@[simp] theorem exts_cons_ext (idx : Nat) (inputs : List TensorX) :
    exts (.ext idx :: inputs) = idx :: exts inputs := rfl

@[simp] theorem exts_cons_out (k idx : Nat) (inputs : List TensorX) :
    exts (.out k idx :: inputs) = exts inputs := rfl

theorem mem_exts {inputs : List TensorX} {idx : Nat} : idx ∈ exts inputs ↔ .ext idx ∈ inputs := by
  unfold exts
  rw [List.mem_filterMap]
  constructor
  · rintro ⟨tx, hmem, heq⟩
    cases tx with
    | ext j =>
      cases heq
      exact hmem
    | out k j => cases heq
  · exact fun h => ⟨_, h, rfl⟩

theorem exists_mem_zipIdx {inputs : List TensorX} {idx : Nat} :
    (∃ i, (TensorX.ext idx, i) ∈ inputs.zipIdx) ↔ idx ∈ exts inputs := by
  rw [mem_exts, List.mem_iff_getElem?]
  simp only [List.mem_zipIdx_iff_getElem?]

/-- The tensor a pattern tensor stands for when the source operators are mapped to `ops` and the
external tensors to `β`. -/
def readsFrom (ops : List Op) (β : Nat → Op × Nat) : TensorX → Option (Op × Nat)
  | .ext idx => some (β idx)
  | .out k idx => ops[k]?.map fun op => (op, idx)

structure OpX.Fits (opx : OpX) (op : Op) : Prop where
  body : ∃ p, op.ptr = some p ∧ opx.type = p.type ∧ opx.inputs.length = p.numInputs
  pm : ∀ pmc ∈ opx.pmConstraints, checkPmConstraint op pmc = .ok true
  tn : ∀ tnc ∈ opx.tnConstraints, checkTnConstraint op tnc = .ok true

/-- Each input of `op` is fed by the edge the pattern asks for. -/
def Fed (g : Graph) (ops : List Op) (β : Nat → Op × Nat) (opx : OpX) (op : Op) : Prop :=
  ∀ i tx, opx.inputs[i]? = some tx →
    ∃ b, readsFrom ops β tx = some b ∧ ⟨b.1, op, b.2, i⟩ ∈ g.ins op

/-- The first source operators can be mapped to `ops`. -/
structure PartialMatch (g : Graph) (srcOps : List OpX) (ops : List Op) : Prop where
  length : ops.length ≤ srcOps.length
  nodup : ops.Nodup
  inGraph : ∀ op ∈ ops, op ∈ g.inEdges.keys
  fits : ∀ (k : Nat) opx op, srcOps[k]? = some opx → ops[k]? = some op → opx.Fits op
  fed : ∃ β, ∀ (k : Nat) opx op, srcOps[k]? = some opx → ops[k]? = some op → Fed g ops β opx op

/-! ## Binding and unbinding external tensors -/

section Inputs

variable {g : Graph} {op : Op}

theorem appendBindings_singleton {inputs : Nat → Option (List (Op × Nat))} {idx : Nat}
    {b : Op × Nat} : appendBindings inputs idx [b] =
      Function.update inputs idx (some ((inputs idx).getD [] ++ [b])) := rfl

/-- What `match` does to the bindings when every slot has one edge: an external tensor keeps the
first tensor it was bound to, and a new one is bound to the source of a slot that reads it. -/
theorem bindInputs_ok {pairs : List (TensorX × Nat)} (inputs : Nat → Option (List (Op × Nat)))
    (hslot : ∀ tx i, (tx, i) ∈ pairs → ∃ b, slotSources g op i = [b]) :
    (∀ idx, bindInputs g op inputs pairs idx = none ↔
      inputs idx = none ∧ ∀ i, (.ext idx, i) ∉ pairs) ∧
    (∀ idx b, (inputs idx).bind List.head? = some b →
      (bindInputs g op inputs pairs idx).bind List.head? = some b) ∧
    ∀ idx, inputs idx = none → bindInputs g op inputs pairs idx ≠ none →
      ∃ i b, (.ext idx, i) ∈ pairs ∧ slotSources g op i = [b] ∧
        (bindInputs g op inputs pairs idx).bind List.head? = some b := by
  induction pairs generalizing inputs with
  | nil =>
    refine ⟨fun idx => ?_, fun idx b hb => hb, fun idx hnone hsome => absurd hnone hsome⟩
    show inputs idx = none ↔ _
    simp
  | cons pair pairs ih =>
    obtain ⟨tx, i⟩ := pair
    have hrest : ∀ tx i, (tx, i) ∈ pairs → ∃ b, slotSources g op i = [b] :=
      fun tx i h => hslot tx i (List.mem_cons_of_mem _ h)
    cases tx with
    | out k j =>
      obtain ⟨hnone, hhead, hnew⟩ := ih inputs hrest
      refine ⟨fun idx => ?_, hhead, fun idx h1 h2 => ?_⟩
      · show bindInputs g op inputs pairs idx = none ↔ _
        rw [hnone]
        simp
      · obtain ⟨i', b, hmem, hb⟩ := hnew idx h1 h2
        exact ⟨i', b, List.mem_cons_of_mem _ hmem, hb⟩
    | ext j =>
      obtain ⟨b, hb⟩ := hslot (.ext j) i (List.mem_cons_self ..)
      have hbind : ∀ idx, bindInputs g op inputs ((.ext j, i) :: pairs) idx = bindInputs g op
          (Function.update inputs j (some ((inputs j).getD [] ++ [b]))) pairs idx := by
        intro idx
        rw [bindInputs, hb, appendBindings_singleton]
      obtain ⟨hnone, hhead, hnew⟩ :=
        ih (Function.update inputs j (some ((inputs j).getD [] ++ [b]))) hrest
      simp only [hbind]
      refine ⟨fun idx => ?_, fun idx c hc => ?_, fun idx h1 h2 => ?_⟩
      · rw [hnone]
        by_cases hidx : idx = j
        · subst hidx
          rw [Function.update_self]
          refine iff_of_false (fun h => (by cases h.1)) fun h => h.2 i (List.mem_cons_self ..)
        · rw [Function.update_of_ne hidx]
          simp [hidx]
      · refine hhead idx c ?_
        by_cases hidx : idx = j
        · subst hidx
          rw [Function.update_self]
          cases hold : inputs idx with
          | none =>
            rw [hold] at hc
            cases hc
          | some bs =>
            rw [hold] at hc
            cases bs with
            | nil => cases hc
            | cons d ds => exact hc
        · rw [Function.update_of_ne hidx]
          exact hc
      · by_cases hidx : idx = j
        · subst hidx
          refine ⟨i, b, List.mem_cons_self .., hb, hhead idx b ?_⟩
          rw [Function.update_self, h1]
          rfl
        · obtain ⟨i', c, hmem, hc⟩ := hnew idx (by rwa [Function.update_of_ne hidx]) h2
          exact ⟨i', c, List.mem_cons_of_mem _ hmem, hc⟩

/-- Without any assumption, `match` only binds external tensors of its operator. -/
theorem bindInputs_other {pairs : List (TensorX × Nat)} {inputs : Nat → Option (List (Op × Nat))}
    {idx : Nat} (h : ∀ i, (.ext idx, i) ∉ pairs) :
    bindInputs g op inputs pairs idx = inputs idx := by
  induction pairs generalizing inputs with
  | nil => rfl
  | cons pair pairs ih =>
    obtain ⟨tx, i⟩ := pair
    have hrest : ∀ i, (.ext idx, i) ∉ pairs := fun i' hmem => h i' (List.mem_cons_of_mem _ hmem)
    cases tx with
    | out k j => exact ih hrest
    | ext j =>
      have hne : idx ≠ j := by
        rintro rfl
        exact h i (List.mem_cons_self ..)
      rw [bindInputs, ih hrest, appendBindings]
      split
      · rfl
      · rw [Function.update_of_ne hne]

/-- `unmatch` needs every external tensor of its operator once, and deletes it. -/
theorem unbindInputs_ok_iff {inputs out : Nat → Option (List (Op × Nat))} {txs : List TensorX} :
    unbindInputs inputs txs = .ok out ↔ (exts txs).Nodup ∧ (∀ idx ∈ exts txs, inputs idx ≠ none) ∧
      out = fun idx => if idx ∈ exts txs then none else inputs idx := by
  induction txs generalizing inputs with
  | nil =>
    rw [unbindInputs]
    simp [eq_comm]
  | cons tx txs ih =>
    cases tx with
    | out k j =>
      rw [unbindInputs, ih]
      rfl
    | ext j =>
      rw [unbindInputs, exts_cons_ext, List.nodup_cons]
      cases hold : inputs j with
      | none =>
        refine iff_of_false (fun h => (by cases h)) fun h => ?_
        exact h.2.1 j (List.mem_cons_self ..) hold
      | some bs =>
        rw [ih]
        have hout : (fun idx => if idx ∈ exts txs then none else Function.update inputs j none idx) =
            fun idx => if idx ∈ j :: exts txs then none else inputs idx := by
          funext idx
          by_cases hidx : idx = j
          · simp [hidx]
          · simp [hidx]
        rw [hout, and_assoc, ← and_assoc, ← and_assoc (a := j ∉ exts txs), ← and_assoc]
        refine and_congr_left fun _ => ⟨fun ⟨hnodup, hall⟩ => ?_, fun ⟨⟨hj, hnodup⟩, hall⟩ => ?_⟩
        · refine ⟨⟨fun hj => hall j hj (Function.update_self ..), hnodup⟩, fun idx hidx => ?_⟩
          rcases List.mem_cons.mp hidx with rfl | hidx
          · rw [hold]
            exact Option.some_ne_none bs
          · intro hnone
            refine hall idx hidx ?_
            by_cases hj : idx = j
            · rw [hj, Function.update_self]
            · rw [Function.update_of_ne hj, hnone]
        · refine ⟨hnodup, fun idx hidx => ?_⟩
          have hne : idx ≠ j := by
            rintro rfl
            exact hj hidx
          rw [Function.update_of_ne hne]
          exact hall idx (List.mem_cons_of_mem _ hidx)

/-- In a well-formed graph a slot has one source. -/
theorem slotSources_eq (hg : g.WellFormed) (hop : op ∈ g.inEdges.keys) {i : Nat}
    (hi : i < op.numInputs) : ∃ b, slotSources g op i = [b] ∧
      ∀ c : Op × Nat, ⟨c.1, op, c.2, i⟩ ∈ g.ins op ↔ c = b := by
  have hslots := hg.slots op hop
  obtain ⟨e, he, heq⟩ := hslots.one i hi
  obtain rfl : e.dstOp = op := hg.inOwn op e he
  have hfilter : (g.ins e.dstOp).filter (fun f => f.dstIdx = i) = [e] := by
    rw [← List.perm_singleton, List.perm_ext_iff_of_nodup ((Graph.nodup_ins g _).filter _)
      (List.nodup_singleton e)]
    intro f
    rw [List.mem_filter, List.mem_singleton, decide_eq_true_eq]
    constructor
    · rintro ⟨hf, hfi⟩
      exact hslots.unique f e hf he (hfi.trans heq.symm)
    · rintro rfl
      exact ⟨he, heq⟩
  refine ⟨(e.srcOp, e.srcIdx), by rw [slotSources, hfilter]; rfl, fun c => ⟨fun hc => ?_, ?_⟩⟩
  · have hce := hslots.unique _ e hc he heq.symm
    rw [← hce]
  · rintro rfl
    subst heq
    exact he

/-- Bindings for the external tensors that go with those of the state and of earlier inputs. -/
structure Agrees (s : Matching) (bound : Nat → Option (Op × Nat)) (β : Nat → Op × Nat) : Prop where
  state : ∀ idx b, s.sourceOf (.ext idx) = some b → β idx = b
  bound : ∀ idx b, s.mappedInputs idx = none → bound idx = some b → β idx = b

/-- With the bindings `β` every input among `pairs` is fed. -/
def Feeds (s : Matching) (g : Graph) (op : Op) (pairs : List (TensorX × Nat))
    (β : Nat → Op × Nat) : Prop :=
  ∀ tx i, (tx, i) ∈ pairs →
    match tx with
    | .ext idx => ⟨(β idx).1, op, (β idx).2, i⟩ ∈ g.ins op
    | .out k idx => ⟨s.mapOp k, op, idx, i⟩ ∈ g.ins op

theorem feeds_cons {s : Matching} {tx : TensorX} {i : Nat} {pairs : List (TensorX × Nat)}
    {β : Nat → Op × Nat} : Feeds s g op ((tx, i) :: pairs) β ↔
      Feeds s g op [(tx, i)] β ∧ Feeds s g op pairs β := by
  constructor
  · refine fun h => ⟨fun tx' i' h' => h tx' i' ?_, fun tx' i' h' => h tx' i' ?_⟩
    · rw [List.mem_singleton.mp h']
      exact List.mem_cons_self ..
    · exact List.mem_cons_of_mem _ h'
  · rintro ⟨hfirst, hrest⟩ tx' i' h'
    rcases List.mem_cons.mp h' with h' | h'
    · exact hfirst tx' i' (List.mem_singleton.mpr h')
    · exact hrest tx' i' h'

theorem feeds_ext {s : Matching} {idx i : Nat} {β : Nat → Op × Nat} :
    Feeds s g op [(.ext idx, i)] β ↔ ⟨(β idx).1, op, (β idx).2, i⟩ ∈ g.ins op := by
  refine ⟨fun h => h (.ext idx) i (List.mem_singleton.mpr rfl), fun h tx' i' h' => ?_⟩
  cases List.mem_singleton.mp h'
  exact h

theorem feeds_out {s : Matching} {k idx i : Nat} {β : Nat → Op × Nat} :
    Feeds s g op [(.out k idx, i)] β ↔ ⟨s.mapOp k, op, idx, i⟩ ∈ g.ins op := by
  refine ⟨fun h => h (.out k idx) i (List.mem_singleton.mpr rfl), fun h tx' i' h' => ?_⟩
  cases List.mem_singleton.mp h'
  exact h

/-- A test for the first input, then the loop over the others. -/
theorem feeds_step {s : Matching} {tx : TensorX} {i : Nat} {pairs : List (TensorX × Nat)}
    {bound : Nat → Option (Op × Nat)} {test : Bool} {rest : Except PyError Bool}
    (htest : ∀ β, Agrees s bound β → (test = true ↔ Feeds s g op [(tx, i)] β))
    (hrest : ∃ ok, rest = .ok ok ∧
      (ok = true ↔ ∃ β, Agrees s bound β ∧ Feeds s g op pairs β)) :
    ∃ ok, (if test then rest else .ok false) = .ok ok ∧
      (ok = true ↔ ∃ β, Agrees s bound β ∧ Feeds s g op ((tx, i) :: pairs) β) := by
  cases test with
  | false =>
    refine ⟨false, rfl, iff_of_false Bool.false_ne_true ?_⟩
    rintro ⟨β, hagree, hfeeds⟩
    exact absurd ((htest β hagree).mpr (feeds_cons.mp hfeeds).1) Bool.false_ne_true
  | true =>
    obtain ⟨ok, hrun, hiff⟩ := hrest
    refine ⟨ok, hrun, hiff.trans ⟨?_, ?_⟩⟩
    · exact fun ⟨β, hagree, hfeeds⟩ =>
        ⟨β, hagree, feeds_cons.mpr ⟨(htest β hagree).mp rfl, hfeeds⟩⟩
    · exact fun ⟨β, hagree, hfeeds⟩ => ⟨β, hagree, (feeds_cons.mp hfeeds).2⟩

/-- The loop of `can_match` over the inputs: it accepts if the external tensors can be bound, as
they are already bound by the state or by earlier inputs, so that every input is fed. -/
theorem inputsMatch_ok {s : Matching} {pairs : List (TensorX × Nat)}
    (bound : Nat → Option (Op × Nat))
    (hslot : ∀ tx i, (tx, i) ∈ pairs → ∃ b, slotSources g op i = [b] ∧
      ∀ c : Op × Nat, ⟨c.1, op, c.2, i⟩ ∈ g.ins op ↔ c = b)
    (hinner : ∀ k idx i, (.out k idx, i) ∈ pairs → (s.mapOp k).ptr ≠ none)
    (hhead : ∀ idx bs, s.mappedInputs idx = some bs → bs ≠ []) :
    ∃ ok, inputsMatch s g op pairs bound = .ok ok ∧
      (ok = true ↔ ∃ β, Agrees s bound β ∧ Feeds s g op pairs β) := by
  induction pairs generalizing bound with
  | nil =>
    -- any bindings that agree will do
    refine ⟨true, rfl, iff_of_true rfl ⟨fun idx =>
      ((s.sourceOf (.ext idx)).or (bound idx)).getD (Op.invalid, 0), ⟨fun idx b hb => ?_,
        fun idx b hnone hb => ?_⟩, fun tx i h => (by cases h)⟩⟩
    · rw [hb]
      rfl
    · rw [show s.sourceOf (.ext idx) = none by rw [Matching.sourceOf, hnone]; rfl, hb]
      rfl
  | cons pair pairs ih =>
    obtain ⟨tx, i⟩ := pair
    have hrest := fun bound => ih bound
      (fun tx i h => hslot tx i (List.mem_cons_of_mem _ h))
      (fun k idx i h => hinner k idx i (List.mem_cons_of_mem _ h))
    cases tx with
    | out k idx =>
      have hptr := hinner k idx i (List.mem_cons_self ..)
      rw [inputsMatch, show pyAssert ((s.mapOp k).ptr ≠ none) = .ok () from pyAssert_eq_ok.mpr hptr]
      refine feeds_step (fun β _ => ?_) (hrest bound)
      rw [feeds_out, Graph.hasEdge, decide_eq_true_eq]
    | ext idx =>
      rw [inputsMatch]
      cases hold : s.mappedInputs idx with
      | some bs =>
        -- bound by the state
        cases bs with
        | nil => exact absurd rfl (hhead idx [] hold)
        | cons b bs =>
          refine feeds_step (fun β hagree => ?_) (hrest bound)
          have hb : β idx = b := hagree.state idx b (by rw [Matching.sourceOf, hold]; rfl)
          rw [feeds_ext, hb, Graph.hasEdge, decide_eq_true_eq]
      | none =>
        cases hbound : bound idx with
        | some b =>
          -- bound by an earlier input
          refine feeds_step (fun β hagree => ?_) (hrest bound)
          rw [feeds_ext, hagree.bound idx b hold hbound, Graph.hasEdge, decide_eq_true_eq]
        | none =>
          -- not bound yet: the source of the slot is the only choice
          obtain ⟨b, hb, honly⟩ := hslot (.ext idx) i (List.mem_cons_self ..)
          obtain ⟨ok, hrun, hiff⟩ := hrest (Function.update bound idx (some b))
          simp only [hb, List.getLast?_singleton]
          refine ⟨ok, hrun, hiff.trans ⟨?_, ?_⟩⟩
          · rintro ⟨β, hagree, hfeeds⟩
            have hβ : β idx = b := hagree.bound idx b hold (Function.update_self ..)
            refine ⟨β, ⟨hagree.state, fun j c hnone hc => hagree.bound j c hnone ?_⟩,
              feeds_cons.mpr ⟨feeds_ext.mpr ((honly _).mpr hβ), hfeeds⟩⟩
            have hne : j ≠ idx := by
              rintro rfl
              rw [hbound] at hc
              cases hc
            rw [Function.update_of_ne hne, hc]
          · rintro ⟨β, hagree, hfeeds⟩
            obtain ⟨hfirst, hfeeds⟩ := feeds_cons.mp hfeeds
            refine ⟨β, ⟨hagree.state, fun j c hnone hc => ?_⟩, hfeeds⟩
            by_cases hj : j = idx
            · rw [hj, Function.update_self] at hc
              cases hc
              rw [hj]
              exact (honly _).mp (feeds_ext.mp hfirst)
            · rw [Function.update_of_ne hj] at hc
              exact hagree.bound j c hnone hc

end Inputs

/-! ## `can_match` -/

theorem allM_eq_true {α : Type} {test : α → Except PyError Bool} {xs : List α} :
    allM test xs = .ok true ↔ ∀ x ∈ xs, test x = .ok true := by
  induction xs with
  | nil => simp [allM]
  | cons x xs ih =>
    rw [allM, bind_ok_iff, List.forall_mem_cons, ← ih]
    constructor
    · rintro ⟨ok, htest, hrest⟩
      cases ok with
      | false => cases hrest
      | true => exact ⟨htest, hrest⟩
    · exact fun ⟨htest, hrest⟩ => ⟨true, htest, hrest⟩

theorem canMatch_eq_true {g : Graph} {op : Op} {s : Matching} {opx : OpX} (hg : g.WellFormed)
    (hop : op ∈ g.inEdges.keys)
    (hinner : ∀ k idx, .out k idx ∈ opx.inputs → (s.mapOp k).ptr ≠ none)
    (hhead : ∀ idx bs, s.mappedInputs idx = some bs → bs ≠ []) :
    canMatch s g opx op = .ok true ↔ opx.Fits op ∧
      ∃ β, Agrees s (fun _ => none) β ∧ Feeds s g op opx.inputs.zipIdx β := by
  -- with the right number of inputs, the loop over them is as above
  have hloop : opx.inputs.length = op.numInputs → ∃ ok,
      inputsMatch s g op opx.inputs.zipIdx (fun _ => none) = .ok ok ∧
      (ok = true ↔ ∃ β, Agrees s (fun _ => none) β ∧ Feeds s g op opx.inputs.zipIdx β) := by
    intro hlen
    refine inputsMatch_ok _ (fun tx i h => slotSources_eq hg hop ?_)
      (fun k idx i h => hinner k idx (List.mem_of_getElem? (List.mem_zipIdx_iff_getElem?.mp h)))
      hhead
    rw [← hlen]
    exact (List.getElem?_eq_some_iff.mp (List.mem_zipIdx_iff_getElem?.mp h)).1
  obtain ⟨p, hp⟩ := Option.ne_none_iff_exists'.mp (hg.body op hop)
  have hnum : op.numInputs = p.numInputs := by rw [Op.numInputs, hp]; rfl
  have hbody : op.body = .ok p := by rw [Op.body, hp]
  rw [canMatch, hbody]
  constructor
  · intro h
    replace h : (if opx.type ≠ p.type then Except.ok false else _) = Except.ok true := h
    split at h
    · cases h
    next htype =>
    replace h : (if opx.inputs.length ≠ p.numInputs then Except.ok false else _) = Except.ok true := h
    split at h
    · cases h
    next hlen =>
    simp only [bind_ok_iff] at h
    obtain ⟨pmcs, hpm, h⟩ := h
    split at h
    · cases h
    next hpmcs =>
    simp only [bind_ok_iff] at h
    obtain ⟨inputs, hinputs, h⟩ := h
    split at h
    · cases h
    next hok =>
    rw [Bool.not_eq_false] at hpmcs hok
    rw [hpmcs, allM_eq_true] at hpm
    refine ⟨⟨⟨p, hp, not_not.mp htype, not_not.mp hlen⟩, hpm, allM_eq_true.mp h⟩, ?_⟩
    obtain ⟨ok, hrun, hiff⟩ := hloop ((not_not.mp hlen).trans hnum.symm)
    rw [hrun] at hinputs
    cases hinputs
    exact hiff.mp hok
  · rintro ⟨⟨⟨q, hq, htype, hlen⟩, hpm, htn⟩, hfeeds⟩
    rw [hp] at hq
    cases hq
    obtain ⟨ok, hrun, hiff⟩ := hloop (hlen.trans hnum.symm)
    show (if opx.type ≠ p.type then Except.ok false else _) = Except.ok true
    rw [if_neg (not_not.mpr htype)]
    show (if opx.inputs.length ≠ p.numInputs then Except.ok false else _) = Except.ok true
    rw [if_neg (not_not.mpr hlen), allM_eq_true.mpr hpm]
    show (inputsMatch s g op opx.inputs.zipIdx (fun _ => none) >>= fun _ => _) = _
    rw [hrun, hiff.mpr hfeeds]
    exact allM_eq_true.mpr htn

end Peps
