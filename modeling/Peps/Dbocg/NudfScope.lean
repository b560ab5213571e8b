import Peps.Lib.Bindings
import Peps.Dbocg.NudfStep

/-!
# When an exported query is well scoped

The relations a CTE reads are named after operators, whether or not these have a CTE. Which names
are in scope is a matter of the graph alone: an operator is `visible` when it is an input, a weight
or has a CTE; some operands are looked up in `skip_nodes` first, which leads one step on
(`redirected`). The query is well scoped exactly when every operand is visible in the way its
operator looks at it, and so is the first operator that no other reads (`exportQuery_scoped_iff`).
-/

namespace Peps

open Lib

/-! ## Scopes -/

/-- A weight table: the name of an edge from a weight. -/
def Graph.WeightTable (g : Graph) (r : String) : Prop :=
  ∃ op, ∃ e ∈ g.ins op, e.srcOp.type = some .OP_WEIGHT ∧ inputTensorName e op = .ok r

/-- The relations a query finds before its first CTE. -/
def Graph.Given (g : Graph) (r : String) : Prop := r = inputFeatureMap ∨ g.WeightTable r

/-- Every relation is `input_feature_map`, a weight table or a CTE further up, that of the final
`SELECT` too, and no name is given twice. -/
structure Exported.WellScoped (q : Exported) (g : Graph) : Prop where
  ctes : Scoped Cte.name (fun c => c.command.relations) g.Given q.ctes
  result : g.Given q.result ∨ q.result ∈ q.ctes.map Cte.name
  nodup : (inputFeatureMap :: q.ctes.map Cte.name).Nodup

namespace Graph

/-- The operators that have a CTE. -/
def emits (g : Graph) (op : Op) : Bool :=
  match op.type with
  | some .OP_CONV2D | some .OP_RELU | some .OP_MATMUL | some .OP_POOL2D_AVG => true
  | some .OP_EW_ADD => !g.biasAdd op
  | some .OP_RESHAPE => op.flat
  | _ => false

/-- The operators whose name is in scope. -/
def visible (g : Graph) (op : Op) : Bool :=
  decide (op.type = some .OP_INPUT) || decide (op.type = some .OP_WEIGHT) || g.emits op

/-- The operators whose name is in scope after a look-up in `skip_nodes`. -/
def redirected (g : Graph) (op : Op) : Bool :=
  if g.skips op then (g.source op 0).any g.visible else g.visible op

/-- What an operator reads is in scope, in the way it looks at it. -/
def operandsVisible (g : Graph) (op : Op) : Bool :=
  match op.type with
  | some .OP_CONV2D => (g.source op 0).any g.visible && (g.source op 1).any g.visible
  | some .OP_RELU => (g.source op 0).any g.redirected
  | some .OP_EW_ADD =>
      g.biasAdd op || ((g.source op 0).any g.redirected && (g.source op 1).any g.redirected)
  | some .OP_MATMUL => (g.source op 0).any g.visible && (g.source op 1).any g.redirected
  | some .OP_POOL2D_AVG => (g.source op 0).any g.visible
  | some .OP_RESHAPE => !op.flat || (g.source op 0).any g.visible
  | _ => true

/-- The operators `export` goes through, all but the last. -/
def exportedOps (g : Graph) : List Op :=
  match g.getOperatorList with
  | .ok (ops, _) => ops.dropLast
  | .error _ => []

-- no operator of the list reads it
def unreadIn (g : Graph) (ops : List Op) (op : Op) : Bool :=
  ops.all fun v => (g.readEdges v).all fun e => decide (e.srcOp ≠ op)

/-- The operator the final `SELECT` reads, the first that no other reads. -/
def resultOp (g : Graph) : Option Op := g.exportedOps.find? (g.unreadIn g.exportedOps)

variable {g : Graph} {op : Op}

theorem isSome_commandOf (skip_nodes : String → Option String) :
    (g.commandOf skip_nodes op).isSome = g.emits op := by
  unfold commandOf emits
  cases op.type with
  | none => rfl
  | some type => cases type <;> first | rfl | (cases g.biasAdd op <;> rfl) | (cases op.flat <;> rfl)

/-- The names of operators are not given. -/
theorem not_given_outName : ¬ g.Given op.outName := by
  have hlast := lastLetter_outName op
  rintro (heq | ⟨v, e, -, hweight, hname⟩)
  · rw [heq] at hlast
    exact absurd hlast (by decide)
  · exact lastLetter_inputTensorName hweight hname hlast

/-! ## Operands

`done` are the operators `export` has been through. -/

section Operands

variable {done : List Op}

/-- The names of the CTEs so far. -/
def cteNames (g : Graph) (done : List Op) : List String := (done.filter g.emits).map Op.outName

/-- A relation that the next CTE may read. -/
def InScope (g : Graph) (done : List Op) (r : String) : Prop := g.Given r ∨ r ∈ g.cteNames done

/-- `skip_nodes` so far. -/
structure Skipped (g : Graph) (done : List Op) (skip_nodes : String → Option String) : Prop where
  hit : ∀ op ∈ done, skip_nodes op.outName = if g.skips op then some (g.nameAt op 0) else none
  miss : ∀ name, (∀ op ∈ done, op.outName ≠ name) → skip_nodes name = none

variable (hg : g.WellFormed) (hl : g.Laid) (hdone : g.Sorted done)

include hg hdone in
theorem outName_inj_on {op k : Op} (hop : op ∈ g.inEdges.keys) (hk : k ∈ done)
    (h : k.outName = op.outName) : k = op :=
  hg.unique k op (Or.inl (hdone.known k hk).1) (Or.inl hop) (outName_injective h)

include hg hdone in
theorem inScope_outName (hop : op ∈ done) : g.InScope done op.outName ↔ g.emits op = true := by
  constructor
  · rintro (hgiven | hmem)
    · exact absurd hgiven not_given_outName
    · obtain ⟨k, hk, hname⟩ := List.mem_map.mp hmem
      obtain ⟨hk, hemits⟩ := List.mem_filter.mp hk
      rwa [← outName_inj_on hg hdone (hdone.known op hop).1 hk hname]
  · exact fun hemits => Or.inr (List.mem_map_of_mem (List.mem_filter.mpr ⟨hop, hemits⟩))

section Slot

variable {i : Nat} {e : Edge} (hkey : op ∈ g.inEdges.keys) (hc : op.computes)
  (hslot : g.Slot op i e) (hi : i < op.slots)
  (hrelu : e.srcOp.type = some .OP_WEIGHT → op.type ≠ some .OP_RELU)
  (hbefore : e.srcOp.computes → e.srcOp ∈ done)

include hl hkey hc hslot hi hrelu in
/-- What comes from an input or a weight is given. -/
theorem given_name (hsource : ¬ e.srcOp.computes) : g.Given (e.name op) := by
  by_cases hinput : e.srcOp.type = some .OP_INPUT
  · left
    rw [Edge.name, if_pos hinput]
  · have hweight : e.srcOp.type = some .OP_WEIGHT := by
      by_contra hne
      exact hsource ⟨hinput, hne⟩
    obtain ⟨p, hp, hk⟩ := hl.kind hkey hc
    refine Or.inr ⟨op, e, hslot.mem, hweight, ?_⟩
    exact inputTensorName_ok hp hk (hl.body op hkey) hslot.onnx hslot.src (by rwa [hslot.dst]) hrelu

theorem visible_of_not_computes {src : Op} (h : ¬ src.computes) :
    g.visible src = true ∧ g.skips src = false := by
  have hcases : src.type = some .OP_INPUT ∨ src.type = some .OP_WEIGHT := by
    by_contra hne
    exact h (not_or.mp hne)
  rcases hcases with htype | htype
  · simp [visible, skips, biasAdd, htype]
  · simp [visible, skips, biasAdd, htype]

theorem visible_of_computes {src : Op} (h : src.computes) : g.visible src = g.emits src := by
  simp [visible, h.1, h.2]

include hg hl hdone hkey hc hslot hi hrelu hbefore in
/-- **An operand as it is** is in scope if its operator is visible. -/
theorem inScope_name : g.InScope done (e.name op) ↔ g.visible e.srcOp = true := by
  by_cases hsrc : e.srcOp.computes
  · rw [Edge.name_of_computes hsrc, visible_of_computes hsrc]
    exact inScope_outName hg hdone (hbefore hsrc)
  · exact iff_of_true (Or.inl (given_name hl hkey hc hslot hi hrelu hsrc))
      (visible_of_not_computes hsrc).1

theorem skips_cases {src : Op} (h : g.skips src = true) :
    src.computes ∧ src.type ≠ some .OP_RELU := by
  have hcases : src.type = some .OP_TRANSPOSE ∨ src.type = some .OP_EW_ADD := by
    rcases Bool.or_eq_true_iff.mp h with h | h
    · exact Or.inl (of_decide_eq_true h)
    · exact Or.inr (of_decide_eq_true (Bool.and_eq_true_iff.mp h).1)
  rcases hcases with htype | htype
  · simp [Op.computes, htype]
  · simp [Op.computes, htype]

include hg hl hdone hkey hc hslot hi hrelu hbefore in
/-- **An operand that is looked up** in `skip_nodes`. -/
theorem inScope_resolve {skip_nodes : String → Option String} (hskip : g.Skipped done skip_nodes) :
    g.InScope done (resolve skip_nodes (e.name op)) ↔ g.redirected e.srcOp = true := by
  unfold resolve redirected
  by_cases hsrc : e.srcOp.computes
  · have hmem := hbefore hsrc
    rw [Edge.name_of_computes hsrc, hskip.hit _ hmem]
    by_cases hskips : g.skips e.srcOp = true
    · -- its first operand stands in for it
      obtain ⟨hsrckey, -⟩ := hdone.known _ hmem
      obtain ⟨before, rest, hsplit⟩ := List.append_of_mem hmem
      have hpos : 0 < e.srcOp.slots := by
        have := hg.arity _ hsrckey
        unfold Op.slots
        split <;> omega
      obtain ⟨f, hf⟩ := slot_ok hg hl hsrckey hsrc (i := 0) (by
        have := hg.arity _ hsrckey
        omega)
      rw [if_pos hskips, if_pos hskips, hf.nameAt, hf.source, Option.any_some]
      refine inScope_name hg hl hdone hsrckey hsrc hf hpos (fun _ => (skips_cases hskips).2)
        fun hcomputes => ?_
      rw [hsplit]
      exact List.mem_append_left _ (hdone.after before _ rest hsplit f hf.mem hcomputes)
    · rw [if_neg hskips, if_neg hskips, Option.getD_none, visible_of_computes hsrc]
      exact inScope_outName hg hdone hmem
  · have hgiven := given_name hl hkey hc hslot hi hrelu hsrc
    obtain ⟨hvisible, hskips⟩ := visible_of_not_computes (g := g) hsrc
    have hmiss : skip_nodes (e.name op) = none :=
      hskip.miss _ fun k _ heq => @not_given_outName g k (heq ▸ hgiven)
    rw [hmiss, hskips, if_neg Bool.false_ne_true]
    exact iff_of_true (Or.inl hgiven) hvisible

end Slot

variable (hnext : g.Sorted (done ++ [op])) (hread : g.readable op = true)

include hg hl hdone hnext hread in
/-- **The operands of the next operator**, by slot: as they are, and looked up. -/
theorem inScope_nameAt {skip_nodes : String → Option String} (hskip : g.Skipped done skip_nodes)
    {i : Nat} (hi : i < op.slots) :
    (g.InScope done (g.nameAt op i) ↔ (g.source op i).any g.visible = true) ∧
      (g.InScope done (resolve skip_nodes (g.nameAt op i)) ↔
        (g.source op i).any g.redirected = true) := by
  obtain ⟨hkey, hc⟩ := hnext.known op (by simp)
  obtain ⟨-, hlen, hslots⟩ := getInputEdges_slots hg hl hkey hc
  have he := List.getElem?_eq_getElem (hlen.symm ▸ hi)
  have hslot := hslots i _ he
  have hreadable := of_decide_eq_true (List.all_eq_true.mp hread _ (List.mem_of_getElem? he))
  have hbefore := hnext.after done op [] rfl _ hslot.mem
  rw [hslot.nameAt, hslot.source, Option.any_some, Option.any_some]
  exact ⟨inScope_name hg hl hdone hkey hc hslot hi (fun h => (hreadable h).1) hbefore,
    inScope_resolve hg hl hdone hkey hc hslot hi (fun h => (hreadable h).1) hbefore hskip⟩

include hg hl hdone hnext hread in
/-- **The relations of a command** are in scope if the operands are visible. -/
theorem relations_inScope {skip_nodes : String → Option String} (hskip : g.Skipped done skip_nodes) :
    (∀ command ∈ g.commandOf skip_nodes op, ∀ r ∈ command.relations, g.InScope done r) ↔
      g.operandsVisible op = true := by
  obtain ⟨hkey, hc⟩ := hnext.known op (by simp)
  obtain ⟨p, hp, hk⟩ := hl.kind hkey hc
  obtain ⟨type, name, n, hkind⟩ := hk.isKind hp
  have hname := fun {i : Nat} (hi : i < op.slots) =>
    inScope_nameAt hg hl hdone hnext hread hskip hi
  have htype := hkind.type
  have hslots := hkind.slots
  have hmem := hkind.mem
  unfold commandOf operandsVisible
  rw [htype]
  simp only [kinds, List.mem_cons, List.not_mem_nil, or_false, Prod.mk.injEq] at hmem
  rcases hmem with ⟨rfl, -, rfl⟩ | ⟨rfl, -, rfl⟩ | ⟨rfl, -, rfl⟩ | ⟨rfl, -, rfl⟩ | ⟨rfl, -, rfl⟩ |
    ⟨rfl, -, rfl⟩ | ⟨rfl, -, rfl⟩
  · -- a convolution, on the input or not
    have hraw := and_congr (hname (i := 0) (by omega)).1 (hname (i := 1) (by omega)).1
    by_cases hinput : g.nameAt op 0 = inputFeatureMap
    · simpa [hinput, Command.relations] using hraw
    · simpa [hinput, Command.relations] using hraw
  · have hres := and_congr (hname (i := 0) (by omega)).2 (hname (i := 1) (by omega)).2
    cases g.biasAdd op with
    | true => simp
    | false => simpa [Command.relations] using hres
  · simpa [Command.relations] using (hname (i := 0) (by omega)).2
  · simpa [Command.relations] using (hname (i := 0) (by omega)).1
  · have hmixed := and_congr (hname (i := 0) (by omega)).1 (hname (i := 1) (by omega)).2
    simpa [Command.relations] using hmixed
  · cases op.flat with
    | true => simpa [Command.relations] using (hname (i := 0) (by omega)).1
    | false => simp
  · simp

/-! ## The loop -/

/-- What holds after the operators `done`. -/
structure Run (g : Graph) (done : List Op) (s : ExportState) : Prop where
  names : s.ctes.map Cte.name = g.cteNames done
  skipped : g.Skipped done s.skip_nodes
  guids : s.output_guids = (done.filter (g.unreadIn done)).map fun op => ((op.guid, 0), op)
  inScope : Scoped Cte.name (fun c => c.command.relations) g.Given s.ctes ↔
    ∀ op ∈ done, g.operandsVisible op = true

theorem run_start : g.Run [] ExportState.start where
  names := rfl
  skipped := ⟨fun op hop => (by cases hop), fun name _ => rfl⟩
  guids := rfl
  inScope := iff_of_true trivial fun op hop => (by cases hop)

include hg hnext in
theorem outName_ne {k : Op} (hk : k ∈ done) : k.outName ≠ op.outName := by
  intro h
  have hdone := hnext.of_append
  have heq := outName_inj_on hg hdone (hnext.known op (by simp)).1 hk h
  subst heq
  exact (List.nodup_append.mp hnext.nodup).2.2 k hk k (by simp) rfl

include hg hnext in
theorem Skipped.after {skip_nodes : String → Option String} (h : g.Skipped done skip_nodes) :
    g.Skipped (done ++ [op]) (g.skipAfter skip_nodes op) := by
  have hnew : skip_nodes op.outName = none := h.miss _ fun k hk => outName_ne hg hnext hk
  unfold skipAfter
  refine ⟨fun k hk => ?_, fun name hname => ?_⟩
  · rcases List.mem_append.mp hk with hk | hk
    · rw [← h.hit k hk]
      split
      · rw [Function.update_of_ne (outName_ne hg hnext hk)]
      · rfl
    · rw [List.mem_singleton.mp hk]
      split
      · rw [Function.update_self]
      · exact hnew
  · have hold : skip_nodes name = none :=
      h.miss name fun k hk => hname k (List.mem_append_left _ hk)
    split
    · rw [Function.update_of_ne (hname op (by simp)).symm]
      exact hold
    · exact hold

-- `output_guids` loses the operators that the edges come from
theorem foldl_output_guids (op : Op) (es : List Edge) (s : ExportState) :
    (es.foldl (ExportState.afterRead op) s).output_guids =
      s.output_guids.filter fun entry =>
        es.all fun e => decide (entry.1 ≠ (e.srcOp.guid, e.srcIdx)) := by
  induction es generalizing s with
  | nil => simp
  | cons e es ih =>
    rw [List.foldl_cons, ih]
    show (dictPop s.output_guids _).filter _ = _
    rw [dictPop, List.filter_filter]
    congr 1
    funext entry
    rw [List.all_cons, Bool.and_comm]

include hg hl hdone hnext in
theorem after_output_guids {s : ExportState}
    (h : s.output_guids = (done.filter (g.unreadIn done)).map fun op => ((op.guid, 0), op)) :
    (s.after g op).output_guids =
      ((done ++ [op]).filter (g.unreadIn (done ++ [op]))).map fun op => ((op.guid, 0), op) := by
  obtain ⟨hkey, hc⟩ := hnext.known op (by simp)
  obtain ⟨-, -, hslots⟩ := getInputEdges_slots hg hl hkey hc
  have hmem : ∀ e ∈ g.readEdges op, ∃ i, g.Slot op i e := by
    intro e he
    obtain ⟨i, hi⟩ := List.mem_iff_getElem?.mp he
    exact ⟨i, hslots i e hi⟩
  -- an operator stays if the new one does not read it
  have hold : ∀ k ∈ done,
      ((g.readEdges op).all fun e => decide ((k.guid, 0) ≠ (e.srcOp.guid, e.srcIdx))) =
        (g.readEdges op).all fun e => decide (e.srcOp ≠ k) := by
    intro k hk
    rw [Bool.eq_iff_iff, List.all_eq_true, List.all_eq_true]
    refine forall₂_congr fun e he => ?_
    obtain ⟨i, hslot⟩ := hmem e he
    rw [decide_eq_true_eq, decide_eq_true_eq, hslot.src, ne_eq, Prod.mk.injEq, and_iff_left rfl]
    refine not_congr ⟨fun hguid => ?_, fun heq => by rw [heq]⟩
    exact hg.unique _ _ (Or.inl hslot.key) (Or.inl (hdone.known k hk).1) hguid.symm
  -- nothing reads the last one
  have hlast : g.unreadIn (done ++ [op]) op = true := by
    rw [unreadIn, List.all_eq_true]
    intro v hv
    rw [List.all_eq_true]
    intro e he
    rw [decide_eq_true_eq]
    intro heq
    obtain ⟨before, rest, hsplit⟩ := List.append_of_mem hv
    obtain ⟨hvkey, hvc⟩ := hnext.known v hv
    obtain ⟨-, -, hvslots⟩ := getInputEdges_slots hg hl hvkey hvc
    obtain ⟨i, hi⟩ := List.mem_iff_getElem?.mp he
    have hbefore := hnext.after before v rest hsplit e (hvslots i e hi).mem (heq ▸ hc)
    rw [heq] at hbefore
    -- `op` stands before `v`, and at the end
    have hnodup := hnext.nodup
    rcases List.eq_nil_or_concat' rest with rfl | ⟨front, last, rfl⟩
    · obtain ⟨rfl, hv'⟩ := List.append_inj' hsplit rfl
      rw [List.cons.injEq] at hv'
      exact (List.nodup_append.mp hnodup).2.2 op hbefore op (by simp) rfl
    · have hsplit' : done ++ [op] = (before ++ v :: front) ++ [last] := by
        rw [hsplit]
        simp
      obtain ⟨hfront, hlast⟩ := List.append_inj' hsplit' rfl
      exact (List.nodup_append.mp hnodup).2.2 op
        (by rw [hfront]; exact List.mem_append_left _ hbefore) op (by simp) rfl
  have hfilter : done.filter (g.unreadIn (done ++ [op])) =
      (done.filter (g.unreadIn done)).filter fun k =>
        (g.readEdges op).all fun e => decide ((k.guid, 0) ≠ (e.srcOp.guid, e.srcIdx)) := by
    rw [List.filter_filter]
    refine List.filter_congr fun k hk => ?_
    rw [hold k hk, unreadIn, List.all_append, Bool.and_comm]
    simp [unreadIn]
  have hfresh : ∀ entry ∈ (g.readEdges op).foldl (ExportState.afterRead op) s |>.output_guids,
      entry.1 ≠ (op.guid, 0) := by
    intro entry hentry
    rw [foldl_output_guids, h] at hentry
    obtain ⟨k, hk, rfl⟩ := List.mem_map.mp (List.mem_filter.mp hentry).1
    intro heq
    have hk := (List.mem_filter.mp hk).1
    have hsame := hg.unique k op (Or.inl (hdone.known k hk).1) (Or.inl hkey) (congrArg Prod.fst heq)
    subst hsame
    exact (List.nodup_append.mp hnext.nodup).2.2 k hk k (by simp) rfl
  have habsent : ¬ (((g.readEdges op).foldl (ExportState.afterRead op) s).output_guids.any
      fun entry => entry.1 = (op.guid, 0)) = true := by
    intro hany
    obtain ⟨entry, hentry, heq⟩ := List.any_eq_true.mp hany
    exact hfresh entry hentry (of_decide_eq_true heq)
  show dictSet _ _ _ = _
  rw [dictSet, if_neg habsent, foldl_output_guids, h, List.filter_map,
    List.filter_append, List.map_append, hfilter, List.filter_cons_of_pos hlast]
  rfl

include hg hl hdone hnext hread in
/-- **One operator more.** -/
theorem Run.after {s : ExportState} (h : g.Run done s) : g.Run (done ++ [op]) (s.after g op) := by
  have hemits := @isSome_commandOf g op s.skip_nodes
  have hrelations := relations_inScope hg hl hdone hnext hread h.skipped
  have hall : (∀ k ∈ done ++ [op], g.operandsVisible k = true) ↔
      (∀ k ∈ done, g.operandsVisible k = true) ∧ g.operandsVisible op = true := by
    simp [or_imp, forall_and]
  refine ⟨?_, h.skipped.after hg hnext, after_output_guids hg hl hdone hnext h.guids, ?_⟩
  · show (s.ctes ++ _).map Cte.name = _
    rw [List.map_append, h.names, cteNames, cteNames, List.filter_append, List.map_append]
    cases hcommand : g.commandOf s.skip_nodes op with
    | none =>
      rw [hcommand] at hemits
      simp [← hemits]
    | some command =>
      rw [hcommand] at hemits
      simp [← hemits]
  · rw [hall, ← h.inScope, ← hrelations]
    show Scoped _ _ _ (s.ctes ++ _) ↔ _
    cases g.commandOf s.skip_nodes op with
    | none => simp
    | some command =>
      rw [Option.map_some, Option.toList_some, scoped_concat, h.names]
      simp [InScope]

end Operands

variable (hg : g.WellFormed) (hl : g.Laid)

include hg hl in
/-- **A whole run.** -/
theorem run_foldl (ops : List Op) (hsorted : g.Sorted ops)
    (hread : ∀ op ∈ ops, g.readable op = true) :
    g.Run ops (ops.foldl (ExportState.after g) ExportState.start) := by
  induction ops using List.reverseRecOn with
  | nil => exact run_start
  | append_singleton done op ih =>
    rw [List.foldl_append]
    have hdone := hsorted.of_append
    exact (ih hdone fun k hk => hread k (List.mem_append_left _ hk)).after hg hl hdone hsorted
      (hread op (by simp))

theorem Reads.exportOp {g' : Graph} (h : Reads g g') : exportOp g' = exportOp g := by
  have hedges : ∀ op, g'.getInputEdges op = g.getInputEdges op := by
    intro op
    unfold getInputEdges
    rw [h.inEdges, h.ins]
  funext s op
  unfold Peps.exportOp
  rw [hedges]

/-- The graphs whose query is well scoped. -/
structure Exportable (g : Graph) : Prop where
  readable : ∀ op ∈ g.exportedOps, g.readable op = true
  visible : ∀ op ∈ g.exportedOps, g.operandsVisible op = true
  result : g.resultOp.any g.emits = true

include hg hl in
theorem sorted_exportedOps : g.Sorted g.exportedOps := by
  obtain ⟨ops, g', hlist, -, hsorted⟩ := hl.getOperatorList_ok hg
  unfold exportedOps
  rw [hlist]
  show g.Sorted ops.dropLast
  rcases List.eq_nil_or_concat' ops with rfl | ⟨front, last, rfl⟩
  · exact hsorted
  · rw [List.dropLast_concat]
    exact hsorted.of_append

include hg hl in
/-- `export` is the loop and a look at what no operator read. -/
theorem exportQuery_eq :
    exportQuery g = if g.exportedOps = [] then .error .indexError else do
      let s ← g.exportedOps.foldlM (exportOp g) ExportState.start
      let graph_outputs ← s.output_guids.mapM fun entry => outputTensorName entry.2 entry.1.2
      let result ← lookupOr .indexError graph_outputs[0]?
      return ⟨s.ctes, result, s.weights⟩ := by
  obtain ⟨ops, g', hlist, hreads, hsorted⟩ := hl.getOperatorList_ok hg
  have hops : g.exportedOps = ops.dropLast := by
    unfold exportedOps
    rw [hlist]
  unfold exportQuery
  rw [hlist, hops]
  show (if ops = [] then _ else _) = _
  rw [hreads.exportOp]
  rcases List.eq_nil_or_concat' ops with rfl | ⟨front, last, rfl⟩
  · rfl
  · rw [if_neg (by simp), List.dropLast_concat]
    -- nothing is left of a single operator, and nothing for the final `SELECT`
    split
    · next hnil =>
      rw [hnil]
      rfl
    · rfl

/-- The state after the loop. -/
def exportedState (g : Graph) : ExportState :=
  g.exportedOps.foldl (ExportState.after g) ExportState.start

include hg hl in
theorem run_exported (hread : ∀ op ∈ g.exportedOps, g.readable op = true) :
    g.Run g.exportedOps g.exportedState :=
  run_foldl hg hl _ (sorted_exportedOps hg hl) hread

include hg hl in
/-- **The query of a graph** whose operators can be read. -/
theorem exportQuery_of_readable (hread : ∀ op ∈ g.exportedOps, g.readable op = true) :
    exportQuery g = (lookupOr .indexError (g.resultOp.map Op.outName)).map
      fun result => ⟨g.exportedState.ctes, result, g.exportedState.weights⟩ := by
  have hsorted := sorted_exportedOps hg hl
  have hloop := foldlM_eq_ok_foldl (f := ExportState.after g) (fun op hop s =>
    exportOp_ok hg hl (hsorted.known op hop).1 (hsorted.known op hop).2 (hread op hop) s)
    ExportState.start
  have hrun := run_exported hg hl hread
  rw [exportQuery_eq hg hl]
  split
  · next hnil =>
    rw [resultOp, hnil]
    rfl
  · rw [hloop]
    have houtputs : g.exportedState.output_guids.mapM
        (fun entry => outputTensorName entry.2 entry.1.2) =
        .ok ((g.exportedOps.filter (g.unreadIn g.exportedOps)).map Op.outName) := by
      rw [hrun.guids, List.mapM_map]
      refine mapM_eq_ok_map fun op hop => ?_
      exact Op.Onnx.outputTensorName
        (hl.body op (hsorted.known op (List.mem_filter.mp hop).1).1)
    show (g.exportedState.output_guids.mapM (fun entry => outputTensorName entry.2 entry.1.2) >>=
      fun _ => _) = _
    rw [houtputs]
    show (lookupOr .indexError (List.map Op.outName _)[0]? >>= fun _ => _) = _
    rw [List.getElem?_map, ← List.head?_eq_getElem?, List.head?_filter]
    unfold resultOp
    cases g.exportedOps.find? (g.unreadIn g.exportedOps) with
    | none => rfl
    | some op => rfl

include hg hl in
/-- A query that was made has read its operators, and ends with the relation of `resultOp`. -/
theorem exportQuery_ok {q : Exported} (hq : exportQuery g = .ok q) :
    (∀ op ∈ g.exportedOps, g.readable op = true) ∧ ∃ op, g.resultOp = some op ∧
      q = ⟨g.exportedState.ctes, op.outName, g.exportedState.weights⟩ := by
  have hread : ∀ op ∈ g.exportedOps, g.readable op = true := by
    intro op hop
    have hsorted := sorted_exportedOps hg hl
    rw [exportQuery_eq hg hl, guard_ok_iff, bind_ok_iff] at hq
    obtain ⟨-, s, hloop, -⟩ := hq
    obtain ⟨s1, s2, hstep⟩ := foldlM_steps hloop op hop
    exact readable_of_exportOp hg hl (hsorted.known op hop).1 (hsorted.known op hop).2 hstep
  refine ⟨hread, ?_⟩
  rw [exportQuery_of_readable hg hl hread] at hq
  cases hresult : g.resultOp with
  | none =>
    rw [hresult] at hq
    cases hq
  | some op =>
    rw [hresult] at hq
    cases hq
    exact ⟨op, rfl, rfl⟩

include hg hl in
theorem exportable_iff :
    (∃ q, exportQuery g = .ok q ∧ q.WellScoped g) ↔ g.Exportable := by
  have hsorted := sorted_exportedOps hg hl
  constructor
  · rintro ⟨q, hq, hscoped⟩
    obtain ⟨hread, op, hresult, rfl⟩ := exportQuery_ok hg hl hq
    have hrun := run_exported hg hl hread
    have hop := List.mem_of_find?_eq_some hresult
    refine ⟨hread, hrun.inScope.mp hscoped.ctes, ?_⟩
    rw [hresult, Option.any_some, ← inScope_outName hg hsorted hop, InScope, ← hrun.names]
    exact hscoped.result
  · intro h
    have hrun := run_exported hg hl h.readable
    have heq := exportQuery_of_readable hg hl h.readable
    obtain ⟨op, hresult, hemits⟩ := (Option.any_eq_true _ _).mp h.result
    have hop := List.mem_of_find?_eq_some hresult
    rw [hresult] at heq
    refine ⟨_, heq, hrun.inScope.mpr h.visible, ?_, ?_⟩
    · show g.Given op.outName ∨ op.outName ∈ g.exportedState.ctes.map Cte.name
      rw [hrun.names]
      exact (inScope_outName hg hsorted hop).mpr hemits
    · show (inputFeatureMap :: g.exportedState.ctes.map Cte.name).Nodup
      rw [hrun.names, List.nodup_cons]
      refine ⟨fun hmem => ?_, (hsorted.nodup.filter _).map_on fun a ha b hb heq => ?_⟩
      · obtain ⟨k, -, hname⟩ := List.mem_map.mp hmem
        exact @not_given_outName g k (hname ▸ Or.inl rfl)
      · exact outName_inj_on hg hsorted
          (hsorted.known b (List.mem_filter.mp hb).1).1 (List.mem_filter.mp ha).1 heq

end Graph

namespace Session

/-- **The query of a graph that `load_onnx` built** is well scoped exactly when every operator can
be read, everything it reads is visible in the way it looks at it, and the operator of the final
`SELECT` has a CTE. -/
theorem exportQuery_scoped_iff (calls : List Call) (s : Session) (h : s.Loads calls) :
    (∃ q, exportQuery s.graph = .ok q ∧ q.WellScoped s.graph) ↔ s.graph.Exportable :=
  Graph.exportable_iff h.inv.sound.inv.graph h.inv.laid

/-- A convolution and two activations. -/
def convRelus : List Call :=
  [.newInput [1, 1, 2, 2], .newWeight [1, 1, 1, 1] (some 0),
    .conv2d 0 1 1 1 .PD_MODE_SAME .AC_MODE_NONE, .relu 2 false, .relu 3 false]

theorem exportQuery_scoped_convRelus :
    ∃ s : Session, s.Loads convRelus ∧
      ∃ q, exportQuery s.graph = .ok q ∧ q.WellScoped s.graph := by
  have hrun : ((convRelus.map Step.build).foldlM step start).toOption.any (fun s =>
      (s.graph.exportedOps.all fun op => s.graph.readable op && s.graph.operandsVisible op) &&
        s.graph.resultOp.any s.graph.emits) = true := by
    decide +kernel
  obtain ⟨s, hs, hcheck⟩ := (Option.any_eq_true _ _).mp hrun
  obtain ⟨hall, hresult⟩ := Bool.and_eq_true_iff.mp hcheck
  have hops := fun op hop => Bool.and_eq_true_iff.mp (List.all_eq_true.mp hall op hop)
  have hloads : s.Loads convRelus := ⟨by simp [convRelus, Call.Onnx], toOption_eq_some.mp hs⟩
  exact ⟨s, hloads, (exportQuery_scoped_iff convRelus s hloads).mpr
    ⟨fun op hop => (hops op hop).1, fun op hop => (hops op hop).2, hresult⟩⟩

/-- Two convolutions with bias, one after the other, and an activation. -/
def twoConvs : List Call :=
  [.newInput [1, 1, 2, 2], .newWeight [1, 1, 1, 1] (some 0), .newWeight [1] (some 1),
    .newWeight [1, 1, 1, 1] (some 2), .newWeight [1] (some 3),
    .conv2d 0 1 1 1 .PD_MODE_SAME .AC_MODE_NONE, .reshape 2 [1, 1, 1, 1], .element .OP_EW_ADD 5 6,
    .conv2d 7 3 1 1 .PD_MODE_SAME .AC_MODE_NONE, .reshape 4 [1, 1, 1, 1], .element .OP_EW_ADD 8 9,
    .relu 10 false]

/-- The second convolution reads the sum of the first, which has no CTE. -/
theorem exportQuery_unscoped_twoConvs :
    ∃ (s : Session) (q : Exported), s.Loads twoConvs ∧ exportQuery s.graph = .ok q ∧
      ¬ q.WellScoped s.graph := by
  have hrun : ((twoConvs.map Step.build).foldlM step start).toOption.any (fun s =>
      (exportQuery s.graph).toOption.isSome &&
        s.graph.exportedOps.any fun op => !s.graph.operandsVisible op) = true := by
    decide +kernel
  obtain ⟨s, hs, hcheck⟩ := (Option.any_eq_true _ _).mp hrun
  obtain ⟨hquery, hhidden⟩ := Bool.and_eq_true_iff.mp hcheck
  obtain ⟨q, hq⟩ := Option.isSome_iff_exists.mp hquery
  obtain ⟨op, hop, hnot⟩ := List.any_eq_true.mp hhidden
  have hloads : s.Loads twoConvs := ⟨by simp [twoConvs, Call.Onnx], toOption_eq_some.mp hs⟩
  refine ⟨s, q, hloads, toOption_eq_some.mp hq, fun hscoped => ?_⟩
  have hvisible := ((Graph.exportable_iff hloads.inv.sound.inv.graph hloads.inv.laid).mp
    ⟨q, toOption_eq_some.mp hq, hscoped⟩).visible op hop
  rw [hvisible] at hnot
  cases hnot

end Session

end Peps
