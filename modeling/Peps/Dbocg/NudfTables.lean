import Peps.Dbocg.NudfScope

/-!
# The tables of the weights

`export` keeps the arrays of the weights that convolutions and transpositions read, under the names
of their tables. A name tells the operator and the slot (`weightName_guid`, `weightName_slot`), so
that no array is replaced by another one (`weights_stored`).
-/

namespace Peps

open Lib

/-- The array of the weight an edge comes from. -/
def Edge.array (e : Edge) : Option Nat := e.srcOp.ptr.bind fun q => (q.inputAt 0).data_ptr

/-- The operators whose weights are stored. -/
def Op.stores (op : Op) : Prop := op.type = some .OP_CONV2D ∨ op.type = some .OP_TRANSPOSE

instance (op : Op) : Decidable op.stores := inferInstanceAs (Decidable (_ ∨ _))

theorem Op.stores.ne_relu {op : Op} (h : op.stores) : op.type ≠ some .OP_RELU := by
  rcases h with h | h
  · rw [h]
    decide
  · rw [h]
    decide

/-- The names of their slots. -/
def storeNames (op : Op) : List String := (inputWeightNames op.label).getD []

theorem storeNames_ok {op : Op} (h : op.stores) :
    (∀ name ∈ storeNames op, ∀ c ∈ name.toList, c.isDigit = false) ∧ (storeNames op).Nodup := by
  have hok : ((storeNames op).all fun name => name.toList.all fun c => !c.isDigit) = true ∧
      (storeNames op).Nodup := by
    rcases h with h | h
    · rw [storeNames, (getOperatorType_of_type h rfl).2]
      decide
    · rw [storeNames, (getOperatorType_of_type h rfl).2]
      decide
  refine ⟨fun name hname c hc => ?_, hok.2⟩
  simpa using List.all_eq_true.mp (List.all_eq_true.mp hok.1 name hname) c hc

theorem getD_mem_or {α : Type} (l : List α) (i : Nat) (d : α) : l.getD i d ∈ l ∨ l.getD i d = d := by
  rw [List.getD_eq_getElem?_getD]
  cases h : l[i]? with
  | none => exact Or.inr rfl
  | some a => exact Or.inl (List.mem_of_getElem? h)

/-- A table tells its operator. -/
theorem weightName_guid {a b : Op} {i j : Nat} (ha : a.stores) (hb : b.stores)
    (h : a.weightName i = b.weightName j) : a.guid = b.guid := by
  have hdigits : ∀ {op : Op} (k : Nat), op.stores →
      (op.weightName k).toList.filter Char.isDigit = (toString op.guid).toList := by
    intro op k hop
    have hname : ((storeNames op).getD k "").toList.filter Char.isDigit = [] := by
      rw [List.filter_eq_nil_iff]
      intro c hc
      rcases getD_mem_or (storeNames op) k "" with hmem | hempty
      · simp [(storeNames_ok hop).1 _ hmem c hc]
      · rw [hempty] at hc
        cases hc
    unfold Op.weightName
    rw [String.toList_append, String.toList_append, String.toList_append, List.filter_append,
      List.filter_append, filter_isDigit_label]
    show _ ++ _ ++ ((storeNames op).getD k "").toList.filter Char.isDigit = _
    rw [hname]
    simp
  have hfilter := congrArg (fun name => name.toList.filter Char.isDigit) h
  simp only [hdigits i ha, hdigits j hb] at hfilter
  exact toString_injective hfilter

/-- A table tells the slot. -/
theorem weightName_slot {op : Op} {i j : Nat} (hop : op.stores) (hi : i < (storeNames op).length)
    (hj : j < (storeNames op).length) (h : op.weightName i = op.weightName j) : i = j := by
  have hlists := congrArg String.toList h
  simp only [Op.weightName, String.toList_append, List.append_cancel_left_eq] at hlists
  have hname : (storeNames op).getD i "" = (storeNames op).getD j "" := String.toList_inj.mp hlists
  rw [List.getD_eq_getElem?_getD, List.getD_eq_getElem?_getD, List.getElem?_eq_getElem hi,
    List.getElem?_eq_getElem hj, Option.getD_some, Option.getD_some] at hname
  exact (List.Nodup.getElem_inj_iff (storeNames_ok hop).2).mp hname

theorem weightName_ne_input {op : Op} (hop : op.stores) (i : Nat) :
    op.weightName i ≠ inputFeatureMap := by
  intro h
  have hfirst := congrArg (fun name => name.toList.head?) h
  unfold Op.weightName at hfirst
  -- "Conv…" or "Transpose…" and "input…"
  rcases hop with hop | hop
  · rw [(getOperatorType_of_type hop rfl).2] at hfirst
    simp [inputFeatureMap] at hfirst
  · rw [(getOperatorType_of_type hop rfl).2] at hfirst
    simp [inputFeatureMap] at hfirst

namespace Graph

variable {g : Graph}

/-- The in-edges that bring a weight for a table, with their operators. -/
def storedEdges (g : Graph) (ops : List Op) : List (Op × Edge) :=
  (ops.flatMap fun op => (g.readEdges op).map (Prod.mk op)).filter fun x =>
    decide (x.2.srcOp.type = some .OP_WEIGHT ∧ x.1.stores)

/-- The tables after the loop are those of the stored edges, one after the other. -/
theorem weights_foldl (ops : List Op) (s : ExportState) :
    (ops.foldl (ExportState.after g) s).weights =
      evaluate (fun x : Op × Edge => x.2.name x.1) (fun x _ => x.2.array) s.weights
        (g.storedEdges ops) := by
  have hread : ∀ (op : Op) (es : List Edge) (s : ExportState),
      (es.foldl (ExportState.afterRead op) s).weights =
        evaluate (fun x : Op × Edge => x.2.name x.1) (fun x _ => x.2.array) s.weights
          ((es.map (Prod.mk op)).filter fun x =>
            decide (x.2.srcOp.type = some .OP_WEIGHT ∧ x.1.stores)) := by
    intro op es
    induction es with
    | nil => exact fun s => rfl
    | cons e es ih =>
      intro s
      rw [List.foldl_cons, ih, List.map_cons]
      by_cases hstored : e.srcOp.type = some .OP_WEIGHT ∧ op.stores
      · rw [List.filter_cons_of_pos (by simpa using hstored)]
        have hweights : (s.afterRead op e).weights =
            Function.update s.weights (e.name op) e.array := if_pos hstored
        rw [hweights]
        rfl
      · rw [List.filter_cons_of_neg (by simpa using hstored)]
        have hweights : (s.afterRead op e).weights = s.weights := if_neg hstored
        rw [hweights]
  induction ops generalizing s with
  | nil => rfl
  | cons op ops ih =>
    rw [List.foldl_cons, ih]
    show evaluate _ _ ((g.readEdges op).foldl (ExportState.afterRead op) s).weights _ = _
    rw [hread, storedEdges, storedEdges, List.flatMap_cons, List.filter_append, evaluate, evaluate,
      evaluate, List.foldl_append]

variable (hg : g.WellFormed) (hl : g.Laid)

include hg hl in
theorem slot_of_source {op src : Op} {i : Nat} (hop : op ∈ g.inEdges.keys) (hc : op.computes)
    (hi : i < op.numInputs) (hsrc : g.source op i = some src) :
    ∃ e, g.Slot op i e ∧ e.srcOp = src := by
  obtain ⟨e, hslot⟩ := slot_ok hg hl hop hc hi
  exact ⟨e, hslot, Option.some.inj (hslot.source.symm.trans hsrc)⟩

include hg hl in
theorem slot_of_mem_readEdges {op : Op} (hop : op ∈ g.inEdges.keys) (hc : op.computes) {e : Edge}
    (he : e ∈ g.readEdges op) : g.Slot op e.dstIdx e ∧ e.dstIdx < op.slots := by
  obtain ⟨-, hlen, hslots⟩ := getInputEdges_slots hg hl hop hc
  obtain ⟨i, hi⟩ := List.mem_iff_getElem?.mp he
  have hslot := hslots i e hi
  rw [hslot.dst]
  exact ⟨hslot, hlen ▸ (List.getElem?_eq_some_iff.mp hi).1⟩

include hg hl in
theorem mem_readEdges {op : Op} (hop : op ∈ g.inEdges.keys) (hc : op.computes) {i : Nat} {e : Edge}
    (hslot : g.Slot op i e) (hi : i < op.slots) : e ∈ g.readEdges op := by
  obtain ⟨-, hlen, hslots⟩ := getInputEdges_slots hg hl hop hc
  have hget := List.getElem?_eq_getElem (hlen.symm ▸ hi)
  have hsame := (hslots i _ hget).edge.symm.trans hslot.edge
  rw [← Option.some.inj hsame]
  exact List.mem_of_getElem? hget

include hg hl in
/-- **A weight that is stored** is in its table. -/
theorem weights_stored {ops : List Op} (hsorted : g.Sorted ops) {op : Op} (hop : op ∈ ops)
    (hstores : op.stores) {i : Nat} {e : Edge} (hslot : g.Slot op i e) (hi : i < op.slots)
    (hweight : e.srcOp.type = some .OP_WEIGHT) :
    (ops.foldl (ExportState.after g) ExportState.start).weights (e.name op) = e.array := by
  have hname : ∀ {f : Edge} {k : Op}, f.srcOp.type = some .OP_WEIGHT →
      f.name k = k.weightName f.dstIdx := by
    intro f k hf
    rw [Edge.name, if_neg (by rw [hf]; decide), if_pos hf]
  have hbound : ∀ {k : Op} {j : Nat}, k ∈ ops → k.stores → j < k.slots →
      j < (storeNames k).length := by
    intro k j hk hks hj
    obtain ⟨hkey, hc⟩ := hsorted.known k hk
    obtain ⟨p, hp, hkind⟩ := hl.kind hkey hc
    obtain ⟨-, names, hnames, hle⟩ := (weightName_ok hp hkind).resolve_left fun h => hks.ne_relu h.1
    rw [storeNames, hnames]
    exact lt_of_lt_of_le hj hle
  obtain ⟨hkey, hc⟩ := hsorted.known op hop
  have hmem : (op, e) ∈ g.storedEdges ops := by
    refine List.mem_filter.mpr ⟨List.mem_flatMap.mpr ⟨op, hop, ?_⟩, decide_eq_true ⟨hweight, hstores⟩⟩
    exact List.mem_map_of_mem (mem_readEdges hg hl hkey hc hslot hi)
  rw [weights_foldl]
  refine evaluate_of_mem (fun x : Op × Edge => x.2.name x.1) hmem ?_ _
  -- an edge with the same table comes to the same operator, in the same slot
  rintro ⟨k, f⟩ hkf heq
  obtain ⟨hkf, hstored⟩ := List.mem_filter.mp hkf
  obtain ⟨hfweight, hkstores⟩ := of_decide_eq_true hstored
  obtain ⟨k', hk, hf⟩ := List.mem_flatMap.mp hkf
  obtain ⟨f', hf, hpair⟩ := List.mem_map.mp hf
  cases hpair
  obtain ⟨hkkey, hkc⟩ := hsorted.known k hk
  obtain ⟨hfslot, hfi⟩ := slot_of_mem_readEdges hg hl hkkey hkc hf
  have hnames : k.weightName f.dstIdx = op.weightName e.dstIdx := by
    rw [← hname hfweight, ← hname hweight]
    exact heq
  have hsame : k = op :=
    hg.unique k op (Or.inl hkkey) (Or.inl hkey) (weightName_guid hkstores hstores hnames)
  subst hsame
  have hdst : f.dstIdx = e.dstIdx :=
    weightName_slot hstores (hbound hop hstores hfi) (hbound hop hstores (hslot.dst.symm ▸ hi)) hnames
  rw [(hg.slots k hkey).unique f e hfslot.mem hslot.mem hdst]

end Graph

end Peps
