import Peps.Dbocg.PartialMatch
import Peps.Dbocg.Session
import Peps.Lib.Backtrack

/-!
# The search for matches

`run` tries the operators of the graph for one source operator after the other; the state it keeps
on the way is changed by `match` and changed back by `unmatch`. The states it should be in are those
of partial matches (`stateOf`).

`unmatch` deletes the whole list of an external tensor, also what earlier source operators bound.
`run_ok_iff` says what follows: the search goes through, restores its state and reaches consistent
matches only if no partial match of the graph uses an external tensor twice. If one does, a later
`unmatch` raises a `KeyError`.
-/

namespace Peps

open Lib

/-! ## The states of the search -/

/-- The state in which the first source operators are mapped to `ops`. -/
def stateOf (g : Graph) (srcOps : List OpX) (ops : List Op) : Matching :=
  ops.zipIdx.foldl (fun s (op, k) =>
    match srcOps[k]? with
    | none => s
    | some opx => (matchOp s g k opx op).toOption.getD s) Matching.start

theorem stateOf_append {g : Graph} {srcOps : List OpX} {ops : List Op} {op : Op} {opx : OpX}
    {s : Matching} (hopx : srcOps[ops.length]? = some opx)
    (h : matchOp (stateOf g srcOps ops) g ops.length opx op = .ok s) :
    stateOf g srcOps (ops ++ [op]) = s := by
  unfold stateOf at h ⊢
  rw [List.zipIdx_append, List.foldl_append, Nat.zero_add, List.zipIdx_singleton, List.foldl_cons,
    List.foldl_nil]
  simp only [hopx, h]
  rfl

theorem getElem?_append_singleton {α : Type} {xs : List α} {x y : α} {k : Nat} :
    (xs ++ [x])[k]? = some y ↔ xs[k]? = some y ∨ k = xs.length ∧ x = y := by
  rcases Nat.lt_trichotomy k xs.length with hlt | rfl | hgt
  · rw [List.getElem?_append_left hlt]
    refine ⟨Or.inl, fun h => h.resolve_right fun heq => ?_⟩
    omega
  · simp
  · have hnone : (xs ++ [x])[k]? = none := List.getElem?_eq_none (by
      rw [List.length_append, List.length_singleton]; omega)
    have hnone' : xs[k]? = none := List.getElem?_eq_none (by omega)
    rw [hnone, hnone']
    refine iff_of_false (fun h => (by cases h)) ?_
    rintro (h | h)
    · cases h
    · omega

theorem unmatchOp_inputs {s s' : Matching} {depth : Nat} {opx : OpX} {op : Op}
    (h : unmatchOp s depth opx op = .ok s') :
    (exts opx.inputs).Nodup ∧ (∀ idx ∈ exts opx.inputs, s.mappedInputs idx ≠ none) ∧
      ∀ idx, s'.mappedInputs idx =
        if idx ∈ exts opx.inputs then none else s.mappedInputs idx := by
  simp only [unmatchOp, bind_ok_iff] at h
  obtain ⟨inputs, hinputs, h⟩ := h
  obtain ⟨hnodup, hall, rfl⟩ := unbindInputs_ok_iff.mp hinputs
  split at h
  · cases h
    exact ⟨hnodup, hall, fun _ => rfl⟩
  · cases h

/-- What the state of a partial match records. -/
structure Clean (g : Graph) (srcOps : List OpX) (ops : List Op) (s : Matching) : Prop where
  mapped : ∀ op k, s.mappedOps.get? op = some k ↔ ops[k]? = some op
  mapOp : ∀ k, s.mapOp k = ops[k]?.getD Op.invalid
  keys : ∀ idx, s.mappedInputs idx = none ↔
    ∀ (k : Nat) opx, k < ops.length → srcOps[k]? = some opx → idx ∉ exts opx.inputs
  nonempty : ∀ idx bs, s.mappedInputs idx = some bs → bs ≠ []
  fed : ∀ (k : Nat) opx op, srcOps[k]? = some opx → ops[k]? = some op →
    ∀ i tx, opx.inputs[i]? = some tx → ∃ b, s.sourceOf tx = some b ∧ ⟨b.1, op, b.2, i⟩ ∈ g.ins op
  bound : ∀ idx b, s.sourceOf (.ext idx) = some b → ∃ (k : Nat) (opx : OpX) (op : Op) (i : Nat),
    srcOps[k]? = some opx ∧ ops[k]? = some op ∧ opx.inputs[i]? = some (.ext idx) ∧ ⟨b.1, op, b.2, i⟩ ∈ g.ins op

theorem clean_start (g : Graph) (srcOps : List OpX) : Clean g srcOps [] Matching.start where
  mapped := fun op k => by simp [Matching.start]
  mapOp := fun k => rfl
  keys := fun idx => by simp [Matching.start]
  nonempty := fun idx bs h => by cases h
  fed := fun k opx op _ h => by cases h
  bound := fun idx b h => by cases h

section States

variable {g : Graph} {srcOps : List OpX} {ops : List Op} {op : Op} {opx : OpX} {s : Matching}
  (hg : g.WellFormed)
  (hsrc : ∀ (k : Nat) opx, srcOps[k]? = some opx → ∀ j idx, TensorX.out j idx ∈ opx.inputs → j < k)

theorem Clean.mem_mappedOps (h : Clean g srcOps ops s) : op ∈ s.mappedOps.keys ↔ op ∈ ops := by
  rw [SortedMap.mem_keys_iff, List.mem_iff_getElem?]
  simp only [h.mapped]

/-- What an inner tensor of the pattern stands for does not depend on the bindings. -/
theorem Clean.sourceOf_out (h : Clean g srcOps ops s) {k idx : Nat} (hk : k < ops.length)
    (β : Nat → Op × Nat) (more : List Op) :
    s.sourceOf (.out k idx) = readsFrom (ops ++ more) β (.out k idx) := by
  rw [Matching.sourceOf, readsFrom, h.mapOp, List.getElem?_append_left hk,
    List.getElem?_eq_getElem hk]
  rfl

include hg

/-- The bindings of a partial match are those of the state. -/
theorem Clean.agrees (h : Clean g srcOps ops s) {more : List Op} {β : Nat → Op × Nat}
    (hin : ∀ op ∈ ops, op ∈ g.inEdges.keys)
    (hβ : ∀ (k : Nat) opx op, srcOps[k]? = some opx → ops[k]? = some op →
      Fed g (ops ++ more) β opx op) : Agrees s (fun _ => none) β := by
  refine ⟨fun idx b hb => ?_, fun idx b _ hb => (by cases hb)⟩
  obtain ⟨k, opx, op, i, hopx, hop, hi, he⟩ := h.bound idx b hb
  obtain ⟨c, hc, he'⟩ := hβ k opx op hopx hop i _ hi
  cases hc
  -- a slot has one source
  have heq := (hg.slots op (hin op (List.mem_of_getElem? hop))).unique _ _ he' he rfl
  exact Prod.ext (congrArg Edge.srcOp heq) (congrArg Edge.srcIdx heq)

include hsrc

/-- **`can_match`** at the state of a partial match finds its extensions. -/
theorem Clean.extends_iff (h : Clean g srcOps ops s) (hops : PartialMatch g srcOps ops)
    (hopx : srcOps[ops.length]? = some opx) (hop : op ∈ g.inEdges.keys) :
    canMatch s g opx op = .ok true ∧ op ∉ s.mappedOps.keys ↔
      PartialMatch g srcOps (ops ++ [op]) := by
  have hinner : ∀ k idx, .out k idx ∈ opx.inputs → k < ops.length := hsrc ops.length opx hopx
  have hptr : ∀ k idx, .out k idx ∈ opx.inputs → (s.mapOp k).ptr ≠ none := by
    intro k idx hk
    have hlt := hinner k idx hk
    rw [h.mapOp, List.getElem?_eq_getElem hlt]
    exact hg.body _ (hops.inGraph _ (List.getElem_mem hlt))
  rw [canMatch_eq_true hg hop hptr h.nonempty, h.mem_mappedOps]
  constructor
  · rintro ⟨⟨hfits, β, hagree, hfeeds⟩, hnot⟩
    refine ⟨?_, ?_, fun op' hop' => ?_, fun k opx' op' hopx' hop' => ?_, β,
      fun k opx' op' hopx' hop' i tx hi => ?_⟩
    · rw [List.length_append, List.length_singleton]
      exact (List.getElem?_eq_some_iff.mp hopx).1
    · exact List.nodup_append'.mpr ⟨hops.nodup, List.nodup_singleton op, by simpa using hnot⟩
    · rcases List.mem_append.mp hop' with hop' | hop'
      · exact hops.inGraph op' hop'
      · rwa [List.mem_singleton.mp hop']
    · rcases getElem?_append_singleton.mp hop' with hop' | ⟨rfl, rfl⟩
      · exact hops.fits k opx' op' hopx' hop'
      · rw [hopx] at hopx'
        cases hopx'
        exact hfits
    · rcases getElem?_append_singleton.mp hop' with hop' | ⟨rfl, rfl⟩
      · -- an earlier operator reads what the state says
        obtain ⟨b, hb, he⟩ := h.fed k opx' op' hopx' hop' i tx hi
        cases tx with
        | ext idx => exact ⟨β idx, rfl, (hagree.state idx b hb).symm ▸ he⟩
        | out j idx =>
          have hlt : j < ops.length := by
            have hjk := hsrc k opx' hopx' j idx (List.mem_of_getElem? hi)
            have hk := (List.getElem?_eq_some_iff.mp hop').1
            omega
          rw [h.sourceOf_out hlt β [op]] at hb
          exact ⟨b, hb, he⟩
      · rw [hopx] at hopx'
        cases hopx'
        have hfeed := hfeeds tx i (List.mem_zipIdx_iff_getElem?.mpr hi)
        cases tx with
        | ext idx => exact ⟨β idx, rfl, hfeed⟩
        | out j idx =>
          have hlt := hinner j idx (List.mem_of_getElem? hi)
          exact ⟨(s.mapOp j, idx), (h.sourceOf_out hlt β [op]).symm, hfeed⟩
  · intro hnext
    obtain ⟨β, hβ⟩ := hnext.fed
    have hlast : (ops ++ [op])[ops.length]? = some op := getElem?_append_singleton.mpr (Or.inr ⟨rfl, rfl⟩)
    refine ⟨⟨hnext.fits _ opx op hopx hlast, β, ?_, fun tx i hi => ?_⟩, fun hmem => ?_⟩
    · exact h.agrees hg hops.inGraph fun k opx' op' hopx' hop' =>
        hβ k opx' op' hopx' (getElem?_append_singleton.mpr (Or.inl hop'))
    · have hi := List.mem_zipIdx_iff_getElem?.mp hi
      obtain ⟨b, hb, he⟩ := hβ _ opx op hopx hlast i tx hi
      cases tx with
      | ext idx =>
        cases hb
        exact he
      | out j idx =>
        have hlt := hinner j idx (List.mem_of_getElem? hi)
        rw [← h.sourceOf_out hlt β [op]] at hb
        cases hb
        exact he
    · have hnodup := hnext.nodup
      rw [List.nodup_append'] at hnodup
      exact hnodup.2.2 hmem (List.mem_singleton.mpr rfl)

omit hg in
theorem PartialMatch.parent (h : PartialMatch g srcOps (ops ++ [op])) :
    PartialMatch g srcOps ops := by
  obtain ⟨β, hβ⟩ := h.fed
  have hlen := h.length
  rw [List.length_append, List.length_singleton] at hlen
  refine ⟨by omega, (List.nodup_append'.mp h.nodup).1,
    fun op' hop' => h.inGraph op' (List.mem_append_left _ hop'), fun k opx op' hopx hop' =>
      h.fits k opx op' hopx (getElem?_append_singleton.mpr (Or.inl hop')), β,
    fun k opx op' hopx hop' i tx hi => ?_⟩
  obtain ⟨b, hb, he⟩ := hβ k opx op' hopx (getElem?_append_singleton.mpr (Or.inl hop')) i tx hi
  refine ⟨b, ?_, he⟩
  cases tx with
  | ext idx => exact hb
  | out j idx =>
    have hjk := hsrc k opx hopx j idx (List.mem_of_getElem? hi)
    have hk := (List.getElem?_eq_some_iff.mp hop').1
    rwa [readsFrom, List.getElem?_append_left (by omega)] at hb

omit hsrc in
/-- After `match` an external tensor of the operator is bound to the source of its slots. -/
theorem Clean.first_binding (h : Clean g srcOps ops s) {β : Nat → Op × Nat}
    (hagree : Agrees s (fun _ => none) β) (hin : op ∈ g.inEdges.keys)
    (hnum : opx.inputs.length = op.numInputs) (hβ : Fed g (ops ++ [op]) β opx op) {idx : Nat}
    (hidx : idx ∈ exts opx.inputs) :
    (bindInputs g op s.mappedInputs opx.inputs.zipIdx idx).bind List.head? = some (β idx) := by
  have hslot : ∀ tx i, (tx, i) ∈ opx.inputs.zipIdx → ∃ b, slotSources g op i = [b] ∧
      ∀ c : Op × Nat, ⟨c.1, op, c.2, i⟩ ∈ g.ins op ↔ c = b := by
    intro tx i hi
    refine slotSources_eq hg hin ?_
    rw [← hnum]
    exact (List.getElem?_eq_some_iff.mp (List.mem_zipIdx_iff_getElem?.mp hi)).1
  obtain ⟨hnone, hhead, hnew⟩ := bindInputs_ok s.mappedInputs
    fun tx i hi => (hslot tx i hi).imp fun b hb => hb.1
  cases hold : s.mappedInputs idx with
  | none =>
    obtain ⟨j, hj⟩ := exists_mem_zipIdx.mpr hidx
    obtain ⟨i, b, hi, hb, hfirst⟩ := hnew idx hold fun h => ((hnone idx).mp h).2 j hj
    obtain ⟨b', hb', honly⟩ := hslot _ i hi
    obtain ⟨c, hc, he⟩ := hβ i _ (List.mem_zipIdx_iff_getElem?.mp hi)
    cases hc
    rw [hb] at hb'
    cases hb'
    rw [hfirst, (honly _).mp he]
  | some bs =>
    cases bs with
    | nil => exact absurd rfl (h.nonempty idx [] hold)
    | cons b bs =>
      have hb : s.sourceOf (.ext idx) = some b := by rw [Matching.sourceOf, hold]; rfl
      rw [hagree.state idx b hb]
      exact hhead idx b hb

omit hg hsrc in
theorem bindInputs_of_not_mem {inputs : Nat → Option (List (Op × Nat))} {idx : Nat}
    (hidx : idx ∉ exts opx.inputs) : bindInputs g op inputs opx.inputs.zipIdx idx = inputs idx :=
  bindInputs_other fun i hi => hidx (exists_mem_zipIdx.mp ⟨i, hi⟩)

omit hsrc in
/-- The guid of the next operator is new among those of the matched ones. -/
theorem Clean.guid_new (h : Clean g srcOps ops s) (hnext : PartialMatch g srcOps (ops ++ [op])) :
    ∀ k ∈ s.mappedOps.keys, k.guid ≠ op.guid := by
  intro k hk heq
  have hkops := h.mem_mappedOps.mp hk
  have hkin := hnext.inGraph k (List.mem_append_left _ hkops)
  have hin := hnext.inGraph op (List.mem_append_right _ (List.mem_singleton.mpr rfl))
  rw [hg.unique k op (Or.inl hkin) (Or.inl hin) heq] at hkops
  exact (List.nodup_append'.mp hnext.nodup).2.2 hkops (List.mem_singleton.mpr rfl)

omit hg hsrc in
/-- The operators recorded after one more. -/
theorem Clean.mapped_push (h : Clean g srcOps ops s) (hnodup : (ops ++ [op]).Nodup)
    (hguid : ∀ k ∈ s.mappedOps.keys, k.guid ≠ op.guid) (op' : Op) (k : Nat) :
    (s.mappedOps.insertNew op ops.length hguid).get? op' = some k ↔ (ops ++ [op])[k]? = some op' := by
  rw [SortedMap.get?_insertNew, getElem?_append_singleton]
  by_cases heq : op' = op
  · subst heq
    have hno : ops[k]? ≠ some op' := fun hk =>
      (List.nodup_append'.mp hnodup).2.2 (List.mem_of_getElem? hk) (List.mem_singleton.mpr rfl)
    simp [hno, eq_comm]
  · simp [heq, h.mapped, Ne.symm heq]

omit hg hsrc in
theorem Clean.mapOp_push (h : Clean g srcOps ops s) (k : Nat) :
    Function.update s.mapOp ops.length op k = (ops ++ [op])[k]?.getD Op.invalid := by
  by_cases heq : k = ops.length
  · subst heq
    rw [Function.update_self, List.getElem?_concat_length]
    rfl
  · rw [Function.update_of_ne heq, h.mapOp]
    congr 1
    ext op'
    simp [getElem?_append_singleton, heq]

/-- `match` records an extension of a partial match. -/
theorem Clean.push (h : Clean g srcOps ops s) (hnext : PartialMatch g srcOps (ops ++ [op]))
    (hopx : srcOps[ops.length]? = some opx) :
    ∃ s', matchOp s g ops.length opx op = .ok s' ∧ Clean g srcOps (ops ++ [op]) s' := by
  have hlast : (ops ++ [op])[ops.length]? = some op :=
    getElem?_append_singleton.mpr (Or.inr ⟨rfl, rfl⟩)
  have hin : op ∈ g.inEdges.keys := hnext.inGraph op (List.mem_of_getElem? hlast)
  obtain ⟨β, hβ⟩ := hnext.fed
  have hagree := h.agrees hg (hnext.parent hsrc).inGraph fun k opx' op' hopx' hop' =>
    hβ k opx' op' hopx' (getElem?_append_singleton.mpr (Or.inl hop'))
  obtain ⟨p, hp, -, hlen⟩ := (hnext.fits _ opx op hopx hlast).body
  have hnum : opx.inputs.length = op.numInputs := by rw [Op.numInputs, hp, hlen]; rfl
  have hfirst : ∀ idx ∈ exts opx.inputs,
      (bindInputs g op s.mappedInputs opx.inputs.zipIdx idx).bind List.head? = some (β idx) :=
    fun idx => h.first_binding hg hagree hin hnum (hβ _ opx op hopx hlast)
  have hguid := h.guid_new hg hnext
  rw [matchOp, dif_pos hguid]
  refine ⟨_, rfl, h.mapped_push hnext.nodup hguid, h.mapOp_push, fun idx => ?_, fun idx bs hbs => ?_,
    fun k opx' op' hopx' hop' i tx hi => ?_, fun idx b hb => ?_⟩
  · show bindInputs g op s.mappedInputs opx.inputs.zipIdx idx = none ↔ _
    rw [List.length_append, List.length_singleton]
    by_cases hidx : idx ∈ exts opx.inputs
    · refine iff_of_false (fun hnone => ?_) fun hall => hall ops.length opx (by omega) hopx hidx
      have hb := hfirst idx hidx
      rw [hnone] at hb
      cases hb
    · rw [bindInputs_of_not_mem hidx, h.keys]
      refine ⟨fun hall k opx' hk hopx' => ?_, fun hall k opx' hk => hall k opx' (by omega)⟩
      by_cases heq : k = ops.length
      · subst heq
        rw [hopx] at hopx'
        cases hopx'
        exact hidx
      · exact hall k opx' (by omega) hopx'
  · replace hbs : bindInputs g op s.mappedInputs opx.inputs.zipIdx idx = some bs := hbs
    by_cases hidx : idx ∈ exts opx.inputs
    · have hb := hfirst idx hidx
      rw [hbs] at hb
      rintro rfl
      cases hb
    · rw [bindInputs_of_not_mem hidx] at hbs
      exact h.nonempty idx bs hbs
  · obtain ⟨b, hb, he⟩ := hβ k opx' op' hopx' hop' i tx hi
    refine ⟨b, ?_, he⟩
    rw [← hb]
    cases tx with
    | ext idx =>
      show (bindInputs g op s.mappedInputs opx.inputs.zipIdx idx).bind List.head? = some (β idx)
      by_cases hidx : idx ∈ exts opx.inputs
      · exact hfirst idx hidx
      · -- then the tensor is one of an earlier operator, and keeps its binding
        rw [bindInputs_of_not_mem hidx]
        rcases getElem?_append_singleton.mp hop' with hop' | ⟨rfl, rfl⟩
        · obtain ⟨c, hc, -⟩ := h.fed k opx' op' hopx' hop' i _ hi
          rw [hagree.state idx c hc]
          exact hc
        · rw [hopx] at hopx'
          cases hopx'
          exact absurd (mem_exts.mpr (List.mem_of_getElem? hi)) hidx
    | out j idx =>
      have hjk := hsrc k opx' hopx' j idx (List.mem_of_getElem? hi)
      have hk := (List.getElem?_eq_some_iff.mp hop').1
      rw [List.length_append, List.length_singleton] at hk
      rw [← h.sourceOf_out (by omega) β [op]]
      show some (Function.update s.mapOp ops.length op j, idx) = some (s.mapOp j, idx)
      rw [Function.update_of_ne (by omega)]
  · replace hb : (bindInputs g op s.mappedInputs opx.inputs.zipIdx idx).bind List.head? = some b := hb
    by_cases hidx : idx ∈ exts opx.inputs
    · obtain ⟨i, hi⟩ := exists_mem_zipIdx.mpr hidx
      have hi := List.mem_zipIdx_iff_getElem?.mp hi
      obtain ⟨c, hc, he⟩ := hβ _ opx op hopx hlast i _ hi
      rw [hfirst idx hidx] at hb
      rw [← Option.some.inj (hb.symm.trans hc)] at he
      exact ⟨ops.length, opx, op, i, hopx, hlast, hi, he⟩
    · rw [bindInputs_of_not_mem hidx] at hb
      obtain ⟨k, opx', op', i, hopx', hop', hrest⟩ := h.bound idx b hb
      exact ⟨k, opx', op', i, hopx', getElem?_append_singleton.mpr (Or.inl hop'), hrest⟩

theorem clean_stateOf (h : PartialMatch g srcOps ops) :
    Clean g srcOps ops (stateOf g srcOps ops) := by
  induction ops using List.reverseRecOn with
  | nil => exact clean_start g srcOps
  | append_singleton ops op ih =>
    have hlen := h.length
    rw [List.length_append, List.length_singleton] at hlen
    have hopx := List.getElem?_eq_getElem (l := srcOps) hlen
    obtain ⟨s, hs, hclean⟩ := (ih (h.parent hsrc)).push hg hsrc h hopx
    rw [stateOf_append hopx hs]
    exact hclean

theorem matchOp_stateOf (h : PartialMatch g srcOps (ops ++ [op]))
    (hopx : srcOps[ops.length]? = some opx) :
    matchOp (stateOf g srcOps ops) g ops.length opx op = .ok (stateOf g srcOps (ops ++ [op])) := by
  obtain ⟨s, hs, -⟩ := (clean_stateOf hg hsrc (h.parent hsrc)).push hg hsrc h hopx
  rw [stateOf_append hopx hs, hs]

/-- **`unmatch` takes `match` back** when the operator's external tensors are its own. -/
theorem unmatchOp_stateOf (h : PartialMatch g srcOps (ops ++ [op]))
    (hopx : srcOps[ops.length]? = some opx)
    (hnodup : ((srcOps.take (ops.length + 1)).flatMap fun opx => exts opx.inputs).Nodup) :
    unmatchOp (stateOf g srcOps (ops ++ [op])) ops.length opx op = .ok (stateOf g srcOps ops) := by
  have hclean := clean_stateOf hg hsrc (h.parent hsrc)
  have hclean' := clean_stateOf hg hsrc h
  have hmatch := matchOp_stateOf hg hsrc h hopx
  rw [matchOp, dif_pos (hclean.guid_new hg h)] at hmatch
  have hstate := Except.ok.inj hmatch
  rw [List.take_add_one, hopx, List.flatMap_append, List.nodup_append'] at hnodup
  obtain ⟨-, hnodup, hdisjoint⟩ := hnodup
  have hexts : [opx].flatMap (fun opx => exts opx.inputs) = exts opx.inputs := by simp
  rw [Option.toList_some, hexts] at hnodup hdisjoint
  -- the external tensors of the operator were not bound before
  have hown : ∀ idx ∈ exts opx.inputs, (stateOf g srcOps ops).mappedInputs idx = none := by
    intro idx hidx
    refine (hclean.keys idx).mpr fun k opx' hk hopx' hmem => hdisjoint ?_ hidx
    refine List.mem_flatMap.mpr ⟨opx', List.mem_of_getElem? (i := k) ?_, hmem⟩
    rw [List.getElem?_take_of_lt hk, hopx']
  have hbound : ∀ idx ∈ exts opx.inputs,
      (stateOf g srcOps (ops ++ [op])).mappedInputs idx ≠ none := by
    intro idx hidx hnone
    refine (hclean'.keys idx).mp hnone ops.length opx ?_ hopx hidx
    rw [List.length_append, List.length_singleton]
    omega
  have hmem : op ∈ (stateOf g srcOps (ops ++ [op])).mappedOps.keys :=
    hclean'.mem_mappedOps.mpr (List.mem_append_right _ (List.mem_singleton.mpr rfl))
  have hunbind := unbindInputs_ok_iff.mpr ⟨hnodup, hbound, rfl⟩
  rw [unmatchOp, hunbind]
  show (if op ∈ (stateOf g srcOps (ops ++ [op])).mappedOps.keys then _ else _) = _
  rw [if_pos hmem, ← hstate]
  refine congrArg Except.ok ?_
  -- each of the three fields is what it was
  have hmapOp : Function.update (Function.update (stateOf g srcOps ops).mapOp ops.length op)
      ops.length Op.invalid = (stateOf g srcOps ops).mapOp := by
    rw [Function.update_idem]
    refine Function.update_eq_self_iff.mpr ?_
    rw [hclean.mapOp, List.getElem?_eq_none (Nat.le_refl _)]
    rfl
  have hinputs : (fun idx => if idx ∈ exts opx.inputs then none else
      bindInputs g op (stateOf g srcOps ops).mappedInputs opx.inputs.zipIdx idx) =
      (stateOf g srcOps ops).mappedInputs := by
    funext idx
    by_cases hidx : idx ∈ exts opx.inputs
    · rw [if_pos hidx, hown idx hidx]
    · rw [if_neg hidx, bindInputs_of_not_mem hidx]
  show Matching.mk _ _ _ = _
  rw [hmapOp, SortedMap.erase_insertNew, hinputs]

theorem matchOf_stateOf (h : PartialMatch g srcOps ops) (hlen : ops.length = srcOps.length) :
    MatchOf srcOps g (stateOf g srcOps ops) := by
  have hclean := clean_stateOf hg hsrc h
  -- every source operator has its operator
  have hmapOp : ∀ k < srcOps.length, ops[k]? = some ((stateOf g srcOps ops).mapOp k) := by
    intro k hk
    rw [hclean.mapOp, List.getElem?_eq_getElem (by omega)]
    rfl
  have hlt : ∀ {k opx}, srcOps[k]? = some opx → k < srcOps.length :=
    fun hopx => (List.getElem?_eq_some_iff.mp hopx).1
  refine ⟨fun op k => ?_, fun k hk => ?_, fun k opx hopx => ?_, fun k opx hopx => ?_,
    fun k opx hopx => ?_, fun idx b hb => ?_⟩
  · rw [hclean.mapped]
    constructor
    · intro hop
      have hk : k < srcOps.length := hlen ▸ (List.getElem?_eq_some_iff.mp hop).1
      rw [hmapOp k hk] at hop
      exact ⟨hk, Option.some.inj hop⟩
    · rintro ⟨hk, rfl⟩
      exact hmapOp k hk
  · exact h.inGraph _ (List.mem_of_getElem? (hmapOp k hk))
  · obtain ⟨p, hp, htype, hnum⟩ := (h.fits k opx _ hopx (hmapOp k (hlt hopx))).body
    exact ⟨p, hp, htype.symm, hnum.symm⟩
  · exact (h.fits k opx _ hopx (hmapOp k (hlt hopx))).pm
  · exact hclean.fed k opx _ hopx (hmapOp k (hlt hopx))
  · obtain ⟨k, opx, op, i, hopx, -, hi, -⟩ := hclean.bound idx b hb
    exact ⟨opx, List.mem_of_getElem? hopx, List.mem_of_getElem? hi⟩

end States

/-! ## `run` as a search with backtracking -/

def moves (g : Graph) : Moves PyError OpX Op Matching where
  test := fun opx s op => do
    let ok ← canMatch s g opx op
    return decide (ok = true ∧ op ∉ s.mappedOps.keys)
  push := fun depth opx s op => matchOp s g depth opx op
  pop := fun depth opx s op => unmatchOp s depth opx op

/-- A complete match: what is done there, and that it was reached. -/
def visit (env : RunEnv) (x : Rule) (g : Graph) (s : Matching) (l : Leaf × List Matching) :
    Except PyError (Leaf × List Matching) := do
  let leaf ← completeMatch env x g s l.1
  return (leaf, l.2 ++ [s])

def Search.ofParts (st : Matching × Leaf × List Matching) : Search := ⟨st.1, st.2.1, st.2.2⟩

theorem run_eq {env : RunEnv} {x : Rule} {g : Graph} (rest : List OpX) (depth : Nat)
    (st : Matching × Leaf × List Matching) :
    run env x g rest depth (Search.ofParts st) =
      (search (moves g) (visit env x g) g.inEdges.keys rest depth st).map Search.ofParts := by
  induction rest generalizing depth st with
  | nil =>
    rw [run, search, visit]
    show (completeMatch env x g st.1 st.2.1 >>= _) = _
    cases completeMatch env x g st.1 st.2.1 with
    | error e => rfl
    | ok leaf => rfl
  | cons opx rest ih =>
    rw [run, Backtrack.search_cons]
    refine foldlM_map_state (fun st op => ?_) _ st
    show (canMatch st.1 g opx op >>= _) = Except.map Search.ofParts ((canMatch st.1 g opx op >>=
      fun ok => pure (decide (ok = true ∧ op ∉ st.1.mappedOps.keys))) >>= _)
    cases canMatch st.1 g opx op with
    | error e => rfl
    | ok ok =>
      show (if ok = true ∧ op ∉ st.1.mappedOps.keys then _ else _) = Except.map Search.ofParts
        (if decide (ok = true ∧ op ∉ st.1.mappedOps.keys) = true then _ else _)
      simp only [decide_eq_true_eq]
      split
      · show (matchOp st.1 g depth opx op >>= _) =
          Except.map Search.ofParts (matchOp st.1 g depth opx op >>= _)
        cases matchOp st.1 g depth opx op with
        | error e => rfl
        | ok s =>
          show (run env x g rest (depth + 1) (Search.ofParts (s, st.2)) >>= _) =
            Except.map Search.ofParts (search (moves g) (visit env x g) _ rest (depth + 1)
              (s, st.2) >>= _)
          rw [ih]
          cases search (moves g) (visit env x g) g.inEdges.keys rest (depth + 1) (s, st.2) with
          | error e => rfl
          | ok st' =>
            show (unmatchOp st'.1 depth opx op >>= _) =
              Except.map Search.ofParts (unmatchOp st'.1 depth opx op >>= _)
            cases unmatchOp st'.1 depth opx op with
            | error e => rfl
            | ok s' => rfl
      · rfl

/-! ## When `run` goes through -/

theorem keyed_moves (g : Graph) : Backtrack.Keyed (moves g) (fun opx => exts opx.inputs)
    fun idx s => s.mappedInputs idx = none where
  push := by
    intro depth opx s op s' idx h hidx hnone
    replace h : matchOp s g depth opx op = .ok s' := h
    unfold matchOp at h
    split at h
    · cases h
      show bindInputs g op s.mappedInputs opx.inputs.zipIdx idx = none
      rw [bindInputs_of_not_mem hidx, hnone]
    · cases h
  pop := by
    intro depth opx s op s' idx h hnone
    obtain ⟨-, -, heq⟩ := unmatchOp_inputs h
    rw [heq]
    split
    · rfl
    · exact hnone
  own := by
    intro depth opx s op s' idx h hidx
    obtain ⟨-, hall, heq⟩ := unmatchOp_inputs h
    refine ⟨hall idx hidx, ?_⟩
    rw [heq, if_pos hidx]
  nodup := fun h => (unmatchOp_inputs h).1

section Run

variable {g : Graph} {x : Rule} (hg : g.WellFormed) (hx : x.WellFormed)

include hg hx

theorem represents_stateOf : Backtrack.Represents (moves g) g.inEdges.keys x.srcOps
    (fun opx => exts opx.inputs) (PartialMatch g x.srcOps) (stateOf g x.srcOps) where
  root := ⟨Nat.zero_le _, List.nodup_nil, fun op h => (by cases h), fun k opx op _ h => (by cases h),
    fun _ => (Op.invalid, 0), fun k opx op _ h => (by cases h)⟩
  length := fun h => h.length
  parent := fun h => h.parent hx.src
  cand := fun h => h.inGraph _ (List.mem_append_right _ (List.mem_singleton.mpr rfl))
  test := by
    intro ops opx op ok hops hopx hop htest
    simp only [moves, bind_ok_iff] at htest
    obtain ⟨b, hcan, hret⟩ := htest
    have hiff := (clean_stateOf hg hx.src hops).extends_iff hg hx.src hops hopx hop
    rw [← hiff, hcan, ← Except.ok.inj hret, decide_eq_true_eq]
    simp
  push := fun h hopx => matchOp_stateOf hg hx.src h hopx
  pop := fun h hopx hnodup => unmatchOp_stateOf hg hx.src h hopx hnodup

end Run

open Classical in
/-- The matches of all source operators, in the order of the search. -/
noncomputable def completeMatches (g : Graph) (srcOps : List OpX) : List (List Op) :=
  Backtrack.completions g.inEdges.keys (PartialMatch g srcOps) srcOps.length []

theorem mem_completeMatches {g : Graph} {x : Rule} (hg : g.WellFormed) (hx : x.WellFormed)
    {ops : List Op} : ops ∈ completeMatches g x.srcOps ↔
      PartialMatch g x.srcOps ops ∧ ops.length = x.srcOps.length := by
  classical
  have hrep := represents_stateOf hg hx
  rw [completeMatches, Backtrack.mem_completions hrep hrep.root]
  simp

theorem visits_ok_iff {env : RunEnv} {x : Rule} {g : Graph} {leaves : List (List Op)} {leaf : Leaf}
    {reached : List Matching} {out : Leaf × List Matching} :
    Backtrack.runLeaves (visit env x g) (stateOf g x.srcOps) leaves (leaf, reached) = .ok out ↔
      leaves.foldlM (fun leaf ops => completeMatch env x g (stateOf g x.srcOps ops) leaf) leaf =
        .ok out.1 ∧ out.2 = reached ++ leaves.map (stateOf g x.srcOps) := by
  induction leaves generalizing leaf reached with
  | nil =>
    show Except.ok (leaf, reached) = Except.ok out ↔ Except.ok leaf = Except.ok out.1 ∧ _
    simp [Prod.ext_iff, eq_comm]
  | cons ops leaves ih =>
    rw [Backtrack.runLeaves, List.foldlM_cons, bind_ok_iff, List.foldlM_cons, bind_ok_iff]
    simp only [visit, bind_ok_iff]
    constructor
    · rintro ⟨mid, ⟨leaf', hleaf, hret⟩, hrest⟩
      cases hret
      obtain ⟨hrun, hreached⟩ := ih.mp hrest
      refine ⟨⟨leaf', hleaf, hrun⟩, ?_⟩
      rw [hreached, List.append_assoc]
      rfl
    · rintro ⟨⟨leaf', hleaf, hrun⟩, hreached⟩
      refine ⟨(leaf', reached ++ [stateOf g x.srcOps ops]), ⟨leaf', hleaf, rfl⟩,
        ih.mpr ⟨hrun, ?_⟩⟩
      rw [hreached, List.append_assoc]
      rfl

section Run

variable {env : RunEnv} {g : Graph} {x : Rule} {leaf : Leaf} (hg : g.WellFormed)
  (hx : x.WellFormed)

include hg hx

/-- A run that goes through, in full. -/
theorem run_eq_ok {st : Search} :
    run env x g x.srcOps 0 ⟨Matching.start, leaf, []⟩ = .ok st ↔ st.matching = Matching.start ∧
      (∀ ops, PartialMatch g x.srcOps ops → Backtrack.Calm (moves g) g.inEdges.keys x.srcOps
        (fun opx => exts opx.inputs) (stateOf g x.srcOps) ops) ∧
      (completeMatches g x.srcOps).foldlM
        (fun leaf ops => completeMatch env x g (stateOf g x.srcOps ops) leaf) leaf = .ok st.leaf ∧
      st.reached = (completeMatches g x.srcOps).map (stateOf g x.srcOps) := by
  classical
  have hsearch : search (moves g) (visit env x g) g.inEdges.keys x.srcOps 0
      (stateOf g x.srcOps [], leaf, []) = .ok (st.matching, st.leaf, st.reached) ↔ _ :=
    Backtrack.search_ok_iff (represents_stateOf hg hx) (keyed_moves g)
  rw [visits_ok_iff] at hsearch
  refine Iff.trans ?_ hsearch
  show run env x g x.srcOps 0 (Search.ofParts (stateOf g x.srcOps [], leaf, [])) = _ ↔ _
  rw [run_eq]
  cases search (moves g) (visit env x g) g.inEdges.keys x.srcOps 0
      (stateOf g x.srcOps [], leaf, []) with
  | error e => exact iff_of_false (fun h => (by cases h)) fun h => (by cases h)
  | ok out =>
    constructor
    · intro h
      cases h
      rfl
    · intro h
      cases h
      rfl

theorem reached_of_run {st : Search}
    (h : run env x g x.srcOps 0 ⟨Matching.start, leaf, []⟩ = .ok st) :
    st.matching = Matching.start ∧ ∀ s ∈ st.reached, MatchOf x.srcOps g s := by
  obtain ⟨hstart, -, -, hreached⟩ := (run_eq_ok hg hx).mp h
  refine ⟨hstart, fun s hs => ?_⟩
  rw [hreached] at hs
  obtain ⟨ops, hops, rfl⟩ := List.mem_map.mp hs
  obtain ⟨hmatch, hlen⟩ := (mem_completeMatches hg hx).mp hops
  exact matchOf_stateOf hg hx.src hmatch hlen

/-- **`run` goes through**, restores its state and reaches consistent matches only, exactly when

* no partial match uses an external tensor twice,
* no test of `can_match` at a partial match raises, and
* what is done at the complete matches, one after the other, raises nothing. -/
theorem run_ok_iff :
    (∃ st, run env x g x.srcOps 0 ⟨Matching.start, leaf, []⟩ = .ok st ∧
      st.matching = Matching.start ∧ ∀ s ∈ st.reached, MatchOf x.srcOps g s) ↔
    (∀ ops, PartialMatch g x.srcOps ops →
      ((x.srcOps.take ops.length).flatMap fun opx => exts opx.inputs).Nodup) ∧
    (∀ ops opx, PartialMatch g x.srcOps ops → x.srcOps[ops.length]? = some opx →
      ∀ op ∈ g.inEdges.keys, ∃ ok, canMatch (stateOf g x.srcOps ops) g opx op = .ok ok) ∧
    ∃ leaf', (completeMatches g x.srcOps).foldlM
      (fun leaf ops => completeMatch env x g (stateOf g x.srcOps ops) leaf) leaf = .ok leaf' := by
  have htest : ∀ ops opx op, (∃ ok, (moves g).test opx (stateOf g x.srcOps ops) op = .ok ok) ↔
      ∃ ok, canMatch (stateOf g x.srcOps ops) g opx op = .ok ok := by
    intro ops opx op
    simp only [moves, bind_ok_iff]
    exact ⟨fun ⟨_, ok, hcan, _⟩ => ⟨ok, hcan⟩, fun ⟨ok, hcan⟩ => ⟨_, ok, hcan, rfl⟩⟩
  constructor
  · rintro ⟨st, hrun, -⟩
    obtain ⟨-, hcalm, hleaves, -⟩ := (run_eq_ok hg hx).mp hrun
    exact ⟨fun ops hops => (hcalm ops hops).1, fun ops opx hops hopx op hop =>
      (htest ops opx op).mp ((hcalm ops hops).2 opx hopx op hop), st.leaf, hleaves⟩
  · rintro ⟨honce, htests, leaf', hleaves⟩
    have hrun : run env x g x.srcOps 0 ⟨Matching.start, leaf, []⟩ = .ok ⟨Matching.start, leaf',
        (completeMatches g x.srcOps).map (stateOf g x.srcOps)⟩ :=
      (run_eq_ok hg hx).mpr ⟨rfl, fun ops hops => ⟨honce ops hops, fun opx hopx op hop =>
        (htest ops opx op).mpr (htests ops opx hops hopx op hop)⟩, hleaves, rfl⟩
    exact ⟨_, hrun, reached_of_run hg hx hrun⟩

end Run

-- `x + y` becomes `y + x`
def swapAdd : Rule where
  srcOps := [⟨.OP_EW_ADD, [.ext 10, .ext 11], [], []⟩]
  dstOps := [⟨.OP_EW_ADD, [.ext 11, .ext 10], [], []⟩]
  mappedOutputs := [((0, 0), (0, 0))]

-- `(x + y) + x` becomes `(y + x) + x`; both source operators read `x`
def swapAdds : Rule where
  srcOps := [⟨.OP_EW_ADD, [.ext 10, .ext 11], [], []⟩, ⟨.OP_EW_ADD, [.out 0 0, .ext 10], [], []⟩]
  dstOps := [⟨.OP_EW_ADD, [.ext 11, .ext 10], [], []⟩, ⟨.OP_EW_ADD, [.out 0 0, .ext 10], [], []⟩]
  mappedOutputs := [((1, 0), (1, 0))]

-- the graph of `(x + y) + x`
def sumCalls : List Call :=
  [.newInput [1, 4], .newInput [1, 4], .element .OP_EW_ADD 0 1, .element .OP_EW_ADD 2 0]

/-- `run` of a rule on the graph of a session. -/
def Session.runRule (s : Session) (m : Model) (x : Rule) : Except PyError Search :=
  run ⟨fun _ => true, fun _ => 0⟩ x s.graph x.srcOps 0
    ⟨Matching.start, ⟨m, fun _ => Op.invalid, [], []⟩, []⟩

theorem swapAdd_wellFormed : swapAdd.WellFormed :=
  Rule.wellFormed_of_entries (by decide) (by decide) (by decide) (by decide)

theorem swapAdds_wellFormed : swapAdds.WellFormed :=
  Rule.wellFormed_of_entries (by decide) (by decide) (by decide) (by decide)

/-- On the graph of `(x + y) + x` no tensor of `swapAdd` is used twice, and its run goes through. -/
theorem run_swapAdd : ∃ (s : Session) (m : Model), s.graph.WellFormed ∧ swapAdd.WellFormed ∧
    (∀ ops, PartialMatch s.graph swapAdd.srcOps ops →
      ((swapAdd.srcOps.take ops.length).flatMap fun opx => exts opx.inputs).Nodup) ∧
    ∃ leaf', (completeMatches s.graph swapAdd.srcOps).foldlM (fun leaf ops =>
      completeMatch ⟨fun _ => true, fun _ => 0⟩ swapAdd s.graph (stateOf s.graph swapAdd.srcOps ops)
        leaf) ⟨m, fun _ => Op.invalid, [], []⟩ = .ok leaf' := by
  have hrun : ((sumCalls.map Step.build).foldlM Session.step Session.start >>= fun s =>
      s.model s.current >>= fun m => (s.runRule m swapAdd).map fun _ => ()).toOption = some () := by
    decide +kernel
  obtain ⟨s, hs, hrun⟩ := bind_ok_iff.mp (toOption_eq_some.mp hrun)
  obtain ⟨m, -, hrun⟩ := bind_ok_iff.mp hrun
  have hg := (Session.sound_of_reachable (Session.reachable_of_builds _ hs)).inv.graph
  cases hst : s.runRule m swapAdd with
  | error e =>
    rw [hst] at hrun
    cases hrun
  | ok st =>
    obtain ⟨honce, -, hleaves⟩ := (run_ok_iff hg swapAdd_wellFormed).mp
      ⟨st, hst, reached_of_run hg swapAdd_wellFormed hst⟩
    exact ⟨s, m, hg, swapAdd_wellFormed, honce, hleaves⟩

/-- On the same graph `swapAdds` has a match, whose two operators share a tensor. Taking the second
operator back deletes the tensor, and taking the first one back fails. -/
theorem run_swapAdds : ∃ (s : Session) (m : Model), s.graph.WellFormed ∧ swapAdds.WellFormed ∧
    run ⟨fun _ => true, fun _ => 0⟩ swapAdds s.graph swapAdds.srcOps 0
      ⟨Matching.start, ⟨m, fun _ => Op.invalid, [], []⟩, []⟩ = .error .keyError := by
  have hrun : ((sumCalls.map Step.build).foldlM Session.step Session.start >>= fun s =>
      s.model s.current >>= fun m =>
        match s.runRule m swapAdds with
        | .error .keyError => .ok ()
        | _ => .error .keyError).toOption = some () := by
    decide +kernel
  obtain ⟨s, hs, hrun⟩ := bind_ok_iff.mp (toOption_eq_some.mp hrun)
  obtain ⟨m, -, hrun⟩ := bind_ok_iff.mp hrun
  have hg := (Session.sound_of_reachable (Session.reachable_of_builds _ hs)).inv.graph
  refine ⟨s, m, hg, swapAdds_wellFormed, ?_⟩
  split at hrun
  · next herror => exact herror
  · cases hrun

end Peps
