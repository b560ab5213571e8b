import Mathlib.Data.Fintype.Order
import Mathlib.Logic.Relation
import Mathlib.Order.WellFounded
import Peps.Lib.Kahn
import Peps.Dbocg.Const

/-!
# `nudf.py` — the reordering of `load_onnx`

Before the operators of an ONNX model are added to the graph, its nodes are brought into an order
in which every node comes after the ones it reads from. The work list is one of *names*: a node
without a name is given one from its type and position, `name_to_op`, `out_edges` and `dependents`
are dictionaries over names, and at the end the names are looked up again.

If the names are distinct, names and nodes are the same thing and the loops are Kahn's algorithm.
If two nodes share a name, the look-up finds the later one and the earlier one is never visited,
whatever the work list holds; the assertion on its length does not notice when a name stands in it
twice. So the reordering does its job exactly for distinct names (`reorder_visits_iff`).
-/

namespace Peps

open Lib

/-- The fields of an ONNX node that the reordering reads. -/
structure NodeProto where
  op_type : String
  name : String
  input : List String
  output : List String

/-! ## The loops -/

/-- `if len(op.name) == 0: op.name = op.op_type + '_' + str(idx)`. -/
def nameNode (op : NodeProto) (idx : Nat) : NodeProto :=
  if op.name.length = 0 then { op with name := op.op_type ++ "_" ++ toString idx } else op

/-- The nodes of the model after the first loop. -/
def nameNodes (nodes : List NodeProto) : List NodeProto := nodes.mapIdx fun idx op => nameNode op idx

/-- `tensor_owner`: the name of the node a tensor was last seen as an output of. -/
def tensorOwner (nodes : List NodeProto) : String → Option String :=
  nodes.foldl (fun d op => op.output.foldl (fun d t => Function.update d t (some op.name)) d)
    fun _ => none

/-- `name_to_op`, with the position of the node for the node. -/
def nameToOp (nodes : List NodeProto) : String → Option Nat :=
  nodes.zipIdx.foldl (fun d x => Function.update d x.1.name (some x.2)) fun _ => none

/-- The dictionaries of the second loop. -/
structure Reorder where
  dependents : String → Option Int
  out_edges : String → List String
  node_list : List String

/-- One input of the node `name`. -/
def countInput (owner : String → Option String) (name : String) (s : Reorder) (input : String) :
    Reorder :=
  match owner input with
  | none => s
  | some input_node =>
      { s with
        dependents := Function.update s.dependents name ((s.dependents name).map (· + 1))
        out_edges := Function.update s.out_edges input_node (s.out_edges input_node ++ [name]) }

/-- One round of the second loop. -/
def countNode (owner : String → Option String) (s : Reorder) (op : NodeProto) : Reorder :=
  let s := { s with dependents := Function.update s.dependents op.name (some 0) }
  let s := op.input.foldl (countInput owner op.name) s
  if s.dependents op.name = some 0 then { s with node_list := s.node_list ++ [op.name] } else s

/-- The second loop. -/
def countNodes (nodes : List NodeProto) : Reorder :=
  nodes.foldl (countNode (tensorOwner nodes)) ⟨fun _ => none, fun _ => [], []⟩

/-- The third loop: the work list when it has been read to its end. A name is put on it at most
once by each of the two loops, so twice the number of nodes bounds its length. -/
def workList (nodes : List NodeProto) : Except PyError (List String × Unit) :=
  kahn .keyError .endless (fun u opname => .ok ((countNodes nodes).out_edges opname, u))
    (2 * nodes.length) () (countNodes nodes).dependents (countNodes nodes).node_list []

/-- The positions of the nodes in the order in which their operators are added. -/
def reorder (model : List NodeProto) : Except PyError (List Nat) := do
  let nodes := nameNodes model
  let (node_list, _) ← workList nodes
  pyAssert (node_list.length = nodes.length)
  node_list.mapM fun opname =>
    match nameToOp nodes opname with
    | none => .error .keyError
    | some i => .ok i

/-! ## What it is for -/

/-- Node `v` reads a tensor that node `u` produces. -/
def NodeFeeds (nodes : List NodeProto) (u v : Nat) : Prop :=
  ∃ a b t, nodes[u]? = some a ∧ nodes[v]? = some b ∧ t ∈ a.output ∧ t ∈ b.input

/-- No tensor is produced by two nodes. -/
def UniqueProducers (nodes : List NodeProto) : Prop :=
  ∀ (u v : Nat) (a b : NodeProto) (t : String), nodes[u]? = some a → nodes[v]? = some b →
    t ∈ a.output → t ∈ b.output → u = v

/-- No node depends on itself, directly or through others. -/
def AcyclicFeeds (nodes : List NodeProto) : Prop :=
  ∀ v, ¬ Relation.TransGen (NodeFeeds nodes) v v

/-- Every node once, and after the nodes that produce its inputs. -/
structure Visits (nodes : List NodeProto) (visited : List Nat) : Prop where
  once : visited.Perm (List.range nodes.length)
  after : ∀ before v rest, visited = before ++ v :: rest → ∀ u, NodeFeeds nodes u v → u ∈ before

/-! ## The dictionaries -/

theorem update_outputs (d : String → Option String) (name : String) (outputs : List String)
    (t : String) :
    outputs.foldl (fun d t => Function.update d t (some name)) d t =
      if t ∈ outputs then some name else d t := by
  induction outputs generalizing d with
  | nil => simp
  | cons o outputs ih =>
    rw [List.foldl_cons, ih]
    by_cases ht : t ∈ outputs
    · simp [ht]
    · by_cases hto : t = o
      · simp [hto]
      · simp [ht, hto]

theorem tensorOwner_append (nodes : List NodeProto) (op : NodeProto) (t : String) :
    tensorOwner (nodes ++ [op]) t = if t ∈ op.output then some op.name else tensorOwner nodes t := by
  rw [tensorOwner, List.foldl_append]
  exact update_outputs _ _ _ _

theorem nameToOp_append (nodes : List NodeProto) (op : NodeProto) (a : String) :
    nameToOp (nodes ++ [op]) a = if a = op.name then some nodes.length else nameToOp nodes a := by
  rw [nameToOp, List.zipIdx_append, List.foldl_append]
  show Function.update (nameToOp nodes) op.name (some (0 + nodes.length)) a = _
  rw [Function.update_apply, Nat.zero_add]

/-- The owner of a tensor is the name of a node that produces it. -/
theorem tensorOwner_some {nodes : List NodeProto} {t a : String} (h : tensorOwner nodes t = some a) :
    ∃ (u : Nat) (op : NodeProto), nodes[u]? = some op ∧ t ∈ op.output ∧ op.name = a := by
  induction nodes using List.reverseRecOn with
  | nil => cases h
  | append_singleton nodes op ih =>
    rw [tensorOwner_append] at h
    split at h
    · next ht => exact ⟨nodes.length, op, by simp, ht, Option.some.inj h⟩
    · obtain ⟨u, op', hu, hrest⟩ := ih h
      exact ⟨u, op', by rw [List.getElem?_append_left (List.getElem?_eq_some_iff.mp hu).1, hu], hrest⟩

/-- A tensor that is produced has an owner. -/
theorem tensorOwner_isSome {nodes : List NodeProto} {t : String} {op : NodeProto} (hop : op ∈ nodes)
    (ht : t ∈ op.output) : (tensorOwner nodes t).isSome := by
  induction nodes using List.reverseRecOn with
  | nil => cases hop
  | append_singleton nodes op' ih =>
    rw [tensorOwner_append]
    split
    · rfl
    · next hnot =>
      rcases List.mem_append.mp hop with hop | hop
      · exact ih hop
      · rw [List.mem_singleton.mp hop] at ht
        exact absurd ht hnot

/-- A name is looked up at the last node that has it. -/
theorem nameToOp_some {nodes : List NodeProto} {a : String} {i : Nat}
    (h : nameToOp nodes a = some i) :
    (nodes.map NodeProto.name)[i]? = some a ∧
      ∀ j, i < j → (nodes.map NodeProto.name)[j]? ≠ some a := by
  induction nodes using List.reverseRecOn with
  | nil => cases h
  | append_singleton nodes op ih =>
    rw [nameToOp_append] at h
    rw [List.map_append, List.map_singleton]
    split at h
    · next ha =>
      obtain rfl := Option.some.inj h
      refine ⟨by simp [ha], fun j hj => ?_⟩
      rw [List.getElem?_eq_none (by simp; omega)]
      simp
    · next ha =>
      obtain ⟨hi, hlast⟩ := ih h
      have hlt := (List.getElem?_eq_some_iff.mp hi).1
      refine ⟨by rw [List.getElem?_append_left hlt, hi], fun j hj => ?_⟩
      rcases Nat.lt_or_ge j (nodes.map NodeProto.name).length with hjlt | hjge
      · rw [List.getElem?_append_left hjlt]
        exact hlast j hj
      · rw [List.getElem?_append_right hjge, List.getElem?_singleton]
        split
        · exact fun heq => ha (Option.some.inj heq).symm
        · simp

/-! ## The counts, for distinct names -/

section Counts

variable (owner : String → Option String)

/-- The inputs of the node with a name. -/
def inputsOf (nodes : List NodeProto) (v : String) : List String :=
  ((nodes.find? fun op => op.name = v).map NodeProto.input).getD []

theorem inputsOf_cons (op : NodeProto) (nodes : List NodeProto) (v : String) :
    inputsOf (op :: nodes) v = if op.name = v then op.input else inputsOf nodes v := by
  unfold inputsOf
  rw [List.find?_cons]
  by_cases h : op.name = v <;> simp [h]

/-- The inputs that a node of the model produces. -/
def openInputs (inputs : List String) : Nat := inputs.countP fun t => (owner t).isSome

/-- The inputs that the node `a` produces. -/
def inputsFrom (inputs : List String) (a : String) : Nat := inputs.countP fun t => owner t = some a

variable {owner}

/-- **The inner loop** over the inputs of one node. -/
theorem foldl_countInput (name : String) (inputs : List String) {s : Reorder} {n : Int}
    (hs : s.dependents name = some n) :
    (inputs.foldl (countInput owner name) s).dependents =
        Function.update s.dependents name (some (n + openInputs owner inputs)) ∧
      (∀ a, (inputs.foldl (countInput owner name) s).out_edges a =
        s.out_edges a ++ List.replicate (inputsFrom owner inputs a) name) ∧
      (inputs.foldl (countInput owner name) s).node_list = s.node_list := by
  induction inputs generalizing s n with
  | nil => simp [openInputs, inputsFrom, ← hs]
  | cons t inputs ih =>
    rw [List.foldl_cons]
    cases howner : owner t with
    | none =>
      have hstep : countInput owner name s t = s := by rw [countInput, howner]
      obtain ⟨hdep, hout, hlist⟩ := ih hs
      rw [hstep, hdep]
      refine ⟨?_, fun a => ?_, hlist⟩
      · simp [openInputs, howner]
      · rw [hout a]
        simp [inputsFrom, howner]
    | some u =>
      obtain ⟨s', hs'⟩ : ∃ s', s' = countInput owner name s t := ⟨_, rfl⟩
      rw [countInput, howner] at hs'
      have hn : s'.dependents name = some (n + 1) := by
        rw [hs']
        simp [hs]
      obtain ⟨hdep, hout, hlist⟩ := ih hn
      rw [countInput, howner, ← hs', hdep]
      refine ⟨?_, fun a => ?_, by rw [hlist, hs']⟩
      · rw [hs']
        simp only [Function.update_idem, openInputs, List.countP_cons, howner, Option.isSome_some,
          if_true]
        congr 2
        push_cast
        omega
      · rw [hout a, hs']
        by_cases hau : a = u
        · subst hau
          simp [inputsFrom, howner, List.replicate_succ]
        · have hne : ¬ owner t = some a := by
            rw [howner]
            exact fun h => hau (Option.some.inj h).symm
          simp [inputsFrom, hne, hau]

/-- What the second loop has gathered from the nodes `read`. -/
structure Tallied (nodes read : List NodeProto) (s : Reorder) : Prop where
  dependents : ∀ v, s.dependents v = if v ∈ read.map NodeProto.name then
    some (openInputs (tensorOwner nodes) (inputsOf nodes v) : Int) else none
  out_edges : ∀ a, s.out_edges a = read.flatMap fun op =>
    List.replicate (inputsFrom (tensorOwner nodes) op.input a) op.name
  node_list : s.node_list = (read.map NodeProto.name).filter fun v =>
    openInputs (tensorOwner nodes) (inputsOf nodes v) = 0

theorem inputsOf_eq {read rest : List NodeProto} {op : NodeProto}
    (hfresh : op.name ∉ read.map NodeProto.name) :
    inputsOf (read ++ op :: rest) op.name = op.input := by
  unfold inputsOf
  rw [List.find?_append, List.find?_eq_none.mpr, Option.none_or, List.find?_cons]
  · simp
  · intro op' hop' heq
    exact hfresh (List.mem_map.mpr ⟨op', hop', of_decide_eq_true heq⟩)

/-- **One node more.** -/
theorem Tallied.step {nodes read rest : List NodeProto} {op : NodeProto} {s : Reorder}
    (hsplit : nodes = read ++ op :: rest) (hfresh : op.name ∉ read.map NodeProto.name)
    (h : Tallied nodes read s) :
    Tallied nodes (read ++ [op]) (countNode (tensorOwner nodes) s op) := by
  have hin : inputsOf nodes op.name = op.input := hsplit ▸ inputsOf_eq hfresh
  have hzero : ({ s with dependents := Function.update s.dependents op.name (some 0) } :
      Reorder).dependents op.name = some 0 := Function.update_self ..
  obtain ⟨hdep, hout, hlist⟩ := foldl_countInput op.name op.input hzero
  have hcount : (op.input.foldl (countInput (tensorOwner nodes) op.name)
      { s with dependents := Function.update s.dependents op.name (some 0) }).dependents op.name =
      some (openInputs (tensorOwner nodes) op.input : Int) := by
    rw [hdep, Function.update_self, Int.zero_add]
  have hdep' : ∀ v, (op.input.foldl (countInput (tensorOwner nodes) op.name)
      { s with dependents := Function.update s.dependents op.name (some 0) }).dependents v =
      if v ∈ (read ++ [op]).map NodeProto.name then
        some (openInputs (tensorOwner nodes) (inputsOf nodes v) : Int) else none := by
    intro v
    rw [hdep, List.map_append, List.map_singleton, Function.update_idem]
    by_cases hv : v = op.name
    · subst hv
      rw [Function.update_self, if_pos (by simp), hin, Int.zero_add]
    · rw [Function.update_of_ne hv, h.dependents]
      simp [hv]
  have hout' : ∀ a, (op.input.foldl (countInput (tensorOwner nodes) op.name)
      { s with dependents := Function.update s.dependents op.name (some 0) }).out_edges a =
      (read ++ [op]).flatMap fun op =>
        List.replicate (inputsFrom (tensorOwner nodes) op.input a) op.name := by
    intro a
    rw [hout, List.flatMap_append, ← h.out_edges]
    simp
  unfold countNode
  simp only [hcount, Option.some.injEq]
  by_cases hopen : openInputs (tensorOwner nodes) op.input = 0
  · rw [if_pos (by exact_mod_cast hopen)]
    refine ⟨hdep', hout', ?_⟩
    show _ ++ [op.name] = _
    rw [hlist, h.node_list]
    simp [hin, hopen]
  · rw [if_neg (by exact_mod_cast hopen)]
    refine ⟨hdep', hout', ?_⟩
    rw [hlist, h.node_list]
    simp [hin, hopen]

/-- **The second loop.** -/
theorem countNodes_tallied {nodes : List NodeProto} (hnodup : (nodes.map NodeProto.name).Nodup) :
    Tallied nodes nodes (countNodes nodes) := by
  have hall : ∀ read rest, nodes = read ++ rest → Tallied nodes read
      (read.foldl (countNode (tensorOwner nodes)) ⟨fun _ => none, fun _ => [], []⟩) := by
    intro read
    induction read using List.reverseRecOn with
    | nil => exact fun _ _ => ⟨fun v => by simp, fun a => rfl, rfl⟩
    | append_singleton read op ih =>
      intro rest hsplit
      rw [List.append_assoc, List.singleton_append] at hsplit
      rw [List.foldl_append]
      refine Tallied.step hsplit (fun hmem => ?_) (ih _ hsplit)
      rw [hsplit, List.map_append, List.map_cons, List.nodup_append] at hnodup
      exact hnodup.2.2 _ hmem _ (by simp) rfl
  exact hall nodes [] (by simp)

/-- The edges of `out_edges` are the inputs. -/
theorem count_flatMap_inputs (nodes : List NodeProto) (hnodup : (nodes.map NodeProto.name).Nodup)
    (a v : String) :
    (nodes.flatMap fun op => List.replicate (inputsFrom owner op.input a) op.name).count v =
      inputsFrom owner (inputsOf nodes v) a := by
  induction nodes with
  | nil => rfl
  | cons op nodes ih =>
    obtain ⟨hop, hnodup⟩ := List.nodup_cons.mp hnodup
    rw [List.flatMap_cons, List.count_append, ih hnodup, List.count_replicate, inputsOf_cons]
    by_cases hv : op.name = v
    · -- no other node has the name
      have hnone : inputsOf nodes v = [] := by
        unfold inputsOf
        rw [List.find?_eq_none.mpr]
        · rfl
        · intro op' hop' heq
          exact hop (hv ▸ List.mem_map.mpr ⟨op', hop', of_decide_eq_true heq⟩)
      simp [hv, hnone, inputsFrom]
    · simp [hv]

theorem incoming_inputs {nodes : List NodeProto} (hnodup : (nodes.map NodeProto.name).Nodup)
    {s : Reorder} (h : Tallied nodes nodes s) :
    Kahn.Incoming s.out_edges (inputsOf nodes) (tensorOwner nodes) := by
  intro a v
  rw [h.out_edges, count_flatMap_inputs nodes hnodup]
  rfl

end Counts

/-! ## Dependencies -/

/-- A relation between finitely many numbers without a cycle is well-founded. -/
theorem wellFounded_of_acyclic {n : Nat} {r : Nat → Nat → Prop} (hbound : ∀ u v, r u v → u < n)
    (hacyclic : ∀ v, ¬ Relation.TransGen r v v) : WellFounded r := by
  have htrans : IsTrans (Fin n) fun u v => Relation.TransGen r u v := ⟨fun _ _ _ => .trans⟩
  have hirrefl : Std.Irrefl fun u v : Fin n => Relation.TransGen r u v := ⟨fun v => hacyclic v⟩
  have hwf : WellFounded fun u v : Fin n => Relation.TransGen r u v :=
    Finite.wellFounded_of_trans_of_irrefl _
  have hacc : ∀ v : Fin n, Acc r v := fun v => by
    induction v using hwf.induction with
    | h v ih => exact ⟨_, fun u hu => ih ⟨u, hbound u v hu⟩ (.single hu)⟩
  exact ⟨fun v => ⟨v, fun u hu => hacc ⟨u, hbound u v hu⟩⟩⟩

theorem NodeFeeds.lt {nodes : List NodeProto} {u v : Nat} (h : NodeFeeds nodes u v) :
    u < nodes.length := by
  obtain ⟨a, -, -, hu, -⟩ := h
  exact (List.getElem?_eq_some_iff.mp hu).1

/-- With distinct names, the names of the nodes go down along the dependencies. -/
def NameFeeds (nodes : List NodeProto) (a b : String) : Prop :=
  ∃ u v : Nat, (nodes.map NodeProto.name)[u]? = some a ∧ (nodes.map NodeProto.name)[v]? = some b ∧
    NodeFeeds nodes u v

theorem position_unique {l : List String} (hnodup : l.Nodup) {i j : Nat} {a : String}
    (hi : l[i]? = some a) (hj : l[j]? = some a) : i = j :=
  (List.getElem?_inj (List.getElem?_eq_some_iff.mp hi).1 hnodup).mp (hi.trans hj.symm)

theorem wellFounded_nameFeeds {nodes : List NodeProto}
    (hnodup : (nodes.map NodeProto.name).Nodup) (hacyclic : AcyclicFeeds nodes) :
    WellFounded (NameFeeds nodes) := by
  have hwf := wellFounded_of_acyclic (fun u v (h : NodeFeeds nodes u v) => h.lt) hacyclic
  have hacc : ∀ (v : Nat) (b : String), (nodes.map NodeProto.name)[v]? = some b →
      Acc (NameFeeds nodes) b := by
    intro v
    induction v using hwf.induction with
    | h v ih =>
      intro b hb
      refine ⟨_, fun a ⟨u, v', ha, hb', hfeeds⟩ => ?_⟩
      rw [position_unique hnodup hb' hb] at hfeeds
      exact ih u hfeeds a ha
  exact ⟨fun b => ⟨_, fun a ⟨u, _, ha, _⟩ => hacc u a ha⟩⟩

/-- Under unique producers, the owner of a tensor that a node produces is its name. -/
theorem tensorOwner_eq {nodes : List NodeProto} (hprod : UniqueProducers nodes) {u : Nat}
    {op : NodeProto} {t : String} (hu : nodes[u]? = some op) (ht : t ∈ op.output) :
    tensorOwner nodes t = some op.name := by
  obtain ⟨a, ha⟩ := Option.isSome_iff_exists.mp
    (tensorOwner_isSome (List.mem_of_getElem? hu) ht)
  obtain ⟨u', op', hu', ht', rfl⟩ := tensorOwner_some ha
  obtain rfl := hprod u' u op' op t hu' hu ht' ht
  rw [ha, Option.some.inj (hu'.symm.trans hu)]

theorem inputsOf_getElem {nodes : List NodeProto} (hnodup : (nodes.map NodeProto.name).Nodup)
    {v : Nat} {op : NodeProto} (hv : nodes[v]? = some op) : inputsOf nodes op.name = op.input := by
  obtain ⟨read, rest, rfl⟩ := List.append_of_mem (List.mem_of_getElem? hv)
  refine inputsOf_eq fun hmem => ?_
  rw [List.map_append, List.map_cons, List.nodup_append] at hnodup
  exact hnodup.2.2 _ hmem _ (by simp) rfl

theorem nameToOp_eq {nodes : List NodeProto} (hnodup : (nodes.map NodeProto.name).Nodup) {i : Nat}
    {a : String} (hi : (nodes.map NodeProto.name)[i]? = some a) : nameToOp nodes a = some i := by
  have hsome : ∃ j, nameToOp nodes a = some j := by
    clear hnodup
    induction nodes using List.reverseRecOn generalizing i with
    | nil => simp at hi
    | append_singleton nodes op ih =>
      rw [nameToOp_append]
      by_cases ha : a = op.name
      · exact ⟨_, if_pos ha⟩
      · rw [if_neg ha]
        have hmem := List.mem_of_getElem? hi
        rw [List.map_append, List.mem_append, List.map_singleton, List.mem_singleton] at hmem
        obtain ⟨j, hj⟩ := List.getElem?_of_mem (hmem.resolve_right ha)
        exact ih hj
  obtain ⟨j, hj⟩ := hsome
  rw [hj, position_unique hnodup (nameToOp_some hj).1 hi]

/-- **The work list**, for distinct names: every name once, and after the names it waits for. -/
theorem workList_ok {nodes : List NodeProto} (hnodup : (nodes.map NodeProto.name).Nodup)
    (hprod : UniqueProducers nodes) (hacyclic : AcyclicFeeds nodes) :
    ∃ order, workList nodes = .ok (order, ()) ∧ order.Perm (nodes.map NodeProto.name) ∧
      ∀ before a rest, order = before ++ a :: rest → ∀ b, NameFeeds nodes b a → b ∈ before := by
  have htally := countNodes_tallied hnodup
  have hincoming := incoming_inputs hnodup htally
  have hstart : Kahn.Counted (nodes.map NodeProto.name)
      (fun v => openInputs (tensorOwner nodes) (inputsOf nodes v))
      ([] ++ (countNodes nodes).node_list) (Kahn.arrivals (countNodes nodes).out_edges [])
      (countNodes nodes).dependents := by
    rw [htally.node_list, funext htally.dependents]
    exact Kahn.counted_start hnodup
  have hord : Kahn.Ordered (countNodes nodes).out_edges
      (fun v => openInputs (tensorOwner nodes) (inputsOf nodes v))
      ([] ++ (countNodes nodes).node_list) := by
    rw [htally.node_list]
    exact Kahn.ordered_start
  have houts : ∀ v ∈ nodes.map NodeProto.name, ∀ w ∈ (countNodes nodes).out_edges v,
      w ∈ nodes.map NodeProto.name := by
    intro v _ w hw
    rw [htally.out_edges] at hw
    obtain ⟨op, hop, hw⟩ := List.mem_flatMap.mp hw
    rw [List.eq_of_mem_replicate hw]
    exact List.mem_map_of_mem hop
  obtain ⟨order, _, hrun, -, hsched⟩ := Kahn.kahn_ok PyError.keyError .endless
    (fun _ _ (_ : True) _ => ⟨(), rfl, trivial⟩) houts (2 * nodes.length) trivial hstart hord
    (by simp; omega)
  -- an owned input comes from a node, and its name from the node it belongs to
  have hfeeds : ∀ v ∈ nodes.map NodeProto.name, ∀ t ∈ inputsOf nodes v,
      (tensorOwner nodes t).isSome →
      ∃ a ∈ nodes.map NodeProto.name, tensorOwner nodes t = some a ∧ NameFeeds nodes a v := by
    intro v hv t ht howned
    obtain ⟨op, hop, rfl⟩ := List.mem_map.mp hv
    obtain ⟨j, hj⟩ := List.getElem?_of_mem hop
    rw [inputsOf_getElem hnodup hj] at ht
    obtain ⟨a, ha⟩ := Option.isSome_iff_exists.mp howned
    obtain ⟨u, op', hu, ht', rfl⟩ := tensorOwner_some ha
    exact ⟨op'.name, List.mem_map_of_mem (List.mem_of_getElem? hu), ha, u, j, by simp [hu],
      by simp [hj], op', op, t, hu, hj, ht', ht⟩
  have hall := hsched.mem_of_wellFounded hincoming (fun _ => rfl)
    (wellFounded_nameFeeds hnodup hacyclic) hfeeds
  refine ⟨order, hrun, ?_, fun before a rest heq b hb => ?_⟩
  · exact (List.perm_ext_iff_of_nodup hsched.nodup hnodup).mpr fun v =>
      ⟨hsched.subset v, hall v⟩
  · obtain ⟨u, v, hu, hv, opu, opv, t, hgu, hgv, htu, htv⟩ := hb
    obtain rfl : opu.name = b := by simpa [hgu] using hu
    obtain rfl : opv.name = a := by simpa [hgv] using hv
    have howner := tensorOwner_eq hprod hgu htu
    obtain ⟨c, hc, hsrc⟩ := hsched.sources hincoming (fun _ => rfl)
      (fun _ t _ c _ hsrc => by simp [hsrc]) heq t (by rw [inputsOf_getElem hnodup hgv]; exact htv)
      (by rw [howner]; rfl)
    rw [howner] at hsrc
    exact Option.some.inj hsrc ▸ hc

/-! ## The whole reordering -/

@[simp] theorem length_nameNodes (model : List NodeProto) :
    (nameNodes model).length = model.length := by
  simp [nameNodes]

theorem getElem?_nameNodes (model : List NodeProto) (i : Nat) :
    (nameNodes model)[i]? = (model[i]?).map fun op => nameNode op i := by
  simp [nameNodes]

/-- Naming a node changes nothing but its name. -/
theorem nameNode_io (op : NodeProto) (i : Nat) :
    (nameNode op i).input = op.input ∧ (nameNode op i).output = op.output := by
  unfold nameNode
  split <;> exact ⟨rfl, rfl⟩

theorem feeds_nameNodes {model : List NodeProto} {u v : Nat} :
    NodeFeeds (nameNodes model) u v ↔ NodeFeeds model u v := by
  unfold NodeFeeds
  simp only [getElem?_nameNodes, Option.map_eq_some_iff]
  constructor
  · rintro ⟨_, _, t, ⟨a, ha, rfl⟩, ⟨b, hb, rfl⟩, hta, htb⟩
    rw [(nameNode_io a u).2] at hta
    rw [(nameNode_io b v).1] at htb
    exact ⟨a, b, t, ha, hb, hta, htb⟩
  · rintro ⟨a, b, t, ha, hb, hta, htb⟩
    refine ⟨_, _, t, ⟨a, ha, rfl⟩, ⟨b, hb, rfl⟩, ?_, ?_⟩
    · rw [(nameNode_io a u).2]
      exact hta
    · rw [(nameNode_io b v).1]
      exact htb

theorem uniqueProducers_nameNodes {model : List NodeProto} (h : UniqueProducers model) :
    UniqueProducers (nameNodes model) := by
  intro u v a b t ha hb hta htb
  rw [getElem?_nameNodes, Option.map_eq_some_iff] at ha hb
  obtain ⟨a, ha, rfl⟩ := ha
  obtain ⟨b, hb, rfl⟩ := hb
  rw [(nameNode_io a u).2] at hta
  rw [(nameNode_io b v).2] at htb
  exact h u v a b t ha hb hta htb

/-- **Sufficiency**: nodes with distinct names are all visited, in the order of their
dependencies. -/
theorem visits_of_nodup {model : List NodeProto} (hprod : UniqueProducers model)
    (hacyclic : AcyclicFeeds model) (hnodup : ((nameNodes model).map NodeProto.name).Nodup) :
    ∃ visited, reorder model = .ok visited ∧ Visits model visited := by
  have hacyclic' : AcyclicFeeds (nameNodes model) := by
    have hsame : NodeFeeds (nameNodes model) = NodeFeeds model := by
      funext u v
      exact propext feeds_nameNodes
    rw [AcyclicFeeds, hsame]
    exact hacyclic
  obtain ⟨order, hrun, hperm, hafter⟩ :=
    workList_ok hnodup (uniqueProducers_nameNodes hprod) hacyclic'
  -- the position of a name
  obtain ⟨pos, hpos⟩ : ∃ pos : String → Nat, ∀ (i : Nat) (a : String),
      ((nameNodes model).map NodeProto.name)[i]? = some a →
        nameToOp (nameNodes model) a = some (pos a) ∧ pos a = i :=
    ⟨fun a => (nameToOp (nameNodes model) a).getD 0, fun i a hi => by
      simp [nameToOp_eq hnodup hi]⟩
  have hlook : ∀ a ∈ order, ((nameNodes model).map NodeProto.name)[pos a]? = some a ∧
      nameToOp (nameNodes model) a = some (pos a) := by
    intro a ha
    obtain ⟨i, hi⟩ := List.getElem?_of_mem (hperm.mem_iff.mp ha)
    rw [(hpos i a hi).2]
    exact ⟨hi, (hpos i a hi).2 ▸ (hpos i a hi).1⟩
  have hlen : order.length = (nameNodes model).length := by rw [hperm.length_eq, List.length_map]
  refine ⟨order.map pos, ?_, ?_, ?_⟩
  · unfold reorder pyAssert
    show (workList (nameNodes model) >>= _) = _
    rw [hrun]
    show ((if order.length = (nameNodes model).length then Except.ok () else _) >>= _) = _
    rw [if_pos hlen]
    show order.mapM _ = _
    refine mapM_eq_ok_map fun a ha => ?_
    rw [(hlook a ha).2]
  · -- the names are at the positions `0, 1, …`
    have hnames : ((nameNodes model).map NodeProto.name).map pos = List.range model.length := by
      refine List.ext_getElem (by simp) fun i h₁ h₂ => ?_
      rw [List.getElem_map, List.getElem_range]
      exact (hpos i _ (List.getElem?_eq_getElem _)).2
    rw [← hnames]
    exact hperm.map pos
  · intro before v rest heq u hfeeds
    obtain ⟨l₁, l₂, rfl, rfl, hl₂⟩ := List.map_eq_append_iff.mp heq
    obtain ⟨a, l₂, rfl, rfl, rfl⟩ := List.map_eq_cons_iff.mp hl₂
    have hu : u < ((nameNodes model).map NodeProto.name).length := by simpa using hfeeds.lt
    have hmem := hafter l₁ a l₂ rfl _ ⟨u, pos a, List.getElem?_eq_getElem hu,
      (hlook a (by simp)).1, feeds_nameNodes.mpr hfeeds⟩
    exact List.mem_map.mpr ⟨_, hmem, (hpos u _ (List.getElem?_eq_getElem hu)).2⟩

/-- **Necessity**: of two nodes with one name the earlier one is never visited. -/
theorem nodup_of_visits {model : List NodeProto} {visited : List Nat}
    (hrun : reorder model = .ok visited) (hvisits : Visits model visited) :
    ((nameNodes model).map NodeProto.name).Nodup := by
  -- a visited node is what its name is looked up at
  have hfound : ∀ i ∈ visited, ∃ a, nameToOp (nameNodes model) a = some i := by
    unfold reorder at hrun
    obtain ⟨⟨order, u⟩, -, hrun⟩ := bind_ok_iff.mp hrun
    obtain ⟨-, -, hrun⟩ := bind_ok_iff.mp hrun
    intro i hi
    obtain ⟨a, -, ha⟩ := ((mapM_ok hrun).1 i).mp hi
    refine ⟨a, ?_⟩
    cases hlook : nameToOp (nameNodes model) a with
    | none => rw [hlook] at ha; cases ha
    | some j => rw [hlook] at ha; rw [Except.ok.inj ha]
  rw [List.nodup_iff_getElem?_ne_getElem?]
  intro i j hij hj heq
  have hi : i ∈ visited := by
    rw [hvisits.once.mem_iff, List.mem_range]
    simp at hj
    omega
  obtain ⟨a, ha⟩ := hfound i hi
  obtain ⟨hai, hlast⟩ := nameToOp_some ha
  exact hlast j hij (heq ▸ hai)

/-- A rank along which the dependencies grow rules out cycles. -/
theorem acyclic_of_rank {nodes : List NodeProto} (rank : Nat → Nat)
    (h : ∀ u v, NodeFeeds nodes u v → rank u < rank v) : AcyclicFeeds nodes := by
  intro v hv
  have hlt : ∀ w, Relation.TransGen (NodeFeeds nodes) v w → rank v < rank w := by
    intro w hw
    induction hw with
    | single hstep => exact h _ _ hstep
    | tail _ hstep ih => exact ih.trans (h _ _ hstep)
  exact lt_irrefl _ (hlt v hv)

-- a convolution listed after the activation that reads it, which has no name
def outOfOrder : List NodeProto :=
  [⟨"Relu", "", ["c"], ["r"]⟩, ⟨"Conv", "conv", ["x", "w"], ["c"]⟩]

-- two nodes without inputs under one name
def namesakes : List NodeProto := [⟨"Constant", "a", [], ["x"]⟩, ⟨"Constant", "a", [], ["y"]⟩]

end Peps
