import Mathlib.Data.List.Basic
import Mathlib.Data.List.Induction
import Mathlib.Data.List.Nodup
import Mathlib.Data.List.Pairwise

/-!
# What a least-recently-used cache does

A cache for `cap` names keeps its content as a list, most recent first. What it should do is said
over its history, without that list: `held` is the entry last put under a name unless the name has
been evicted since, `MoreRecent` compares the last uses of two names, and `Explained` says of one
event that a `get` returned what is held and that a `put` evicted a name exactly when it had to,
and then the least recently used one. `run_valid` and `run_explained` show that the list does this.
-/

namespace Peps.Lib.Lru

inductive Call (K V : Type) where
  | put (name : K) (entry : V)
  | get (name : K)

def Call.name {K V : Type} : Call K V → K
  | .put name _ => name
  | .get name => name

/-- A call with what it returned and the name it evicted. -/
structure Event (K V : Type) where
  call : Call K V
  reply : Option V
  evicted : Option K

variable {K V : Type} [DecidableEq K]

/-! ## The list -/

def lookup (l : List (K × V)) (k : K) : Option V := (l.find? fun x => x.1 = k).map Prod.snd

def moveToFront (l : List (K × V)) (k : K) (v : V) : List (K × V) :=
  (k, v) :: l.filter fun x => x.1 ≠ k

def put (cap : Nat) (l : List (K × V)) (k : K) (v : V) : List (K × V) × Option K :=
  if k ∈ l.map Prod.fst then (moveToFront l k v, none)
  else if cap ≤ l.length then ((k, v) :: l.dropLast, l.getLast?.map Prod.fst)
  else ((k, v) :: l, none)

def get (l : List (K × V)) (k : K) : List (K × V) × Option V :=
  match lookup l k with
  | some v => (moveToFront l k v, some v)
  | none => (l, none)

def step (cap : Nat) (l : List (K × V)) : Call K V → List (K × V) × Event K V
  | .put k v => ((put cap l k v).1, ⟨.put k v, none, (put cap l k v).2⟩)
  | .get k => ((get l k).1, ⟨.get k, (get l k).2, none⟩)

/-- The list and the history after the calls. -/
def run (cap : Nat) (calls : List (Call K V)) : List (K × V) × List (Event K V) :=
  calls.foldl (fun s call => ((step cap s.1 call).1, s.2 ++ [(step cap s.1 call).2])) ([], [])

theorem run_append_singleton (cap : Nat) (calls : List (Call K V)) (call : Call K V) :
    run cap (calls ++ [call]) = ((step cap (run cap calls).1 call).1,
      (run cap calls).2 ++ [(step cap (run cap calls).1 call).2]) := by
  rw [run, List.foldl_append]
  rfl

/-! ## The history -/

/-- What is held under `k`: the entry last put, unless `k` has been evicted since. -/
def heldAfter (k : K) (before : Option V) (e : Event K V) : Option V :=
  match e.call with
  | .put k' v => if k' = k then some v else if e.evicted = some k then none else before
  | .get _ => before

def held (events : List (Event K V)) (k : K) : Option V := events.foldl (heldAfter k) none

/-- A put uses its name, a get the name it finds. -/
def Event.uses (e : Event K V) : List K :=
  match e.call with
  | .put k _ => [k]
  | .get k => if e.reply.isSome then [k] else []

def used (events : List (Event K V)) : List K := events.flatMap Event.uses

/-- `a` was used after the last use of `b`. -/
def MoreRecent (uses : List K) (a b : K) : Prop :=
  ∃ before after, uses = before ++ b :: after ∧ b ∉ after ∧ a ∈ after

/-- As many names are held as there is room for. -/
def Full (cap : Nat) (events : List (Event K V)) : Prop :=
  ∃ names : List K, names.Nodup ∧ names.length = cap ∧ ∀ k, k ∈ names ↔ (held events k).isSome

/-- Of the names that are held, `k` has the earliest last use. -/
def LeastRecent (events : List (Event K V)) (k : K) : Prop :=
  (held events k).isSome ∧
    ∀ k', (held events k').isSome → k' ≠ k → MoreRecent (used events) k' k

/-- What an event after the history `before` has to be. -/
def Explained (cap : Nat) (before : List (Event K V)) (e : Event K V) : Prop :=
  match e.call with
  | .get k => e.reply = held before k ∧ e.evicted = none
  | .put k _ => e.reply = none ∧
      match e.evicted with
      | none => (held before k).isSome ∨ ¬ Full cap before
      | some m => held before k = none ∧ Full cap before ∧ LeastRecent before m

theorem held_append_singleton (events : List (Event K V)) (e : Event K V) (k : K) :
    held (events ++ [e]) k = heldAfter k (held events k) e := by
  rw [held, List.foldl_append]
  rfl

omit [DecidableEq K] in
theorem used_append_singleton (events : List (Event K V)) (e : Event K V) :
    used (events ++ [e]) = used events ++ e.uses := by
  simp [used]

/-! ## The list against the history -/

/-- The list holds what the history says, in the order of the last uses. -/
structure Valid (cap : Nat) (l : List (K × V)) (events : List (Event K V)) : Prop where
  nodup : (l.map Prod.fst).Nodup
  size : l.length ≤ cap
  lookup_eq : ∀ k, lookup l k = held events k
  used_mem : ∀ k ∈ l.map Prod.fst, k ∈ used events
  recent : (l.map Prod.fst).Pairwise (MoreRecent (used events))

theorem lookup_cons (x : K × V) (l : List (K × V)) (k : K) :
    lookup (x :: l) k = if x.1 = k then some x.2 else lookup l k := by
  unfold lookup
  rw [List.find?_cons]
  by_cases h : x.1 = k <;> simp [h]

theorem lookup_isSome {l : List (K × V)} {k : K} :
    (lookup l k).isSome ↔ k ∈ l.map Prod.fst := by
  induction l with
  | nil => simp [lookup]
  | cons x l ih =>
    rw [lookup_cons]
    by_cases h : x.1 = k
    · simp [h]
    · rw [if_neg h, ih, List.map_cons, List.mem_cons]
      exact ⟨.inr, fun hk => hk.resolve_left fun hk' => h hk'.symm⟩

theorem lookup_eq_none {l : List (K × V)} {k : K} : lookup l k = none ↔ k ∉ l.map Prod.fst := by
  rw [← lookup_isSome, Bool.not_eq_true, Option.isSome_eq_false_iff, Option.isNone_iff_eq_none]

theorem lookup_filter {l : List (K × V)} {k k' : K} (h : k' ≠ k) :
    lookup (l.filter fun x => x.1 ≠ k) k' = lookup l k' := by
  induction l with
  | nil => rfl
  | cons x l ih =>
    by_cases hx : x.1 = k
    · have hne : ¬ x.1 = k' := fun h' => h (h'.symm.trans hx)
      rw [List.filter_cons, if_neg (by simpa using hx), ih, lookup_cons, if_neg hne]
    · rw [List.filter_cons, if_pos (by simpa using hx), lookup_cons, lookup_cons, ih]

theorem lookup_split {l₁ l₂ : List (K × V)} {k : K} {v : V}
    (hnodup : ((l₁ ++ (k, v) :: l₂).map Prod.fst).Nodup) :
    lookup (l₁ ++ (k, v) :: l₂) k = some v := by
  rw [List.map_append, List.map_cons, List.nodup_append] at hnodup
  unfold lookup
  rw [List.find?_append, List.find?_eq_none.mpr, Option.none_or, List.find?_cons]
  · simp
  · intro x hx hxk
    exact hnodup.2.2 x.1 (List.mem_map_of_mem hx) k (by simp) (by simpa using hxk)

/-- Without its last cell the list no longer holds the name of that cell, and all else. -/
theorem lookup_init {l : List (K × V)} {x : K × V} (hx : x.1 ∉ l.map Prod.fst) (k : K) :
    lookup l k = if x.1 = k then none else lookup (l ++ [x]) k := by
  split
  · next h => exact lookup_eq_none.mpr (h ▸ hx)
  · next h =>
    unfold lookup
    rw [List.find?_append, List.find?_singleton, if_neg (by simpa using h), Option.or_none]

omit [DecidableEq K] in
theorem MoreRecent.append {uses : List K} {a b k : K} (h : MoreRecent uses a b) (hne : b ≠ k) :
    MoreRecent (uses ++ [k]) a b := by
  obtain ⟨before, after, rfl, hb, ha⟩ := h
  refine ⟨before, after ++ [k], by simp, ?_, by simp [ha]⟩
  simp [hb, hne]

omit [DecidableEq K] in
/-- The name used last is more recent than every other. -/
theorem moreRecent_last {uses : List K} {b k : K} (hb : b ∈ uses) (hne : b ≠ k) :
    MoreRecent (uses ++ [k]) k b := by
  -- the last occurrence is the first one from behind
  obtain ⟨after, before, hsplit, hlast⟩ := List.eq_append_cons_of_mem (List.mem_reverse.mpr hb)
  have huses : uses = before.reverse ++ b :: after.reverse := by
    rw [← List.reverse_reverse uses, hsplit]
    simp
  exact ⟨before.reverse, after.reverse ++ [k], by simp [huses], by simp [hlast, hne], by simp⟩

omit [DecidableEq K] in
/-- **A use** puts its name in front of the others. -/
theorem recent_front {uses names rest : List K} {k : K}
    (hrecent : names.Pairwise (MoreRecent uses)) (hused : ∀ b ∈ names, b ∈ uses)
    (hrest : rest.Sublist names) (hk : k ∉ rest) :
    (∀ b ∈ k :: rest, b ∈ uses ++ [k]) ∧ (k :: rest).Pairwise (MoreRecent (uses ++ [k])) := by
  have hne : ∀ b ∈ rest, b ≠ k := fun b hb h => hk (h ▸ hb)
  refine ⟨fun b hb => ?_, List.pairwise_cons.mpr ⟨fun b hb => ?_, ?_⟩⟩
  · rcases List.mem_cons.mp hb with rfl | hb
    · simp
    · exact List.mem_append_left _ (hused b (hrest.mem hb))
  · exact moreRecent_last (hused b (hrest.mem hb)) (hne b hb)
  · refine (hrecent.sublist hrest).imp_of_mem fun {a b} _ hb h => h.append (hne b hb)

/-! ## One step, and a run -/

theorem map_fst_moveToFront (l : List (K × V)) (k : K) (v : V) :
    (moveToFront l k v).map Prod.fst = k :: (l.map Prod.fst).filter fun k' => k' ≠ k := by
  rw [moveToFront, List.map_cons, List.filter_map]
  rfl

/-- Where the names are distinct, the old cell is the only one that goes. -/
theorem moveToFront_split {l₁ l₂ : List (K × V)} {k : K} {v₀ : V}
    (hnodup : ((l₁ ++ (k, v₀) :: l₂).map Prod.fst).Nodup) (v : V) :
    moveToFront (l₁ ++ (k, v₀) :: l₂) k v = (k, v) :: (l₁ ++ l₂) := by
  rw [List.map_append, List.map_cons, List.nodup_append, List.nodup_cons] at hnodup
  obtain ⟨-, ⟨hk₂, -⟩, hdisj⟩ := hnodup
  have h₁ : ∀ x ∈ l₁, x.1 ≠ k := fun x hx hxk =>
    hdisj x.1 (List.mem_map_of_mem hx) k (by simp) hxk
  have h₂ : ∀ x ∈ l₂, x.1 ≠ k := fun x hx hxk => hk₂ (List.mem_map.mpr ⟨x, hx, hxk⟩)
  rw [moveToFront, List.filter_append, List.filter_cons, if_neg (by simp),
    List.filter_eq_self.mpr (by simpa using h₁), List.filter_eq_self.mpr (by simpa using h₂)]

theorem length_moveToFront_le {l : List (K × V)} {k : K} (v : V) (hk : k ∈ l.map Prod.fst) :
    (moveToFront l k v).length ≤ l.length := by
  obtain ⟨x, hx, rfl⟩ := List.mem_map.mp hk
  exact List.length_filter_lt_length_iff_exists.mpr ⟨x, hx, by simp⟩

/-- A list with `k` in front of some of its other cells is valid again, if it holds what it
should. -/
theorem Valid.front {cap : Nat} {l l' : List (K × V)} {events : List (Event K V)} {e : Event K V}
    {k : K} (h : Valid cap l events) (rest : List K) (hkeys : l'.map Prod.fst = k :: rest)
    (hrest : rest.Sublist (l.map Prod.fst)) (hk : k ∉ rest) (huses : e.uses = [k])
    (hsize : l'.length ≤ cap) (hlookup : ∀ k', lookup l' k' = heldAfter k' (held events k') e) :
    Valid cap l' (events ++ [e]) := by
  have hrecent := recent_front h.recent h.used_mem hrest hk
  refine ⟨?_, hsize, fun k' => ?_, ?_, ?_⟩
  · rw [hkeys]
    exact List.nodup_cons.mpr ⟨hk, h.nodup.sublist hrest⟩
  · rw [held_append_singleton]
    exact hlookup k'
  · rw [hkeys, used_append_singleton, huses]
    exact hrecent.1
  · rw [hkeys, used_append_singleton, huses]
    exact hrecent.2

theorem Valid.moveToFront {cap : Nat} {l : List (K × V)} {events : List (Event K V)}
    {e : Event K V} {k : K} {v : V} (h : Valid cap l events) (hk : k ∈ l.map Prod.fst)
    (huses : e.uses = [k]) (hheld : ∀ k', heldAfter k' (held events k') e =
      if k = k' then some v else held events k') :
    Valid cap (moveToFront l k v) (events ++ [e]) := by
  refine h.front _ (map_fst_moveToFront l k v) List.filter_sublist (by simp) huses
    (Nat.le_trans (length_moveToFront_le v hk) h.size) fun k' => ?_
  rw [Lru.moveToFront, lookup_cons, hheld]
  split
  · rfl
  · next hne => rw [lookup_filter fun heq => hne heq.symm, h.lookup_eq]

/-- **A put** keeps the list valid. -/
theorem Valid.put {cap : Nat} {l : List (K × V)} {events : List (Event K V)} (hcap : 1 ≤ cap)
    (h : Valid cap l events) (k : K) (v : V) :
    Valid cap (put cap l k v).1 (events ++ [⟨.put k v, none, (put cap l k v).2⟩]) := by
  unfold Lru.put
  split
  · next hk => exact h.moveToFront hk rfl fun k' => by simp [heldAfter]
  next hk =>
  split
  · -- the last cell goes
    next hfull =>
    cases l using List.reverseRecOn with
    | nil => simp at hfull; omega
    | append_singleton l x =>
      have hnodup := h.nodup
      rw [List.map_append, List.map_singleton, List.nodup_append] at hnodup
      have hx : x.1 ∉ l.map Prod.fst := fun hx => hnodup.2.2 _ hx _ (by simp) rfl
      have hkx : x.1 ≠ k := fun heq => hk (by simp [heq])
      refine h.front (k := k) (l.map Prod.fst) (by simp) (by simp)
        (fun hmem => hk (by simp [hmem])) rfl (by simpa using h.size) fun k' => ?_
      simp only [heldAfter, List.dropLast_concat, List.getLast?_concat, Option.map_some,
        Option.some.injEq, lookup_cons]
      split
      · rfl
      · rw [lookup_init hx, h.lookup_eq]
  · next hroom =>
    refine h.front (k := k) (l.map Prod.fst) rfl (List.Sublist.refl _) hk rfl
      (by simp; omega) fun k' => ?_
    rw [lookup_cons, h.lookup_eq]
    simp [heldAfter]

/-- **A get** keeps the list valid. -/
theorem Valid.get {cap : Nat} {l : List (K × V)} {events : List (Event K V)}
    (h : Valid cap l events) (k : K) :
    Valid cap (get l k).1 (events ++ [⟨.get k, (get l k).2, none⟩]) := by
  unfold Lru.get
  cases hlook : lookup l k with
  | some v =>
    have hk : k ∈ l.map Prod.fst := lookup_isSome.mp (by rw [hlook]; rfl)
    refine h.moveToFront hk rfl fun k' => ?_
    show held events k' = _
    split
    · next heq => rw [← heq, ← h.lookup_eq, hlook]
    · rfl
  | none =>
    have huses : used (events ++ [⟨.get k, none, none⟩]) = used events := by
      rw [used_append_singleton]
      exact List.append_nil _
    refine ⟨h.nodup, h.size, fun k' => ?_, by rw [huses]; exact h.used_mem,
      by rw [huses]; exact h.recent⟩
    rw [held_append_singleton]
    exact h.lookup_eq k'

theorem Valid.full_iff {cap : Nat} {l : List (K × V)} {events : List (Event K V)}
    (h : Valid cap l events) : Full cap events ↔ cap ≤ l.length := by
  have hmem : ∀ k, k ∈ l.map Prod.fst ↔ (held events k).isSome := fun k => by
    rw [← h.lookup_eq, lookup_isSome]
  constructor
  · rintro ⟨names, hnodup, hlen, hnames⟩
    have hperm : names.Perm (l.map Prod.fst) :=
      (List.perm_ext_iff_of_nodup hnodup h.nodup).mpr fun k => by rw [hnames, hmem]
    have hlen' := hperm.length_eq
    rw [List.length_map] at hlen'
    omega
  · intro hle
    exact ⟨l.map Prod.fst, h.nodup, by have := h.size; simp; omega, hmem⟩

/-- **Each step is explained** by the history before it. -/
theorem Valid.explained {cap : Nat} {l : List (K × V)} {events : List (Event K V)} (hcap : 1 ≤ cap)
    (h : Valid cap l events) (call : Call K V) : Explained cap events (step cap l call).2 := by
  cases call with
  | get k =>
    refine ⟨?_, rfl⟩
    show (Lru.get l k).2 = _
    rw [← h.lookup_eq, Lru.get]
    cases lookup l k <;> rfl
  | put k v =>
    refine ⟨rfl, ?_⟩
    by_cases hk : k ∈ l.map Prod.fst
    · have hput : (Lru.put cap l k v).2 = none := by rw [Lru.put, if_pos hk]
      simp only [step, hput]
      exact .inl (by rw [← h.lookup_eq]; exact lookup_isSome.mpr hk)
    by_cases hfull : cap ≤ l.length
    · have hput : (Lru.put cap l k v).2 = l.getLast?.map Prod.fst := by
        rw [Lru.put, if_neg hk, if_pos hfull]
      simp only [step, hput]
      cases l using List.reverseRecOn with
      | nil => simp at hfull; omega
      | append_singleton l x =>
        simp only [List.getLast?_concat, Option.map_some]
        refine ⟨by rw [← h.lookup_eq]; exact lookup_eq_none.mpr hk, h.full_iff.mpr hfull, ?_,
          fun k' hk' hne => ?_⟩
        · rw [← h.lookup_eq, lookup_isSome]
          simp
        · rw [← h.lookup_eq, lookup_isSome, List.map_append, List.mem_append] at hk'
          have hrecent := h.recent
          rw [List.map_append, List.pairwise_append] at hrecent
          exact hrecent.2.2 k' (hk'.resolve_right (by simpa using hne)) x.1 (by simp)
    · have hput : (Lru.put cap l k v).2 = none := by rw [Lru.put, if_neg hk, if_neg hfull]
      simp only [step, hput]
      exact .inr fun h' => hfull (h.full_iff.mp h')

/-- **A run**: the list holds what the history says. -/
theorem run_valid {cap : Nat} (hcap : 1 ≤ cap) (calls : List (Call K V)) :
    Valid cap (run cap calls).1 (run cap calls).2 := by
  induction calls using List.reverseRecOn with
  | nil =>
    exact ⟨List.nodup_nil, Nat.zero_le _, fun _ => rfl, fun _ hk => absurd hk List.not_mem_nil,
      List.Pairwise.nil⟩
  | append_singleton calls call ih =>
    rw [run_append_singleton]
    cases call with
    | put k v => exact ih.put hcap k v
    | get k => exact ih.get k

/-- **A run**: every event is what the history before it asks for. -/
theorem run_explained {cap : Nat} (hcap : 1 ≤ cap) (calls : List (Call K V))
    {before after : List (Event K V)} {e : Event K V}
    (hsplit : (run cap calls).2 = before ++ e :: after) : Explained cap before e := by
  induction calls using List.reverseRecOn generalizing after with
  | nil => simp [run] at hsplit
  | append_singleton calls call ih =>
    rw [run_append_singleton] at hsplit
    cases after using List.reverseRecOn with
    | nil =>
      obtain ⟨hbefore, he⟩ := List.append_inj' hsplit rfl
      rw [← hbefore, ← List.singleton_inj.mp he]
      exact (run_valid hcap calls).explained hcap call
    | append_singleton after e' =>
      rw [← List.cons_append, ← List.append_assoc] at hsplit
      exact ih (List.append_inj' hsplit rfl).1

end Peps.Lib.Lru
