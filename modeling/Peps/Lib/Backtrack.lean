import Mathlib.Data.List.Induction
import Mathlib.Data.List.Nodup
import Peps.Lib.Outcome

/-!
# Backtracking on one shared state

A search assigns a candidate to each pattern of a list, in order. It keeps the assignment made so
far in one state: `push` records a candidate, and after everything below it has been tried `pop`
takes it back. At each complete assignment `leaf` is called.

Patterns use keys. `push` may set the keys of its pattern, and `pop` clears them all and fails if one
is not set (`Keyed`). Two patterns may share a key, and then the first `pop` also clears it for the
other one. `search_ok_iff` says when such a search succeeds and restores its state: exactly when no
prefix of the patterns that can be assigned uses a key twice, and the tests and leaves themselves
do not fail.
-/

namespace Peps.Lib

variable {ε P A S L K : Type}

structure Moves (ε P A S : Type) where
  test : P → S → A → Except ε Bool
  push : Nat → P → S → A → Except ε S
  pop : Nat → P → S → A → Except ε S

def search (mv : Moves ε P A S) (leaf : S → L → Except ε L) (cands : List A) :
    List P → Nat → S × L → Except ε (S × L)
  | [], _, st => do
      let l ← leaf st.1 st.2
      return (st.1, l)
  | p :: rest, depth, st =>
      cands.foldlM (fun st a => do
        let ok ← mv.test p st.1 a
        if ok then do
          let s ← mv.push depth p st.1 a
          let st ← search mv leaf cands rest (depth + 1) (s, st.2)
          let s ← mv.pop depth p st.1 a
          return (s, st.2)
        else return st) st

namespace Backtrack

variable (mv : Moves ε P A S) (leaf : S → L → Except ε L) (cands : List A)

-- one candidate of the loop
def attempt (p : P) (rest : List P) (depth : Nat) (st : S × L) (a : A) : Except ε (S × L) := do
  let ok ← mv.test p st.1 a
  if ok then do
    let s ← mv.push depth p st.1 a
    let st ← search mv leaf cands rest (depth + 1) (s, st.2)
    let s ← mv.pop depth p st.1 a
    return (s, st.2)
  else return st

variable {mv leaf cands}

theorem search_cons {p : P} {rest : List P} {depth : Nat} {st : S × L} :
    search mv leaf cands (p :: rest) depth st =
      cands.foldlM (attempt mv leaf cands p rest depth) st := rfl

/-- What one candidate does: it is refused, or it is recorded, tried and taken back. -/
theorem attempt_ok_iff {p : P} {rest : List P} {depth : Nat} {st st' : S × L} {a : A} :
    attempt mv leaf cands p rest depth st a = .ok st' ↔
      (mv.test p st.1 a = .ok false ∧ st' = st) ∨
      (mv.test p st.1 a = .ok true ∧ ∃ s1 s2 s3 l, mv.push depth p st.1 a = .ok s1 ∧
        search mv leaf cands rest (depth + 1) (s1, st.2) = .ok (s2, l) ∧
        mv.pop depth p s2 a = .ok s3 ∧ st' = (s3, l)) := by
  simp only [attempt, bind_ok_iff]
  constructor
  · rintro ⟨ok, htest, h⟩
    cases ok with
    | false =>
      cases h
      exact Or.inl ⟨htest, rfl⟩
    | true =>
      simp only [if_true, bind_ok_iff] at h
      obtain ⟨s1, hpush, ⟨s2, l⟩, hsearch, s3, hpop, h⟩ := h
      cases h
      exact Or.inr ⟨htest, s1, s2, s3, l, hpush, hsearch, hpop, rfl⟩
  · rintro (⟨htest, rfl⟩ | ⟨htest, s1, s2, s3, l, hpush, hsearch, hpop, rfl⟩)
    · exact ⟨false, htest, rfl⟩
    · refine ⟨true, htest, ?_⟩
      simp only [if_true, bind_ok_iff]
      exact ⟨s1, hpush, (s2, l), hsearch, s3, hpop, rfl⟩

/-! ## Keys -/

/-- `push` sets keys of its pattern only; `pop` clears the keys of its pattern, which must be set,
and sets none. -/
structure Keyed (mv : Moves ε P A S) (keysOf : P → List K) (missing : K → S → Prop) : Prop where
  push : ∀ {d p s a s' k}, mv.push d p s a = .ok s' → k ∉ keysOf p → missing k s → missing k s'
  pop : ∀ {d p s a s' k}, mv.pop d p s a = .ok s' → missing k s → missing k s'
  own : ∀ {d p s a s' k}, mv.pop d p s a = .ok s' → k ∈ keysOf p → ¬ missing k s ∧ missing k s'
  nodup : ∀ {d p s a s'}, mv.pop d p s a = .ok s' → (keysOf p).Nodup

section Keys

variable {keysOf : P → List K} {missing : K → S → Prop} (hkeyed : Keyed mv keysOf missing)

include hkeyed

theorem attempt_loses {p : P} {rest : List P} {depth : Nat} {st st' : S × L} {a : A} {k : K}
    (hrest : ∀ {depth st st'}, search mv leaf cands rest depth st = .ok st' → missing k st.1 →
      missing k st'.1)
    (h : attempt mv leaf cands p rest depth st a = .ok st') (hk : missing k st.1) :
    missing k st'.1 := by
  rcases attempt_ok_iff.mp h with ⟨-, rfl⟩ | ⟨-, s1, s2, s3, l, hpush, hsearch, hpop, rfl⟩
  · exact hk
  · -- a key of the pattern is cleared by `pop`; another one was never set
    by_cases hown : k ∈ keysOf p
    · exact (hkeyed.own hpop hown).2
    · exact hkeyed.pop hpop (hrest hsearch (hkeyed.push hpush hown hk))

/-- **A search only loses keys**, whatever state it starts from. -/
theorem search_loses {rest : List P} {depth : Nat} {st st' : S × L} {k : K}
    (h : search mv leaf cands rest depth st = .ok st') (hk : missing k st.1) : missing k st'.1 := by
  induction rest generalizing depth st st' with
  | nil =>
    simp only [search, bind_ok_iff] at h
    obtain ⟨l, -, h⟩ := h
    cases h
    exact hk
  | cons p rest ih =>
    exact foldlM_keeps (P := fun st => missing k st.1)
      (fun _ _ _ _ hk h => attempt_loses hkeyed ih h hk) hk h

theorem attempts_lose {p : P} {rest : List P} {depth : Nat} {as : List A} {st st' : S × L} {k : K}
    (h : as.foldlM (attempt mv leaf cands p rest depth) st = .ok st') (hk : missing k st.1) :
    missing k st'.1 :=
  foldlM_keeps (P := fun st => missing k st.1)
    (fun _ _ _ _ hk h => attempt_loses hkeyed (search_loses hkeyed) h hk) hk h

end Keys

/-! ## Assignments -/

/-- The states of the search: `repr as` represents the assignment of `as` to the first patterns, and
the moves at it do what they say. -/
structure Represents (mv : Moves ε P A S) (cands : List A) (pats : List P) (keysOf : P → List K)
    (valid : List A → Prop) (repr : List A → S) : Prop where
  root : valid []
  length : ∀ {as}, valid as → as.length ≤ pats.length
  parent : ∀ {as a}, valid (as ++ [a]) → valid as
  cand : ∀ {as a}, valid (as ++ [a]) → a ∈ cands
  test : ∀ {as p a ok}, valid as → pats[as.length]? = some p → a ∈ cands →
    mv.test p (repr as) a = .ok ok → (ok = true ↔ valid (as ++ [a]))
  push : ∀ {as p a}, valid (as ++ [a]) → pats[as.length]? = some p →
    mv.push as.length p (repr as) a = .ok (repr (as ++ [a]))
  pop : ∀ {as p a}, valid (as ++ [a]) → pats[as.length]? = some p →
    ((pats.take (as.length + 1)).flatMap keysOf).Nodup →
    mv.pop as.length p (repr (as ++ [a])) a = .ok (repr as)

/-- The complete assignments, in the order the search comes to them. -/
def completions (cands : List A) (valid : List A → Prop) [DecidablePred valid] :
    Nat → List A → List (List A)
  | 0, as => [as]
  | n + 1, as => (cands.filter fun a => valid (as ++ [a])).flatMap fun a =>
      completions cands valid n (as ++ [a])

/-- At the assignment `as` no key has been used twice, and the tests do not fail. -/
def Calm (mv : Moves ε P A S) (cands : List A) (pats : List P) (keysOf : P → List K)
    (repr : List A → S) (as : List A) : Prop :=
  ((pats.take as.length).flatMap keysOf).Nodup ∧
    ∀ p, pats[as.length]? = some p → ∀ a ∈ cands, ∃ ok, mv.test p (repr as) a = .ok ok

section Assignments

variable {pats : List P} {keysOf : P → List K} {missing : K → S → Prop} {valid : List A → Prop}
  {repr : List A → S} (hrep : Represents mv cands pats keysOf valid repr)

include hrep

theorem valid_of_append {as bs : List A} (h : valid (as ++ bs)) : valid as := by
  induction bs using List.reverseRecOn with
  | nil => simpa using h
  | append_singleton bs b ih =>
    rw [← List.append_assoc] at h
    exact ih (hrep.parent h)

/-- The assignments that go on from `as` are `as` itself and those that go on from one more
candidate. -/
theorem forall_extension_iff {Q : List A → Prop} {as : List A} (has : valid as) :
    (∀ bs, valid bs → as <+: bs → Q bs) ↔
      Q as ∧ ∀ a, valid (as ++ [a]) → ∀ bs, valid bs → as ++ [a] <+: bs → Q bs := by
  constructor
  · intro h
    exact ⟨h as has (List.prefix_refl as), fun a _ bs hbs hpre =>
      h bs hbs ((List.prefix_append as [a]).trans hpre)⟩
  · rintro ⟨hself, hnext⟩ bs hbs ⟨cs, rfl⟩
    cases cs with
    | nil => rwa [List.append_nil]
    | cons a cs =>
      rw [List.append_cons] at hbs ⊢
      exact hnext a (valid_of_append hrep hbs) _ hbs (List.prefix_append ..)

theorem mem_completions [DecidablePred valid] {n : Nat} {as bs : List A} (has : valid as) :
    bs ∈ completions cands valid n as ↔ valid bs ∧ as <+: bs ∧ bs.length = as.length + n := by
  induction n generalizing as with
  | zero =>
    rw [completions, List.mem_singleton]
    constructor
    · rintro rfl
      exact ⟨has, List.prefix_refl bs, rfl⟩
    · rintro ⟨-, hpre, hlen⟩
      exact (hpre.eq_of_length (by omega)).symm
  | succ n ih =>
    simp only [completions, List.mem_flatMap, List.mem_filter, decide_eq_true_eq]
    constructor
    · rintro ⟨a, ⟨-, hnext⟩, hbs⟩
      obtain ⟨hvalid, hpre, hlen⟩ := (ih hnext).mp hbs
      refine ⟨hvalid, (List.prefix_append as [a]).trans hpre, ?_⟩
      rw [hlen, List.length_append, List.length_singleton]
      omega
    · rintro ⟨hvalid, ⟨cs, rfl⟩, hlen⟩
      cases cs with
      | nil => simp at hlen
      | cons a cs =>
        rw [List.append_cons] at hvalid
        have hnext := valid_of_append hrep hvalid
        refine ⟨a, ⟨hrep.cand hnext, hnext⟩, (ih hnext).mpr ?_⟩
        rw [List.append_cons]
        refine ⟨hvalid, List.prefix_append .., ?_⟩
        simp only [List.length_append, List.length_cons] at hlen ⊢
        omega

/-! ## When the search succeeds -/

omit hrep in
theorem drop_eq_cons {n : Nat} {p : P} {rest : List P} (h : pats.drop n = p :: rest) :
    pats[n]? = some p ∧ pats.drop (n + 1) = rest := by
  have hhead := congrArg List.head? h
  have htail := congrArg List.tail h
  rw [List.head?_drop] at hhead
  rw [List.tail_drop] at htail
  exact ⟨hhead, htail⟩

variable [DecidablePred valid]

-- the leaves of the search, one after the other
def runLeaves (leaf : S → L → Except ε L) (repr : List A → S) (leaves : List (List A)) (l : L) :
    Except ε L :=
  leaves.foldlM (fun l bs => leaf (repr bs) l) l

theorem attempts_restore {p : P} {rest : List P} {as cs : List A} {l l' : L} (has : valid as)
    (hp : pats[as.length]? = some p)
    (htests : ∀ a ∈ cands, ∃ ok, mv.test p (repr as) a = .ok ok)
    (hdeep : ∀ a, valid (as ++ [a]) → ((pats.take (as.length + 1)).flatMap keysOf).Nodup ∧ ∀ l l',
      runLeaves leaf repr (completions cands valid rest.length (as ++ [a])) l = .ok l' →
      search mv leaf cands rest (as.length + 1) (repr (as ++ [a]), l) = .ok (repr (as ++ [a]), l'))
    (hcs : ∀ a ∈ cs, a ∈ cands)
    (hleaves : runLeaves leaf repr ((cs.filter fun a => valid (as ++ [a])).flatMap fun a =>
      completions cands valid rest.length (as ++ [a])) l = .ok l') :
    cs.foldlM (attempt mv leaf cands p rest as.length) (repr as, l) = .ok (repr as, l') := by
  induction cs generalizing l with
  | nil =>
    cases hleaves
    rfl
  | cons a cs ih =>
    have hcand := hcs a (List.mem_cons_self ..)
    have hmore := fun l => ih (l := l) fun b hb => hcs b (List.mem_cons_of_mem _ hb)
    obtain ⟨ok, htest⟩ := htests a hcand
    have hiff := hrep.test has hp hcand htest
    rw [List.foldlM_cons, bind_ok_iff]
    by_cases hvalid : valid (as ++ [a])
    · rw [List.filter_cons_of_pos (by simpa using hvalid), List.flatMap_cons, runLeaves,
        List.foldlM_append, bind_ok_iff] at hleaves
      obtain ⟨mid, hmid, hleaves⟩ := hleaves
      obtain ⟨hnodup, hsearch⟩ := hdeep a hvalid
      refine ⟨(repr as, mid), attempt_ok_iff.mpr (Or.inr ⟨?_, _, _, _, mid, hrep.push hvalid hp,
        hsearch l mid hmid, hrep.pop hvalid hp hnodup, rfl⟩), hmore mid hleaves⟩
      rw [htest, hiff.mpr hvalid]
    · rw [List.filter_cons_of_neg (by simpa using hvalid)] at hleaves
      have hok : ok = false := by
        rw [← Bool.not_eq_true, hiff]
        exact hvalid
      exact ⟨(repr as, l), attempt_ok_iff.mpr (Or.inl ⟨by rw [htest, hok], rfl⟩), hmore l hleaves⟩

/-- Where everything is calm the search visits the leaves and restores its state. -/
theorem search_restores {rest : List P} {as : List A} {l l' : L} (has : valid as)
    (hrest : pats.drop as.length = rest)
    (hcalm : ∀ bs, valid bs → as <+: bs → Calm mv cands pats keysOf repr bs)
    (hleaves : runLeaves leaf repr (completions cands valid rest.length as) l = .ok l') :
    search mv leaf cands rest as.length (repr as, l) = .ok (repr as, l') := by
  induction rest generalizing as l l' with
  | nil =>
    simp only [runLeaves, List.length_nil, completions, List.foldlM_cons, List.foldlM_nil,
      bind_pure] at hleaves
    rw [search, hleaves]
    rfl
  | cons p rest ih =>
    obtain ⟨hp, hdrop⟩ := drop_eq_cons hrest
    obtain ⟨hself, hnext⟩ := (forall_extension_iff hrep has).mp hcalm
    have hlen : ∀ a, (as ++ [a]).length = as.length + 1 := by simp
    rw [search_cons]
    refine attempts_restore hrep has hp (hself.2 p hp) (fun a ha => ⟨?_, fun l l' h => ?_⟩)
      (fun _ h => h) hleaves
    · have hnodup := (hnext a ha _ ha (List.prefix_refl _)).1
      rwa [hlen] at hnodup
    · have hdeep := ih ha (by rw [hlen, hdrop]) (hnext a ha) h
      rwa [hlen] at hdeep

/-- What a search that went through from `as` has left: it lost a key that is in use, or everything
was calm. -/
def Outcome (mv : Moves ε P A S) (leaf : S → L → Except ε L) (cands : List A) (pats : List P)
    (keysOf : P → List K) (missing : K → S → Prop) (valid : List A → Prop) [DecidablePred valid]
    (repr : List A → S) (n : Nat) (as : List A) (l : L) (out : S × L) : Prop :=
  (∃ k ∈ (pats.take as.length).flatMap keysOf, missing k out.1) ∨
    (out.1 = repr as ∧ (∀ bs, valid bs → as <+: bs → Calm mv cands pats keysOf repr bs) ∧
      runLeaves leaf repr (completions cands valid n as) l = .ok out.2)

variable (hkeyed : Keyed mv keysOf missing)

include hkeyed

theorem attempt_sound {p : P} {rest : List P} {as : List A} {a : A} {l : L} {st : S × L}
    (has : valid as) (hp : pats[as.length]? = some p) (ha : a ∈ cands)
    (hnodup : ((pats.take as.length).flatMap keysOf).Nodup)
    (hdeep : valid (as ++ [a]) → ((pats.take (as.length + 1)).flatMap keysOf).Nodup → ∀ st,
      search mv leaf cands rest (as.length + 1) (repr (as ++ [a]), l) = .ok st →
      Outcome mv leaf cands pats keysOf missing valid repr rest.length (as ++ [a]) l st)
    (h : attempt mv leaf cands p rest as.length (repr as, l) a = .ok st) :
    (∃ k ∈ (pats.take as.length).flatMap keysOf, missing k st.1) ∨
      st.1 = repr as ∧ (∃ ok, mv.test p (repr as) a = .ok ok) ∧
      ((¬ valid (as ++ [a]) ∧ st.2 = l) ∨
        (valid (as ++ [a]) ∧
          (∀ bs, valid bs → as ++ [a] <+: bs → Calm mv cands pats keysOf repr bs) ∧
          runLeaves leaf repr (completions cands valid rest.length (as ++ [a])) l = .ok st.2)) := by
  rcases attempt_ok_iff.mp h with ⟨htest, rfl⟩ | ⟨htest, s1, s2, s3, l', hpush, hsearch, hpop, rfl⟩
  · refine Or.inr ⟨rfl, ⟨false, htest⟩, Or.inl ⟨fun hvalid => ?_, rfl⟩⟩
    exact absurd ((hrep.test has hp ha htest).mpr hvalid) Bool.false_ne_true
  have hvalid : valid (as ++ [a]) := (hrep.test has hp ha htest).mp rfl
  rw [hrep.push hvalid hp] at hpush
  cases hpush
  have htake : (pats.take (as.length + 1)).flatMap keysOf =
      (pats.take as.length).flatMap keysOf ++ keysOf p := by
    rw [List.take_add_one, hp, List.flatMap_append]
    simp
  by_cases hfresh : ((pats.take (as.length + 1)).flatMap keysOf).Nodup
  · rcases hdeep hvalid hfresh _ hsearch with ⟨k, hk, hmissing⟩ | ⟨heq, hcalm, hleaves⟩
    · -- a lost key is not one of the pattern, whose keys were there to be taken back
      rw [show (as ++ [a]).length = as.length + 1 by simp, htake, List.mem_append] at hk
      rcases hk with hk | hk
      · exact Or.inl ⟨k, hk, hkeyed.pop hpop hmissing⟩
      · exact absurd hmissing (hkeyed.own hpop hk).1
    · rw [show s2 = repr (as ++ [a]) from heq, hrep.pop hvalid hp hfresh] at hpop
      cases hpop
      exact Or.inr ⟨rfl, ⟨true, htest⟩, Or.inr ⟨hvalid, hcalm, hleaves⟩⟩
  · -- the pattern shares a key with an earlier one, which has lost it now
    rw [htake, List.nodup_append'] at hfresh
    have hshared : ¬ ((pats.take as.length).flatMap keysOf).Disjoint (keysOf p) :=
      fun hd => hfresh ⟨hnodup, hkeyed.nodup hpop, hd⟩
    obtain ⟨k, hk, hown⟩ : ∃ k ∈ (pats.take as.length).flatMap keysOf, k ∈ keysOf p := by
      by_contra hne
      exact hshared fun k hk hown => hne ⟨k, hk, hown⟩
    exact Or.inl ⟨k, hk, (hkeyed.own hpop hown).2⟩

theorem attempts_sound {p : P} {rest : List P} {as cs : List A} {l : L} {st : S × L}
    (has : valid as) (hp : pats[as.length]? = some p) (hcs : ∀ a ∈ cs, a ∈ cands)
    (hnodup : ((pats.take as.length).flatMap keysOf).Nodup)
    (hdeep : ∀ a l, valid (as ++ [a]) → ((pats.take (as.length + 1)).flatMap keysOf).Nodup → ∀ st,
      search mv leaf cands rest (as.length + 1) (repr (as ++ [a]), l) = .ok st →
      Outcome mv leaf cands pats keysOf missing valid repr rest.length (as ++ [a]) l st)
    (h : cs.foldlM (attempt mv leaf cands p rest as.length) (repr as, l) = .ok st) :
    (∃ k ∈ (pats.take as.length).flatMap keysOf, missing k st.1) ∨
      st.1 = repr as ∧
      (∀ a ∈ cs, (∃ ok, mv.test p (repr as) a = .ok ok) ∧ (valid (as ++ [a]) →
        ∀ bs, valid bs → as ++ [a] <+: bs → Calm mv cands pats keysOf repr bs)) ∧
      runLeaves leaf repr ((cs.filter fun a => valid (as ++ [a])).flatMap fun a =>
        completions cands valid rest.length (as ++ [a])) l = .ok st.2 := by
  induction cs generalizing l with
  | nil =>
    cases h
    exact Or.inr ⟨rfl, fun a ha => (by cases ha), rfl⟩
  | cons a cs ih =>
    rw [List.foldlM_cons, bind_ok_iff] at h
    obtain ⟨⟨s1, l1⟩, hfirst, h⟩ := h
    have hcand := hcs a (List.mem_cons_self ..)
    rcases attempt_sound hrep hkeyed has hp hcand hnodup (hdeep a l) hfirst with
      ⟨k, hk, hmissing⟩ | ⟨heq, htest, hrest⟩
    · exact Or.inl ⟨k, hk, attempts_lose hkeyed h hmissing⟩
    · replace heq : s1 = repr as := heq
      subst heq
      refine (ih (fun b hb => hcs b (List.mem_cons_of_mem _ hb)) h).imp_right ?_
      rintro ⟨heq, hall, hleaves⟩
      refine ⟨heq, fun b hb => ?_, ?_⟩
      · rcases List.mem_cons.mp hb with rfl | hb
        · exact ⟨htest, fun hvalid => (hrest.resolve_left fun hno => hno.1 hvalid).2.1⟩
        · exact hall b hb
      · rcases hrest with ⟨hvalid, hl⟩ | ⟨hvalid, -, hl⟩
        · replace hl : l1 = l := hl
          rw [List.filter_cons_of_neg (by simpa using hvalid), ← hl]
          exact hleaves
        · rw [List.filter_cons_of_pos (by simpa using hvalid), List.flatMap_cons, runLeaves,
            List.foldlM_append, bind_ok_iff]
          exact ⟨l1, hl, hleaves⟩

theorem search_sound {rest : List P} {as : List A} {l : L} {st : S × L} (has : valid as)
    (hrest : pats.drop as.length = rest)
    (hnodup : ((pats.take as.length).flatMap keysOf).Nodup)
    (h : search mv leaf cands rest as.length (repr as, l) = .ok st) :
    Outcome mv leaf cands pats keysOf missing valid repr rest.length as l st := by
  induction rest generalizing as l st with
  | nil =>
    simp only [search, bind_ok_iff] at h
    obtain ⟨l', hleaf, h⟩ := h
    cases h
    have hend : pats.length ≤ as.length := List.drop_eq_nil_iff.mp hrest
    refine Or.inr ⟨rfl, (forall_extension_iff hrep has).mpr
      ⟨⟨hnodup, fun p hp => ?_⟩, fun a ha => ?_⟩, ?_⟩
    · have hlt := (List.getElem?_eq_some_iff.mp hp).1
      omega
    · have hlen := hrep.length ha
      rw [List.length_append, List.length_singleton] at hlen
      omega
    · simp only [runLeaves, List.length_nil, completions, List.foldlM_cons, List.foldlM_nil,
        bind_pure]
      exact hleaf
  | cons p rest ih =>
    obtain ⟨hp, hdrop⟩ := drop_eq_cons hrest
    have hlen : ∀ a, (as ++ [a]).length = as.length + 1 := by simp
    rw [search_cons] at h
    have hloop := attempts_sound hrep hkeyed has hp (fun _ h => h) hnodup
      (fun a l ha hnodup st h => ih ha (by rw [hlen, hdrop]) (by rwa [hlen]) (by rwa [hlen])) h
    refine hloop.imp_right fun ⟨heq, hall, hleaves⟩ => ⟨heq, ?_, hleaves⟩
    refine (forall_extension_iff hrep has).mpr ⟨⟨hnodup, fun q hq a ha => ?_⟩, fun a ha => ?_⟩
    · rw [hp] at hq
      cases hq
      exact (hall a ha).1
    · exact (hall a (hrep.cand ha)).2 ha

/-- **A search succeeds** exactly when no prefix of the patterns that can be assigned uses a key
twice, no test fails on the way, and no leaf does; it then restores its state. -/
theorem search_ok_iff {l : L} {st : S × L} :
    search mv leaf cands pats 0 (repr [], l) = .ok st ↔
      st.1 = repr [] ∧ (∀ bs, valid bs → Calm mv cands pats keysOf repr bs) ∧
      runLeaves leaf repr (completions cands valid pats.length []) l = .ok st.2 := by
  constructor
  · intro h
    rcases search_sound hrep hkeyed hrep.root rfl List.nodup_nil h with
      ⟨k, hk, -⟩ | ⟨heq, hcalm, hleaves⟩
    · cases hk
    · exact ⟨heq, fun bs hbs => hcalm bs hbs (List.nil_prefix), hleaves⟩
  · rintro ⟨heq, hcalm, hleaves⟩
    have h := search_restores hrep hrep.root rfl (fun bs hbs _ => hcalm bs hbs) hleaves
    rw [show st = (repr [], st.2) by rw [← heq]]
    exact h

end Assignments

end Backtrack

end Peps.Lib
