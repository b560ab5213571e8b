import Mathlib.Data.Finset.Card
import Mathlib.Data.Finset.Range
import Mathlib.Logic.Function.Basic
import Mathlib.Data.List.Basic
import Mathlib.Data.List.Induction
import Mathlib.Data.List.Nodup
import Mathlib.Order.Basic

/-!
# Doubly linked lists in a heap

A heap of list cells, each with a value and the addresses of its neighbours, and what it means
for a run of cells to be linked in both directions (`Chain`). A chain is described by the addresses
and values of its cells in order, together with the pointers its two ends have to the outside; so
chains compose (`chain_append`), and cutting, joining and extending a list is a statement about
the pointers at the ends: `relinkNext` and `relinkPrev` change one of them, if there is a cell
to change it in.

Reading or writing through an address that holds no cell has no result (`none`).
-/

namespace Peps.Lib

abbrev Addr := Nat

structure Node (β : Type) where
  val : β
  prev : Option Addr
  next : Option Addr

/-- Cells below the address `top`. -/
structure Heap (β : Type) where
  cell : Addr → Option (Node β)
  top : Nat
  htop : ∀ a, top ≤ a → cell a = none

namespace Heap

variable {β : Type}

def empty : Heap β where
  cell := fun _ => none
  top := 0
  htop := fun _ _ => rfl

def write (h : Heap β) (a : Addr) (n : Node β) : Heap β where
  cell := Function.update h.cell a (some n)
  top := max h.top (a + 1)
  htop := fun b hb => by
    have hne : b ≠ a := fun hab => by
      rw [hab] at hb
      exact Nat.not_succ_le_self a (Nat.le_trans (Nat.le_max_right ..) hb)
    rw [Function.update_of_ne hne]
    exact h.htop b (Nat.le_trans (Nat.le_max_left ..) hb)

def free (h : Heap β) (a : Addr) : Heap β where
  cell := Function.update h.cell a none
  top := h.top
  htop := fun b hb => by
    by_cases hab : b = a
    · rw [hab, Function.update_self]
    · rw [Function.update_of_ne hab]
      exact h.htop b hb

/-- Change the cell at `a`. -/
def modify (h : Heap β) (a : Addr) (f : Node β → Node β) : Option (Heap β) :=
  (h.cell a).map fun n => h.write a (f n)

/-- `if (p) p->next = q;` -/
def relinkNext (h : Heap β) (p q : Option Addr) : Option (Heap β) :=
  match p with
  | none => some h
  | some a => h.modify a fun n => { n with next := q }

/-- `if (q) q->prev = p;` -/
def relinkPrev (h : Heap β) (q p : Option Addr) : Option (Heap β) :=
  match q with
  | none => some h
  | some a => h.modify a fun n => { n with prev := p }

theorem cell_write (h : Heap β) (a : Addr) (n : Node β) (b : Addr) :
    (h.write a n).cell b = if b = a then some n else h.cell b :=
  Function.update_apply ..

theorem cell_free (h : Heap β) (a b : Addr) :
    (h.free a).cell b = if b = a then none else h.cell b :=
  Function.update_apply ..

theorem cell_write_of_ne (h : Heap β) {a b : Addr} (n : Node β) (hne : b ≠ a) :
    (h.write a n).cell b = h.cell b := by
  rw [cell_write, if_neg hne]

theorem modify_eq {h : Heap β} {a : Addr} {n : Node β} (hcell : h.cell a = some n)
    (f : Node β → Node β) : h.modify a f = some (h.write a (f n)) := by
  rw [modify, hcell]
  rfl

/-- The addresses that hold a cell. -/
def allocated (h : Heap β) : Finset Addr := (Finset.range h.top).filter fun a => (h.cell a).isSome

@[simp] theorem mem_allocated {h : Heap β} {a : Addr} : a ∈ h.allocated ↔ (h.cell a).isSome := by
  rw [allocated, Finset.mem_filter, Finset.mem_range]
  refine ⟨And.right, fun hcell => ⟨Nat.lt_of_not_le fun hle => ?_, hcell⟩⟩
  rw [h.htop a hle] at hcell
  cases hcell

theorem allocated_empty : (empty : Heap β).allocated = ∅ := by
  ext a
  simp [empty]

theorem allocated_write (h : Heap β) (a : Addr) (n : Node β) :
    (h.write a n).allocated = insert a h.allocated := by
  ext b
  by_cases hba : b = a <;> simp [cell_write, hba]

theorem allocated_free (h : Heap β) (a : Addr) : (h.free a).allocated = h.allocated.erase a := by
  ext b
  by_cases hba : b = a <;> simp [cell_free, hba]

theorem allocated_modify {h h' : Heap β} {a : Addr} {f : Node β → Node β}
    (hrun : h.modify a f = some h') : h'.allocated = h.allocated := by
  obtain ⟨n, hcell, rfl⟩ := Option.map_eq_some_iff.mp hrun
  rw [allocated_write, Finset.insert_eq_of_mem (by simp [hcell])]

theorem allocated_relinkNext {h h' : Heap β} {p q : Option Addr}
    (hrun : h.relinkNext p q = some h') : h'.allocated = h.allocated := by
  cases p with
  | none => rw [← Option.some.inj hrun]
  | some a => exact allocated_modify hrun

theorem allocated_relinkPrev {h h' : Heap β} {p q : Option Addr}
    (hrun : h.relinkPrev q p = some h') : h'.allocated = h.allocated := by
  cases q with
  | none => rw [← Option.some.inj hrun]
  | some a => exact allocated_modify hrun

end Heap

/-- A source of addresses that hold no cell. -/
structure Allocator (β : Type) where
  next : Heap β → Addr
  hfresh : ∀ h : Heap β, h.cell (next h) = none

/-- The first address above all cells. -/
def Allocator.above (β : Type) : Allocator β where
  next := Heap.top
  hfresh := fun h => h.htop h.top (Nat.le_refl _)

/-! ## Chains -/

section Chains

variable {β : Type}

/-- The address a run of cells begins with, or what comes after it. -/
def firstOf : List (Addr × β) → Option Addr → Option Addr
  | [], q => q
  | (a, _) :: _, _ => some a

/-- The address a run of cells ends with, or what comes before it. -/
def lastOf : Option Addr → List (Addr × β) → Option Addr
  | p, [] => p
  | _, (a, _) :: l => lastOf (some a) l

/-- The cells `l` are linked to each other, the first one back to `p` and the last one on
to `q`. -/
def Chain (h : Heap β) : Option Addr → List (Addr × β) → Option Addr → Prop
  | _, [], _ => True
  | p, (a, v) :: l, q => h.cell a = some ⟨v, p, firstOf l q⟩ ∧ Chain h (some a) l q

def addrs (l : List (Addr × β)) : List Addr := l.map Prod.fst

@[simp] theorem addrs_nil : addrs ([] : List (Addr × β)) = [] := rfl
@[simp] theorem addrs_cons (x : Addr × β) (l : List (Addr × β)) : addrs (x :: l) = x.1 :: addrs l := rfl
@[simp] theorem addrs_append (l₁ l₂ : List (Addr × β)) : addrs (l₁ ++ l₂) = addrs l₁ ++ addrs l₂ :=
  List.map_append

theorem firstOf_append (l₁ l₂ : List (Addr × β)) (q : Option Addr) :
    firstOf (l₁ ++ l₂) q = firstOf l₁ (firstOf l₂ q) := by
  cases l₁ <;> rfl

theorem lastOf_append (p : Option Addr) (l₁ l₂ : List (Addr × β)) :
    lastOf p (l₁ ++ l₂) = lastOf (lastOf p l₁) l₂ := by
  induction l₁ generalizing p with
  | nil => rfl
  | cons x l₁ ih => exact ih (some x.1)

theorem firstOf_eq_none {l : List (Addr × β)} : firstOf l none = none ↔ l = [] := by
  cases l <;> simp [firstOf]

theorem lastOf_eq_none {l : List (Addr × β)} : lastOf none l = none ↔ l = [] := by
  induction l using List.reverseRecOn with
  | nil => simp [lastOf]
  | append_singleton l x _ => simp [lastOf_append, lastOf]

/-- What comes before a run does not matter for its end, if there is a cell in it. -/
theorem lastOf_of_ne_nil {l : List (Addr × β)} (hne : l ≠ []) :
    ∃ a ∈ addrs l, ∀ p, lastOf p l = some a := by
  cases l using List.reverseRecOn with
  | nil => exact absurd rfl hne
  | append_singleton l x => exact ⟨x.1, by simp, fun p => by rw [lastOf_append]; rfl⟩

/-- The end of a run without one of its cells. -/
theorem lastOf_cut {l₁ l₂ : List (Addr × β)} {a : Addr} {v : β} (ha : a ∉ addrs l₂) :
    (if lastOf none (l₁ ++ (a, v) :: l₂) = some a then lastOf none l₁
      else lastOf none (l₁ ++ (a, v) :: l₂)) = lastOf none (l₁ ++ l₂) := by
  rw [lastOf_append, lastOf_append]
  show (if lastOf (some a) l₂ = some a then _ else lastOf (some a) l₂) = _
  cases l₂ with
  | nil => exact if_pos rfl
  | cons y l₂ =>
    obtain ⟨b, hb, hlast⟩ := lastOf_of_ne_nil (List.cons_ne_nil y l₂)
    rw [hlast, hlast, if_neg]
    exact fun hba => ha (Option.some.inj hba ▸ hb)

theorem nodup_cut {l₁ l₂ : List (Addr × β)} {a : Addr} {v : β}
    (h : (addrs (l₁ ++ (a, v) :: l₂)).Nodup) :
    a ∉ addrs (l₁ ++ l₂) ∧ (addrs (l₁ ++ l₂)).Nodup := by
  rw [addrs_append, addrs_cons] at h
  rw [addrs_append]
  exact List.nodup_cons.mp (List.nodup_middle.mp h)

theorem chain_append {h : Heap β} {p q : Option Addr} {l₁ l₂ : List (Addr × β)} :
    Chain h p (l₁ ++ l₂) q ↔ Chain h p l₁ (firstOf l₂ q) ∧ Chain h (lastOf p l₁) l₂ q := by
  induction l₁ generalizing p with
  | nil => simp [Chain, lastOf]
  | cons x l₁ ih =>
    obtain ⟨a, v⟩ := x
    simp only [List.cons_append, Chain, lastOf, ih, firstOf_append, and_assoc]

theorem Chain.cell_isSome {h : Heap β} {p q : Option Addr} {l : List (Addr × β)}
    (hl : Chain h p l q) {a : Addr} (ha : a ∈ addrs l) : ∃ n, h.cell a = some n := by
  induction l generalizing p with
  | nil => simp at ha
  | cons x l ih =>
    rcases List.mem_cons.mp ha with rfl | ha
    · exact ⟨_, hl.1⟩
    · exact ih hl.2 ha

/-- **Frame**: a chain depends on its own cells only. -/
theorem Chain.frame {h h' : Heap β} {p q : Option Addr} {l : List (Addr × β)}
    (hsame : ∀ a ∈ addrs l, h'.cell a = h.cell a) (hl : Chain h p l q) : Chain h' p l q := by
  induction l generalizing p with
  | nil => trivial
  | cons x l ih =>
    exact ⟨(hsame x.1 (by simp)).trans hl.1, ih (fun a ha => hsame a (by simp [ha])) hl.2⟩

/-! ## Changing the pointers at the ends -/

/-- The heaps agree outside the cells `l`. -/
def AgreeOff (l : List (Addr × β)) (h h' : Heap β) : Prop := ∀ a, a ∉ addrs l → h'.cell a = h.cell a

/-- The last cell of a list is linked on to something else. -/
theorem Chain.relinkNext {h : Heap β} {l : List (Addr × β)} {q : Option Addr}
    (hl : Chain h none l q) (hnodup : (addrs l).Nodup) (q' : Option Addr) :
    ∃ h', h.relinkNext (lastOf none l) q' = some h' ∧ Chain h' none l q' ∧ AgreeOff l h h' := by
  cases l using List.reverseRecOn with
  | nil => exact ⟨h, rfl, trivial, fun _ _ => rfl⟩
  | append_singleton l x =>
    obtain ⟨a, v⟩ := x
    obtain ⟨hfront, hcell, -⟩ := chain_append.mp hl
    have hlast : lastOf none (l ++ [(a, v)]) = some a := by rw [lastOf_append]; rfl
    have hnot : ∀ b ∈ addrs l, b ≠ a := by
      intro b hb hba
      rw [addrs_append, List.nodup_append] at hnodup
      exact hnodup.2.2 b hb a (by simp) hba
    refine ⟨h.write a ⟨v, lastOf none l, q'⟩, ?_, ?_, fun b hb => ?_⟩
    · rw [hlast]
      show (h.cell a).map _ = _
      rw [hcell]
      rfl
    · refine chain_append.mpr ⟨hfront.frame fun b hb => h.cell_write_of_ne _ (hnot b hb), ?_, trivial⟩
      rw [Heap.cell_write, if_pos rfl]
      rfl
    · exact h.cell_write_of_ne _ fun hba => hb (by simp [hba])

/-- The first cell of a list is linked back to something else. -/
theorem Chain.relinkPrev {h : Heap β} {l : List (Addr × β)} {p : Option Addr}
    (hl : Chain h p l none) (hnodup : (addrs l).Nodup) (p' : Option Addr) :
    ∃ h', h.relinkPrev (firstOf l none) p' = some h' ∧ Chain h' p' l none ∧ AgreeOff l h h' := by
  cases l with
  | nil => exact ⟨h, rfl, trivial, fun _ _ => rfl⟩
  | cons x l =>
    obtain ⟨a, v⟩ := x
    obtain ⟨hcell, hrest⟩ := hl
    have hnot : ∀ b ∈ addrs l, b ≠ a := fun b hb hba => (List.nodup_cons.mp hnodup).1 (hba ▸ hb)
    refine ⟨h.write a ⟨v, p', firstOf l none⟩, ?_, ⟨?_, ?_⟩, fun b hb => ?_⟩
    · show (h.cell a).map _ = _
      rw [hcell]
      rfl
    · rw [Heap.cell_write, if_pos rfl]
    · exact hrest.frame fun b hb => h.cell_write_of_ne _ (hnot b hb)
    · exact h.cell_write_of_ne _ fun hba => hb (by simp [hba])

/-- **Cut a cell out**: its neighbours are linked to each other, and it keeps its own
pointers. -/
theorem Chain.unlink {h : Heap β} {l₁ l₂ : List (Addr × β)} {a : Addr} {v : β}
    (hl : Chain h none (l₁ ++ (a, v) :: l₂) none) (hnodup : (addrs (l₁ ++ (a, v) :: l₂)).Nodup) :
    ∃ h₁ h₂, h.relinkNext (lastOf none l₁) (firstOf l₂ none) = some h₁ ∧
      h₁.relinkPrev (firstOf l₂ none) (lastOf none l₁) = some h₂ ∧
      h₁.cell a = h.cell a ∧ h₂.cell a = h.cell a ∧ Chain h₂ none (l₁ ++ l₂) none := by
  obtain ⟨hfront, hcell, hback⟩ := chain_append.mp hl
  rw [addrs_append, addrs_cons, List.nodup_append, List.nodup_cons] at hnodup
  obtain ⟨hnodup₁, ⟨ha₂, hnodup₂⟩, hdisj⟩ := hnodup
  have ha₁ : a ∉ addrs l₁ := fun ha => hdisj a ha a (by simp) rfl
  obtain ⟨h₁, hrun₁, hfront₁, hoff₁⟩ := hfront.relinkNext hnodup₁ (firstOf l₂ none)
  have hback₁ : Chain h₁ (some a) l₂ none :=
    hback.frame fun b hb => hoff₁ b fun hb' => hdisj b hb' b (by simp [hb]) rfl
  obtain ⟨h₂, hrun₂, hback₂, hoff₂⟩ := hback₁.relinkPrev hnodup₂ (lastOf none l₁)
  refine ⟨h₁, h₂, hrun₁, hrun₂, hoff₁ a ha₁, (hoff₂ a ha₂).trans (hoff₁ a ha₁), ?_⟩
  refine chain_append.mpr ⟨hfront₁.frame fun b hb => hoff₂ b fun hb' => ?_, hback₂⟩
  exact hdisj b hb b (by simp [hb']) rfl

/-- **Put a cell in front**. -/
theorem Chain.pushFront {h : Heap β} {l : List (Addr × β)} (hl : Chain h none l none)
    (hnodup : (addrs l).Nodup) {a : Addr} {v : β} (ha : a ∉ addrs l)
    (hcell : h.cell a = some ⟨v, none, firstOf l none⟩) :
    ∃ h', h.relinkPrev (firstOf l none) (some a) = some h' ∧ Chain h' none ((a, v) :: l) none := by
  obtain ⟨h', hrun, hl', hoff⟩ := hl.relinkPrev hnodup (some a)
  exact ⟨h', hrun, (hoff a ha).trans hcell, hl'⟩

/-! ## Walking along the pointers -/

/-- The values met from `p` on along `next`, at most `fuel` of them. -/
def followNext (h : Heap β) : Nat → Option Addr → List β
  | 0, _ => []
  | _ + 1, none => []
  | fuel + 1, some a => (h.cell a).elim [] fun n => n.val :: followNext h fuel n.next

/-- The values met from `q` on along `prev`. -/
def followPrev (h : Heap β) : Nat → Option Addr → List β
  | 0, _ => []
  | _ + 1, none => []
  | fuel + 1, some a => (h.cell a).elim [] fun n => n.val :: followPrev h fuel n.prev

/-- The first cell from `p` on whose value passes the test. It has no result if the walk is
not over after `fuel` cells. -/
def seek (h : Heap β) (test : β → Bool) : Nat → Option Addr → Option (Option Addr)
  | _, none => some none
  | 0, some _ => none
  | fuel + 1, some a => do
      let n ← h.cell a
      if test n.val then some (some a) else seek h test fuel n.next

theorem Chain.followNext_eq {h : Heap β} {p : Option Addr} {l : List (Addr × β)}
    (hl : Chain h p l none) {fuel : Nat} (hfuel : l.length ≤ fuel) :
    followNext h fuel (firstOf l none) = l.map Prod.snd := by
  induction l generalizing p fuel with
  | nil => cases fuel <;> rfl
  | cons x l ih =>
    obtain ⟨fuel, rfl⟩ : ∃ f, fuel = f + 1 := ⟨fuel - 1, by simp at hfuel; omega⟩
    show (h.cell x.1).elim _ _ = _
    rw [hl.1]
    show x.2 :: followNext h fuel (firstOf l none) = _
    rw [ih hl.2 (by simpa using hfuel)]
    rfl

theorem Chain.followPrev_eq {h : Heap β} {q : Option Addr} {l : List (Addr × β)}
    (hl : Chain h none l q) {fuel : Nat} (hfuel : l.length ≤ fuel) :
    followPrev h fuel (lastOf none l) = (l.map Prod.snd).reverse := by
  induction l using List.reverseRecOn generalizing q fuel with
  | nil => cases fuel <;> rfl
  | append_singleton l x ih =>
    obtain ⟨hfront, hcell, -⟩ := chain_append.mp hl
    obtain ⟨fuel, rfl⟩ : ∃ f, fuel = f + 1 := ⟨fuel - 1, by simp at hfuel; omega⟩
    rw [lastOf_append]
    show (h.cell x.1).elim _ _ = _
    rw [hcell]
    show x.2 :: followPrev h fuel (lastOf none l) = _
    rw [ih hfront (by simpa using hfuel)]
    simp

/-- **The search** finds the first cell of the list that passes. -/
theorem Chain.seek_eq {h : Heap β} {p : Option Addr} {l : List (Addr × β)}
    (hl : Chain h p l none) (test : β → Bool) {fuel : Nat} (hfuel : l.length ≤ fuel) :
    seek h test fuel (firstOf l none) = some ((l.find? fun x => test x.2).map Prod.fst) := by
  induction l generalizing p fuel with
  | nil => cases fuel <;> rfl
  | cons x l ih =>
    obtain ⟨fuel, rfl⟩ : ∃ f, fuel = f + 1 := ⟨fuel - 1, by simp at hfuel; omega⟩
    show (h.cell x.1 >>= fun n => _) = _
    rw [hl.1]
    show (if test x.2 then some (some x.1) else seek h test fuel (firstOf l none)) = _
    rw [List.find?_cons]
    cases htest : test x.2 with
    | true => rfl
    | false => exact ih hl.2 (by simpa using hfuel)

/-! ## Taking a list down -/

/-- Free the cells from `p` on along `next`, each after its `next` is read. There is no result if the
walk meets an address without a cell, or is not over after `fuel` cells. -/
def freeAll (h : Heap β) : Nat → Option Addr → Option (Heap β)
  | _, none => some h
  | 0, some _ => none
  | fuel + 1, some a => do
      let n ← h.cell a
      freeAll (h.free a) fuel n.next

/-- **Taking down a list** frees its cells and no others. -/
theorem Chain.freeAll_eq {h : Heap β} {p : Option Addr} {l : List (Addr × β)}
    (hl : Chain h p l none) (hnodup : (addrs l).Nodup) {fuel : Nat} (hfuel : l.length ≤ fuel) :
    ∃ h', freeAll h fuel (firstOf l none) = some h' ∧
      ∀ a, h'.cell a = if a ∈ addrs l then none else h.cell a := by
  induction l generalizing h p fuel with
  | nil =>
    refine ⟨h, ?_, fun a => by simp⟩
    cases fuel <;> rfl
  | cons x l ih =>
    obtain ⟨fuel, rfl⟩ : ∃ f, fuel = f + 1 := ⟨fuel - 1, by simp at hfuel; omega⟩
    obtain ⟨hx, hnodup⟩ := List.nodup_cons.mp hnodup
    -- the cells behind the first one are still there once it is freed
    have hrest : Chain (h.free x.1) (some x.1) l none := hl.2.frame fun a ha => by
      have hax : a ≠ x.1 := fun hax => hx (hax ▸ ha)
      rw [Heap.cell_free, if_neg hax]
    obtain ⟨h', hrun, hcells⟩ := ih hrest hnodup (by simpa using hfuel)
    refine ⟨h', ?_, fun a => ?_⟩
    · show (h.cell x.1 >>= fun n => freeAll (h.free x.1) fuel n.next) = _
      rw [hl.1]
      exact hrun
    · rw [hcells a, Heap.cell_free]
      by_cases hax : a = x.1 <;> simp [hax]

end Chains

end Peps.Lib
