import Peps.Pool.LoadModel

/-!
# `load_model` when it raises

The pool is not rolled back with the transaction: what was inserted before the error stays. Here
`load_model` is a computation whose state outlives its errors (`EStateM`), and the question is which
pairs of `T_val` and `T_bias` it leaves.

Whether an array goes in is a matter of sizes alone, so the sizes of the pool tell in advance at
which table the loading stops between the two arrays (`Ledger.torn`). That table is left with a new
`val` beside its old `bias`, all others are whole (`loadModel_whole_iff`).
-/

namespace Peps

open Lib WeightPool

/-! ## The function with its errors -/

section Definitions

variable {α : Type}

/-- Computations on the pool. -/
abbrev PoolM (α : Type) := EStateM PgError (WeightPool α)

/-- The `insert_weight` of one of the arrays: the pool changes if it returns. -/
def storePartM (l : Load α) (part : Part) : PoolM α Unit := fun pool =>
  match storePart pool l part with
  | .ok pool' => .ok () pool'
  | .error e => .error e pool

def storeM (l : Load α) : PoolM α Unit := do
  storePartM l .val
  storePartM l .bias

/-- One round of the loop. -/
def loadRoundM (db : Database α) : Option Bytes → PoolM α Unit
  | none => pure ()
  | some name =>
    match fetch db name with
    | .error e => throw e
    | .ok l => storeM l

def loadNamesM (db : Database α) : List (Option Bytes) → PoolM α Unit
  | [] => pure ()
  | name :: names => do
    loadRoundM db name
    loadNamesM db names

/-- `load_model`, with the pool it leaves. -/
def loadModelM (db : Database α) : Option TableNames → PoolM α Unit
  | none => throw (.report "table_names argument is null" [] [])
  | some names =>
    if names.ndim ≠ 1 then throw (.report "table_names must be a 1-dimensional array" [] [])
    else loadNamesM db names.elems

/-! ## Sizes -/

/-- The sizes of the entries, and the usage. -/
structure Ledger where
  sizes : Bytes → Nat
  usage : Nat

namespace Ledger

/-- The array has a size, and it is within the limit. -/
def takes (led : Ledger) (a : ArrayType α) : Bool :=
  match arrayGetNItems a.dims with
  | .ok n => led.usage + n * 4 ≤ POOL_SIZE
  | .error _ => false

/-- The sizes once an array is stored. -/
def put (led : Ledger) (l : Load α) (part : Part) : Ledger where
  sizes := Function.update led.sizes (poolKey (l.name ++ part.suffix))
    (nitems (l.array part).dims * 4)
  usage := led.usage - led.sizes (poolKey (l.name ++ part.suffix)) +
    nitems (l.array part).dims * 4

/-- The table whose `val` goes in and whose `bias` does not, and the names before it. -/
def torn (db : Database α) : Ledger → List (Option Bytes) → Option (List (Option Bytes) × Load α)
  | _, [] => none
  | led, none :: names => (torn db led names).map fun t => (none :: t.1, t.2)
  | led, some name :: names =>
    match fetch db name with
    | .error _ => none
    | .ok l =>
      if led.takes l.val = false then none
      else if (led.put l .val).takes l.bias = false then some ([], l)
      else (torn db ((led.put l .val).put l .bias) names).map fun t => (some name :: t.1, t.2)

end Ledger

def WeightPool.ledger (pool : WeightPool α) : Ledger where
  sizes := fun key => (pool.entries key).elim 0 WeightEntry.data_size
  usage := pool.current_memory_usage

/-! ## Whole pairs -/

/-- What `get_weight` returns for an array of a table. -/
def WeightPool.held (pool : WeightPool α) (name : Bytes) (part : Part) :
    Option (List α × Nat × List Int) :=
  (pool.getWeight (name ++ part.suffix)).map fun e => (e.data, e.ndims, e.dims)

/-- The table's two arrays are those of before, or the table's. -/
def Whole (db : Database α) (pool pool' : WeightPool α) (name : Bytes) : Prop :=
  (∀ part, pool'.held name part = pool.held name part) ∨
    ∃ l, fetch db name = .ok l ∧ ∀ part, pool'.Holds (name ++ part.suffix) (l.array part)

/-- The pool can tell the arrays of the tables apart, and hold those that can be read. -/
structure Tellable (db : Database α) (names : List (Option Bytes)) : Prop where
  distinct : ∀ S T, some S ∈ names → some T ∈ names → ∀ part part' : Part,
    poolKey (S ++ part.suffix) = poolKey (T ++ part'.suffix) → S = T ∧ part = part'
  fits : ∀ name l, some name ∈ names → fetch db name = .ok l → ∀ part, Fits (l.array part)

end Definitions

section Failure

variable {α : Type} {db : Database α} {pool pool' : WeightPool α}

/-! ## Sizes decide -/

theorem fetch_name {name : Bytes} {l : Load α} (h : fetch db name = .ok l) : l.name = name := by
  unfold fetch at h
  rw [bind_ok_iff] at h
  obtain ⟨res, -, h⟩ := h
  rw [guard_ok_iff] at h
  obtain ⟨-, h⟩ := h
  split at h
  · cases h
  · cases h
  · cases h
  · cases h
    rfl

/-- An array is stored if its size is taken, and the sizes go on accordingly. -/
theorem storePart_takes (pool : WeightPool α) (l : Load α) (part : Part) :
    (pool.ledger.takes (l.array part) = true →
      ∃ pool', storePart pool l part = .ok pool' ∧ pool'.ledger = pool.ledger.put l part) ∧
    (pool.ledger.takes (l.array part) = false → ∃ err, storePart pool l part = .error err) := by
  unfold Ledger.takes storePart
  cases hn : arrayGetNItems (l.array part).dims with
  | error err => exact ⟨nofun, fun _ => ⟨err, rfl⟩⟩
  | ok n =>
    have hitems := nitems_of_arrayGetNItems hn
    show (decide (pool.current_memory_usage + n * 4 ≤ POOL_SIZE) = true → ∃ pool',
      pool.insertWeight _ _ _ _ _ = .ok pool' ∧ _) ∧ (_ → ∃ err, pool.insertWeight _ _ _ _ _ = _)
    unfold insertWeight
    refine ⟨fun h => ?_, fun h => ?_⟩
    · rw [if_neg (Nat.not_lt.mpr (of_decide_eq_true h))]
      refine ⟨_, rfl, ?_⟩
      unfold ledger Ledger.put
      congr 1
      · funext key
        by_cases hkey : key = poolKey (l.name ++ part.suffix)
        · subst hkey
          simp only [Function.update_self, hitems]
          rfl
        · simp only [Function.update_of_ne hkey]
      · rw [hitems]
        rfl
    · have hover : ¬ pool.current_memory_usage + n * 4 ≤ POOL_SIZE := of_decide_eq_false h
      rw [if_pos (Nat.not_le.mp hover)]
      exact ⟨_, rfl⟩

theorem storePartM_ok {l : Load α} {part : Part} (h : storePart pool l part = .ok pool') :
    storePartM l part pool = .ok () pool' := by
  rw [storePartM, h]

theorem storePartM_error {l : Load α} {part : Part} {err : PgError}
    (h : storePart pool l part = .error err) : storePartM l part pool = .error err pool := by
  rw [storePartM, h]

/-! ## How the loop ends -/

/-- The three ways: after the last table, between two tables, or between the arrays of one. -/
inductive LoadEnds (db : Database α) (pool : WeightPool α) (names : List (Option Bytes)) : Prop where
  | done (pool' : WeightPool α) (hrun : loadNamesM db names pool = .ok () pool')
      (hrounds : names.foldlM (loadRound db) pool = .ok pool')
      (htorn : pool.ledger.torn db names = none)
  | between (err : PgError) (before rest : List (Option Bytes)) (mid : WeightPool α)
      (hnames : names = before ++ rest) (hrounds : before.foldlM (loadRound db) pool = .ok mid)
      (hrun : loadNamesM db names pool = .error err mid)
      (hfails : names.foldlM (loadRound db) pool = .error err)
      (htorn : pool.ledger.torn db names = none)
  | torn (err : PgError) (before rest : List (Option Bytes)) (l : Load α) (mid pool' : WeightPool α)
      (hnames : names = before ++ some l.name :: rest)
      (hrounds : before.foldlM (loadRound db) pool = .ok mid) (hfetch : fetch db l.name = .ok l)
      (hval : storePart mid l .val = .ok pool') (hrun : loadNamesM db names pool = .error err pool')
      (hfails : names.foldlM (loadRound db) pool = .error err)
      (htorn : pool.ledger.torn db names = some (before, l))

/-- A round that is made in front. -/
theorem LoadEnds.cons {name : Option Bytes} {names : List (Option Bytes)}
    (hround : loadRound db pool name = .ok pool') (hroundM : loadRoundM db name pool = .ok () pool')
    (htorn : pool.ledger.torn db (name :: names) =
      (pool'.ledger.torn db names).map fun t => (name :: t.1, t.2))
    (h : LoadEnds db pool' names) : LoadEnds db pool (name :: names) := by
  have hrunM : loadNamesM db (name :: names) pool = loadNamesM db names pool' :=
    estate_bind_ok hroundM
  have hfold : ∀ before : List (Option Bytes), (name :: before).foldlM (loadRound db) pool =
      before.foldlM (loadRound db) pool' := by
    intro before
    rw [List.foldlM_cons, hround]
    rfl
  cases h with
  | done fin hrun hrounds hnone =>
    exact .done fin (hrunM.trans hrun) ((hfold _).trans hrounds)
      (by rw [htorn, hnone, Option.map_none])
  | between err before rest mid hnames hrounds hrun hfails hnone =>
    exact .between err (name :: before) rest mid (by rw [hnames, List.cons_append])
      ((hfold _).trans hrounds) (hrunM.trans hrun) ((hfold _).trans hfails)
      (by rw [htorn, hnone, Option.map_none])
  | torn err before rest l mid fin hnames hrounds hfetch hval hrun hfails hsome =>
    exact .torn err (name :: before) rest l mid fin (by rw [hnames, List.cons_append])
      ((hfold _).trans hrounds) hfetch hval (hrunM.trans hrun) ((hfold _).trans hfails)
      (by rw [htorn, hsome, Option.map_some])

/-- **The loop** ends in one of the three ways, and the sizes tell which. -/
theorem loadEnds (db : Database α) (pool : WeightPool α) (names : List (Option Bytes)) :
    LoadEnds db pool names := by
  induction names generalizing pool with
  | nil => exact .done pool rfl rfl rfl
  | cons name names ih =>
    cases name with
    | none => exact (ih pool).cons rfl rfl rfl
    | some name =>
      cases hfetch : fetch db name with
      | error err =>
        refine .between err [] _ pool rfl rfl (estate_bind_error ?_) ?_ ?_
        · rw [loadRoundM, hfetch]
          rfl
        · rw [List.foldlM_cons, loadRound, hfetch]
          rfl
        · rw [Ledger.torn, hfetch]
      | ok l =>
        obtain rfl := fetch_name hfetch
        have hroundM : loadRoundM db (some l.name) pool = storeM l pool := by
          rw [loadRoundM, hfetch]
        have hround : loadRound db pool (some l.name) = store pool l := by
          rw [loadRound, hfetch]
          rfl
        obtain ⟨hvalTaken, hvalLeft⟩ := storePart_takes pool l .val
        cases htakes : pool.ledger.takes l.val with
        | false =>
          obtain ⟨err, hval⟩ := hvalLeft htakes
          refine .between err [] _ pool rfl rfl (estate_bind_error ?_) ?_ ?_
          · exact hroundM.trans (estate_bind_error (storePartM_error hval))
          · rw [List.foldlM_cons, hround, store, hval]
            rfl
          · rw [Ledger.torn, hfetch]
            simp only [htakes, if_true]
        | true =>
          obtain ⟨mid, hval, hled⟩ := hvalTaken htakes
          obtain ⟨hbiasTaken, hbiasLeft⟩ := storePart_takes mid l .bias
          rw [hled] at hbiasTaken hbiasLeft
          cases htakes' : (pool.ledger.put l .val).takes l.bias with
          | false =>
            obtain ⟨err, hbias⟩ := hbiasLeft htakes'
            refine .torn err [] _ l pool mid rfl rfl hfetch hval (estate_bind_error ?_) ?_ ?_
            · exact hroundM.trans ((estate_bind_ok (storePartM_ok hval)).trans
                (storePartM_error hbias))
            · rw [List.foldlM_cons, hround, store, hval]
              show (storePart mid l .bias >>= _) = _
              rw [hbias]
              rfl
            · rw [Ledger.torn, hfetch]
              simp only [htakes, htakes', Bool.true_eq_false, if_false, if_true]
          | true =>
            obtain ⟨fin, hbias, hled'⟩ := hbiasTaken htakes'
            refine (ih fin).cons (hround.trans ?_) (hroundM.trans ?_) ?_
            · rw [store, hval]
              exact hbias
            · exact (estate_bind_ok (storePartM_ok hval)).trans (storePartM_ok hbias)
            · rw [Ledger.torn, hfetch]
              simp only [htakes, htakes', Bool.true_eq_false, if_false, hled']

/-- Where it returns, it is the `load_model` of the other module. -/
theorem loadModelM_ok_iff {arg : Option TableNames} :
    loadModelM db arg pool = .ok () pool' ↔ loadModel db pool arg = .ok pool' := by
  unfold loadModelM loadModel
  cases arg with
  | none => exact iff_of_false nofun nofun
  | some names =>
    by_cases hndim : names.ndim ≠ 1
    · simp only [if_pos hndim]
      exact iff_of_false nofun nofun
    · simp only [if_neg hndim]
      cases loadEnds db pool names.elems with
      | done fin hrun hrounds htorn =>
        rw [hrun, hrounds]
        exact ⟨fun h => (by cases h; rfl), fun h => (by cases h; rfl)⟩
      | between err before rest mid hnames hrounds hrun hfails htorn =>
        rw [hrun, hfails]
        exact iff_of_false nofun nofun
      | torn err before rest l mid fin hnames hrounds hfetch hval hrun hfails htorn =>
        rw [hrun, hfails]
        exact iff_of_false nofun nofun

/-! ## What the rounds leave -/

theorem holds_iff_held {name : Bytes} {part : Part} {a : ArrayType α} :
    pool.Holds (name ++ part.suffix) a ↔ pool.held name part = some (a.data, a.ndim, a.dims) := by
  unfold Holds held
  rw [Option.map_eq_some_iff]
  simp only [Prod.mk.injEq]

theorem held_of_frame {name : Bytes} {part : Part}
    (h : pool'.getWeight (name ++ part.suffix) = pool.getWeight (name ++ part.suffix)) :
    pool'.held name part = pool.held name part := by
  rw [held, h, held]

theorem Tellable.mono {names names' : List (Option Bytes)} (h : Tellable db names')
    (hsub : names ⊆ names') : Tellable db names :=
  ⟨fun S T hS hT => h.distinct S T (hsub hS) (hsub hT), fun name l hname => h.fits name l (hsub hname)⟩

/-- The arrays of one table have two entries. -/
theorem Tellable.apart {names : List (Option Bytes)} (h : Tellable db names) {name : Bytes}
    (hname : some name ∈ names) :
    poolKey (name ++ Part.val.suffix) ≠ poolKey (name ++ Part.bias.suffix) :=
  fun heq => nomatch (h.distinct name name hname hname _ _ heq).2

theorem rounds_frame {names : List (Option Bytes)} {T : Bytes} {part : Part}
    (htell : Tellable db (some T :: names)) (hT : some T ∉ names)
    (hrounds : names.foldlM (loadRound db) pool = .ok pool') :
    pool'.held T part = pool.held T part := by
  refine foldlM_keeps (P := fun p => p.held T part = pool.held T part)
    (fun name hname p p' hp hround => ?_) rfl hrounds
  rw [← hp]
  cases name with
  | none =>
    cases hround
    rfl
  | some S =>
    rw [loadRound, bind_ok_iff] at hround
    obtain ⟨l, hfetch, hstore⟩ := hround
    obtain rfl := fetch_name hfetch
    refine held_of_frame (store_frame (fun part' heq => hT ?_) hstore)
    rw [(htell.distinct T l.name (List.mem_cons_self ..) (List.mem_cons_of_mem _ hname) _ _ heq).1]
    exact hname

/-- **The rounds that were made** leave complete pairs. -/
theorem rounds_complete {names : List (Option Bytes)} (htell : Tellable db names)
    (hrounds : names.foldlM (loadRound db) pool = .ok pool') {T : Bytes} (hT : some T ∈ names) :
    ∃ l, fetch db T = .ok l ∧ ∀ part, pool'.Holds (T ++ part.suffix) (l.array part) := by
  induction names generalizing pool with
  | nil => cases hT
  | cons name names ih =>
    rw [List.foldlM_cons, bind_ok_iff] at hrounds
    obtain ⟨mid, hround, hrest⟩ := hrounds
    by_cases hlater : some T ∈ names
    · exact ih (htell.mono (List.subset_cons_self ..)) hrest hlater
    · obtain rfl : some T = name := (List.mem_cons.mp hT).resolve_right hlater
      rw [loadRound, bind_ok_iff] at hround
      obtain ⟨l, hfetch, hstore⟩ := hround
      obtain rfl := fetch_name hfetch
      refine ⟨l, hfetch, fun part => ?_⟩
      have hself := store_self (htell.fits l.name l hT hfetch) (htell.apart hT) hstore part
      rw [holds_iff_held] at hself ⊢
      rw [rounds_frame htell hlater hrest, hself]

/-- A table whose `val` alone was stored. -/
theorem whole_iff_of_val {before : List (Option Bytes)} {l : Load α} {mid : WeightPool α}
    (htell : Tellable db (some l.name :: before))
    (hrounds : before.foldlM (loadRound db) pool = .ok mid) (hnew : some l.name ∉ before)
    (hfetch : fetch db l.name = .ok l) (hval : storePart mid l .val = .ok pool') :
    Whole db pool pool' l.name ↔
      pool.Holds (l.name ++ Part.val.suffix) l.val ∨
        pool.Holds (l.name ++ Part.bias.suffix) l.bias := by
  have hmem : some l.name ∈ some l.name :: before := List.mem_cons_self ..
  have hheldVal : pool'.held l.name .val = some (l.val.data, l.val.ndim, l.val.dims) :=
    holds_iff_held.mp (storePart_self (htell.fits l.name l hmem hfetch .val) hval)
  have hheldBias : pool'.held l.name .bias = pool.held l.name .bias :=
    (held_of_frame (storePart_frame (htell.apart hmem).symm hval)).trans
      (rounds_frame htell hnew hrounds)
  rw [holds_iff_held, holds_iff_held]
  constructor
  · rintro (hsame | ⟨l', hl', hholds⟩)
    · exact Or.inl ((hsame .val).symm.trans hheldVal)
    · cases hfetch.symm.trans hl'
      exact Or.inr (hheldBias.symm.trans (holds_iff_held.mp (hholds .bias)))
  · rintro (hsame | hsame)
    · refine Or.inl fun part => ?_
      cases part with
      | val => exact hheldVal.trans hsame.symm
      | bias => exact hheldBias
    · refine Or.inr ⟨l, hfetch, fun part => holds_iff_held.mpr ?_⟩
      cases part with
      | val => exact hheldVal
      | bias => exact hheldBias.trans hsame

/-- The other tables stay whole when one more `val` is stored. -/
theorem whole_of_ne {before names : List (Option Bytes)} {l : Load α} {mid : WeightPool α} {T : Bytes}
    (htell : Tellable db names) (hsub : before ⊆ names) (hl : some l.name ∈ names)
    (hT : some T ∈ names) (hrounds : before.foldlM (loadRound db) pool = .ok mid)
    (hfetch : fetch db l.name = .ok l) (hval : storePart mid l .val = .ok pool')
    (hne : T ≠ l.name ∨ some T ∈ before) : Whole db pool pool' T := by
  by_cases hmade : some T ∈ before
  · obtain ⟨l', hl', hholds⟩ := rounds_complete (htell.mono hsub) hrounds hmade
    refine Or.inr ⟨l', hl', fun part => ?_⟩
    by_cases heq : poolKey (T ++ part.suffix) = poolKey (l.name ++ Part.val.suffix)
    · -- the same array once more
      obtain ⟨rfl, rfl⟩ := htell.distinct T l.name hT hl _ _ heq
      cases hfetch.symm.trans hl'
      exact storePart_self (htell.fits _ l hl hfetch .val) hval
    · rw [holds_iff_held, held_of_frame (storePart_frame heq hval), ← holds_iff_held]
      exact hholds part
  · refine Or.inl fun part => ?_
    have hcons : some T :: before ⊆ names := List.cons_subset.mpr ⟨hT, hsub⟩
    rw [← rounds_frame (htell.mono hcons) hmade hrounds]
    refine held_of_frame (storePart_frame (fun heq => ?_) hval)
    exact hne.elim (fun hne => hne (htell.distinct T l.name hT hl _ _ heq).1) hmade

end Failure

/-! ## Two failures -/

/-- A database with one table. -/
def onlyTable (name : Bytes) : Database Int := fun query =>
  if query = queryText name then
    .ok ⟨SPI_OK_SELECT, some ⟨some (vector [1, 2, 3]), some (vector [4])⟩⟩
  else .error (.report "relation does not exist" [] [])

theorem fetch_onlyTable {name T : Bytes} {l : Load Int} (h : fetch (onlyTable name) T = .ok l) :
    l.val = vector [1, 2, 3] ∧ l.bias = vector [4] := by
  unfold fetch onlyTable at h
  split at h
  · cases h
    exact ⟨rfl, rfl⟩
  · cases h

/-- As many elements as leave room for three more. -/
def almostAll : Nat := (POOL_SIZE - LRU_CACHE_SIZE) / 4 - 3

end Peps
