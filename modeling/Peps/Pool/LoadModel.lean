import Mathlib.Data.List.Induction
import Peps.Pool.WeightPool

/-!
# `load_model` — filling the weight pool from tables

`load_model` reads one row `(val, bias)` per table name and stores the two arrays under the
names `T_val` and `T_bias`. After a run of successful calls, `get_weight` should return for
every loaded table the arrays it was loaded with last.

Two things stand in the way, both in `insert_weight`. The pool tells names apart on their
first 63 bytes, so from 62-byte table names on `T_val` and `T_bias` are one entry, and longer
names with a common beginning share theirs; and an entry holds four dimensions. (NULL elements
are a third: the stored size counts them, the data does not hold them.) `Storable` is the
condition that none of this happens in a run, and `getWeight_of_storable` the result: the
invariant is `Current`, each insertion changes one key only (`insertWeight_frame`), and the
run lemma is an induction over the loads.
-/

namespace Peps

open Lib WeightPool

/-! ## The function -/

section Definitions

variable {α : Type}

/-- The row `SELECT val, bias` returns; an SQL NULL is `none`. -/
structure Row (α : Type) where
  val : Option (ArrayType α)
  bias : Option (ArrayType α)

/-- What `SPI_execute(query, true, 1)` leaves behind: its return code and at most one row. -/
structure SpiResult (α : Type) where
  ret : Int
  row : Option (Row α)

def SPI_OK_SELECT : Int := 5

/-- The database as the query text sees it; a statement it rejects raises. -/
abbrev Database (α : Type) := Bytes → Except PgError (SpiResult α)

/-- `snprintf(query, 256, "SELECT val, bias FROM %s LIMIT 1;", table_name)`. -/
def queryText (name : Bytes) : Bytes :=
  (ascii "SELECT val, bias FROM " ++ name ++ ascii " LIMIT 1;").take 255

/-- One table's arrays under the name it was loaded by. -/
structure Load (α : Type) where
  name : Bytes
  val : ArrayType α
  bias : ArrayType α

def Load.array (l : Load α) : Part → ArrayType α
  | .val => l.val
  | .bias => l.bias

/-- The part of the loop body of `load_model` that reads the table. -/
def fetch (db : Database α) (name : Bytes) : Except PgError (Load α) := do
  let res ← db (queryText name)
  if res.ret ≠ SPI_OK_SELECT then
    .error (.report "[LOAD_MODEL] failed for table %s: error code %d" [name] [res.ret])
  else
    match res.row with
    | none => .error (.report "[LOAD_MODEL] Expected 1 row, got %d for table %s" [name] [0])
    | some ⟨none, _⟩ => .error (.report "[LOAD MODEL] val is null for table %s" [name] [])
    | some ⟨some _, none⟩ => .error (.report "[LOAD MODEL] bias is null for table %s" [name] [])
    | some ⟨some val, some bias⟩ => .ok { name, val, bias }

/-- The `insert_weight` of one of the two arrays. -/
def storePart (pool : WeightPool α) (l : Load α) (part : Part) :
    Except PgError (WeightPool α) := do
  let n ← arrayGetNItems (l.array part).dims
  pool.insertWeight (l.name ++ part.suffix) ((l.array part).read n) (n * 4) (l.array part).dims
    FLOAT4OID

/-- The rest of the loop body: both arrays are stored. -/
def store (pool : WeightPool α) (l : Load α) : Except PgError (WeightPool α) := do
  let pool ← storePart pool l .val
  storePart pool l .bias

/-- The argument of `load_model`: the rank of the name array and its elements. -/
structure TableNames where
  ndim : Nat
  elems : List (Option Bytes)

/-- One round of the loop; a NULL name is skipped. -/
def loadRound (db : Database α) (pool : WeightPool α) :
    Option Bytes → Except PgError (WeightPool α)
  | none => .ok pool
  | some name => do
      let l ← fetch db name
      store pool l

/-- `load_model`. -/
def loadModel (db : Database α) (pool : WeightPool α) (arg : Option TableNames) :
    Except PgError (WeightPool α) :=
  match arg with
  | none => .error (.report "table_names argument is null" [] [])
  | some names =>
    if names.ndim ≠ 1 then .error (.report "table_names must be a 1-dimensional array" [] [])
    else names.elems.foldlM (loadRound db) pool

/-- One call, against the tables as they stand at that moment. -/
structure LoadCall (α : Type) where
  db : Database α
  arg : Option TableNames

/-- A run of calls that all succeed. -/
def loadAll (pool : WeightPool α) (calls : List (LoadCall α)) :
    Except PgError (WeightPool α) :=
  calls.foldlM (fun pool c => loadModel c.db pool c.arg) pool

/-- The loads a call makes, in order. -/
def LoadCall.loads (c : LoadCall α) : List (Load α) :=
  (c.arg.elim [] TableNames.elems).filterMap fun name =>
    name.bind fun n => (fetch c.db n).toOption

/-- The last load of a table. -/
def mostRecent (loads : List (Load α)) (name : Bytes) : Option (Load α) :=
  loads.reverse.find? (fun l => l.name = name)

end Definitions

/-! ## A run of calls is a run of loads -/

section Runs

variable {α : Type} {pool pool' : WeightPool α}

theorem foldlM_loadRound {db : Database α} {names : List (Option Bytes)}
    (h : names.foldlM (loadRound db) pool = .ok pool') :
    (names.filterMap fun name => name.bind fun n => (fetch db n).toOption).foldlM store pool =
      .ok pool' := by
  induction names generalizing pool with
  | nil => exact h
  | cons name names ih =>
    rw [List.foldlM_cons, bind_ok_iff] at h
    obtain ⟨mid, hround, hrest⟩ := h
    cases name with
    | none =>
      cases hround
      exact ih hrest
    | some n =>
      rw [loadRound, bind_ok_iff] at hround
      obtain ⟨l, hfetch, hstore⟩ := hround
      rw [List.filterMap_cons_some (b := l) (by simp [hfetch, Except.toOption]),
        List.foldlM_cons, bind_ok_iff]
      exact ⟨mid, hstore, ih hrest⟩

theorem loadModel_loads {c : LoadCall α} (h : loadModel c.db pool c.arg = .ok pool') :
    c.loads.foldlM store pool = .ok pool' := by
  unfold loadModel at h
  unfold LoadCall.loads
  split at h
  · cases h
  · next names harg =>
    rw [guard_ok_iff] at h
    rw [harg]
    exact foldlM_loadRound h.2

theorem loadAll_loads {calls : List (LoadCall α)} (h : loadAll pool calls = .ok pool') :
    (calls.flatMap LoadCall.loads).foldlM store pool = .ok pool' := by
  induction calls generalizing pool with
  | nil => exact h
  | cons c calls ih =>
    rw [loadAll, List.foldlM_cons, bind_ok_iff] at h
    obtain ⟨mid, hcall, hrest⟩ := h
    rw [List.flatMap_cons, List.foldlM_append, bind_ok_iff]
    exact ⟨mid, loadModel_loads hcall, ih hrest⟩

/-! ## What the loads of a run must satisfy -/

/-- The array fits an entry: at most four dimensions, and no NULL among its elements. -/
def Fits (a : ArrayType α) : Prop := a.ndim ≤ MAX_DIMS ∧ a.data.length = nitems a.dims

/-- No two of the run's pool names agree on the bytes the table compares, and every array
fits. -/
structure Storable (loads : List (Load α)) : Prop where
  distinct : ∀ l ∈ loads, ∀ l' ∈ loads, ∀ part part' : Part,
    poolKey (l.name ++ part.suffix) = poolKey (l'.name ++ part'.suffix) →
      l.name = l'.name ∧ part = part'
  fits : ∀ l ∈ loads, ∀ part, Fits (l.array part)

theorem Storable.mono {loads loads' : List (Load α)} (h : Storable loads')
    (hsub : loads ⊆ loads') : Storable loads :=
  ⟨fun l hl l' hl' => h.distinct l (hsub hl) l' (hsub hl'), fun l hl => h.fits l (hsub hl)⟩

/-- Names of at most 58 bytes are never truncated, and then the suffixes keep the pool names
of all tables apart. -/
theorem distinct_of_short {S T : Bytes} {part part' : Part} (hS : S.length ≤ 58)
    (hT : T.length ≤ 58)
    (h : poolKey (S ++ part.suffix) = poolKey (T ++ part'.suffix)) : S = T ∧ part = part' := by
  have hlen : ∀ p : Part, p.suffix.length ≤ 5 := by
    intro p
    cases p <;> decide
  have hwhole : ∀ (U : Bytes) (p : Part), U.length ≤ 58 →
      poolKey (U ++ p.suffix) = U ++ p.suffix := by
    intro U p hU
    refine List.take_of_length_le ?_
    rw [List.length_append]
    have := hlen p
    simp only [NAMEDATALEN]
    omega
  rw [hwhole S part hS, hwhole T part' hT] at h
  -- the last byte tells the two suffixes apart
  have hlast := congrArg List.getLast? h
  have hpart : part = part' := by
    cases part <;> cases part' <;> first | rfl | simp [Part.suffix, ascii] at hlast
  subst hpart
  exact ⟨List.append_cancel_right h, rfl⟩

/-! ## One load -/

theorem storePart_self {l : Load α} {part : Part} (hfit : Fits (l.array part))
    (h : storePart pool l part = .ok pool') :
    pool'.Holds (l.name ++ part.suffix) (l.array part) := by
  rw [storePart, bind_ok_iff] at h
  obtain ⟨n, hn, hins⟩ := h
  obtain ⟨e, hget, hdata, hndims, hdims⟩ := insertWeight_self hfit.1 hins
  refine ⟨e, hget, ?_, hndims, hdims⟩
  rw [hdata, nitems_of_arrayGetNItems hn, ← hfit.2, ArrayType.read_length]

theorem storePart_frame {l : Load α} {part : Part} {other : Bytes}
    (hne : poolKey other ≠ poolKey (l.name ++ part.suffix))
    (h : storePart pool l part = .ok pool') : pool'.getWeight other = pool.getWeight other := by
  rw [storePart, bind_ok_iff] at h
  obtain ⟨n, -, hins⟩ := h
  exact insertWeight_frame hne hins

/-- Storing a table leaves every other pool name alone. -/
theorem store_frame {l : Load α} {other : Bytes}
    (hne : ∀ part : Part, poolKey other ≠ poolKey (l.name ++ part.suffix))
    (h : store pool l = .ok pool') : pool'.getWeight other = pool.getWeight other := by
  rw [store, bind_ok_iff] at h
  obtain ⟨mid, hval, hbias⟩ := h
  rw [storePart_frame (hne .bias) hbias, storePart_frame (hne .val) hval]

/-- Storing a table makes both its arrays readable, as long as its two pool names differ. -/
theorem store_self {l : Load α} (hfit : ∀ part, Fits (l.array part))
    (hne : poolKey (l.name ++ Part.val.suffix) ≠ poolKey (l.name ++ Part.bias.suffix))
    (h : store pool l = .ok pool') (part : Part) :
    pool'.Holds (l.name ++ part.suffix) (l.array part) := by
  rw [store, bind_ok_iff] at h
  obtain ⟨mid, hval, hbias⟩ := h
  cases part with
  | val =>
    obtain ⟨e, hget, hrest⟩ := storePart_self (hfit .val) hval
    exact ⟨e, (storePart_frame hne hbias).trans hget, hrest⟩
  | bias => exact storePart_self (hfit .bias) hbias

/-! ## The run -/

/-- The pool is up to date with the loads made so far. -/
def Current (pool : WeightPool α) (loads : List (Load α)) : Prop :=
  ∀ name l part, mostRecent loads name = some l →
    pool.Holds (name ++ part.suffix) (l.array part)

theorem mostRecent_snoc (loads : List (Load α)) (l : Load α) (name : Bytes) :
    mostRecent (loads ++ [l]) name =
      if l.name = name then some l else mostRecent loads name := by
  unfold mostRecent
  rw [List.reverse_append, List.reverse_singleton, List.singleton_append, List.find?_cons]
  by_cases h : l.name = name
  · simp [h]
  · simp [h]

theorem mem_of_mostRecent {loads : List (Load α)} {name : Bytes} {l : Load α}
    (h : mostRecent loads name = some l) : l ∈ loads ∧ l.name = name := by
  refine ⟨?_, by simpa using List.find?_some h⟩
  exact List.mem_reverse.mp (List.mem_of_find?_eq_some h)

/-- **One load** keeps the pool up to date. -/
theorem store_current {loads : List (Load α)} {l : Load α} (hcur : Current pool loads)
    (hst : Storable (loads ++ [l])) (h : store pool l = .ok pool') :
    Current pool' (loads ++ [l]) := by
  have hl : l ∈ loads ++ [l] := by simp
  intro name l' part hrecent
  rw [mostRecent_snoc] at hrecent
  split at hrecent
  · next hname =>
    cases hrecent
    subst hname
    refine store_self (hst.fits l hl) (fun heq => ?_) h part
    exact absurd (hst.distinct l hl l hl _ _ heq).2 (by decide)
  · next hname =>
    obtain ⟨hmem, hnamed⟩ := mem_of_mostRecent hrecent
    obtain ⟨e, hget, hrest⟩ := hcur name l' part hrecent
    refine ⟨e, (store_frame (fun part' heq => hname ?_) h).trans hget, hrest⟩
    rw [← hnamed] at heq ⊢
    exact (hst.distinct l' (List.mem_append_left _ hmem) l hl _ _ heq).1.symm

/-- **A run of loads** leaves the pool up to date with all of them. -/
theorem foldlM_store_current {loads : List (Load α)} (hst : Storable loads)
    (h : loads.foldlM store (create : WeightPool α) = .ok pool') : Current pool' loads := by
  induction loads using List.reverseRecOn generalizing pool' with
  | nil =>
    intro name l part hrecent
    cases hrecent
  | append_singleton loads l ih =>
    rw [List.foldlM_append, bind_ok_iff] at h
    obtain ⟨mid, hloads, hl⟩ := h
    rw [List.foldlM_cons, bind_ok_iff] at hl
    obtain ⟨fin, hstore, hfin⟩ := hl
    cases hfin
    exact store_current (ih (hst.mono (List.subset_append_left _ _)) hloads) hst hstore

/-- **After any run of successful calls, `get_weight` returns what each table was loaded with
last**, if the pool can tell the run's names apart and its arrays fit. -/
theorem getWeight_of_storable (calls : List (LoadCall α))
    (hrun : loadAll (create : WeightPool α) calls = .ok pool')
    (hst : Storable (calls.flatMap LoadCall.loads)) (name : Bytes) (l : Load α)
    (hrecent : mostRecent (calls.flatMap LoadCall.loads) name = some l) (part : Part) :
    pool'.Holds (name ++ part.suffix) (l.array part) :=
  foldlM_store_current hst (loadAll_loads hrun) name l part hrecent

/-! ## Loads that fit -/

/-- The bytes a load asks the pool for. -/
def Load.bytes (l : Load α) : Nat := nitems l.val.dims * 4 + nitems l.bias.dims * 4

theorem storePart_of_room {l : Load α} {part : Part} {n : Nat}
    (hn : arrayGetNItems (l.array part).dims = .ok n)
    (hroom : pool.current_memory_usage + nitems (l.array part).dims * 4 ≤ POOL_SIZE) :
    ∃ pool', storePart pool l part = .ok pool' ∧ pool'.current_memory_usage ≤
      pool.current_memory_usage + nitems (l.array part).dims * 4 := by
  unfold storePart
  rw [hn]
  rw [← nitems_of_arrayGetNItems hn] at hroom ⊢
  exact insertWeight_of_le hroom

theorem store_of_room {l : Load α}
    (hn : ∀ part, ∃ n, arrayGetNItems (l.array part).dims = .ok n)
    (hroom : pool.current_memory_usage + l.bytes ≤ POOL_SIZE) :
    ∃ pool', store pool l = .ok pool' ∧
      pool'.current_memory_usage ≤ pool.current_memory_usage + l.bytes := by
  unfold Load.bytes at hroom ⊢
  obtain ⟨n, hval⟩ := hn .val
  obtain ⟨k, hbias⟩ := hn .bias
  have hroomVal : pool.current_memory_usage + nitems (l.array .val).dims * 4 ≤ POOL_SIZE := by
    show pool.current_memory_usage + nitems l.val.dims * 4 ≤ POOL_SIZE
    omega
  obtain ⟨mid, hmid, husage⟩ := storePart_of_room hval hroomVal
  have husage : mid.current_memory_usage ≤
      pool.current_memory_usage + nitems l.val.dims * 4 := husage
  have hroomBias : mid.current_memory_usage + nitems (l.array .bias).dims * 4 ≤ POOL_SIZE := by
    show mid.current_memory_usage + nitems l.bias.dims * 4 ≤ POOL_SIZE
    omega
  obtain ⟨fin, hfin, husage'⟩ := storePart_of_room hbias hroomBias
  have husage' : fin.current_memory_usage ≤
      mid.current_memory_usage + nitems l.bias.dims * 4 := husage'
  refine ⟨fin, ?_, by omega⟩
  rw [store, bind_ok_iff]
  exact ⟨mid, hmid, hfin⟩

/-- **A run of loads within the limit succeeds.** -/
theorem foldlM_store_of_room {loads : List (Load α)}
    (hn : ∀ l ∈ loads, ∀ part, ∃ n, arrayGetNItems (l.array part).dims = .ok n)
    (hroom : pool.current_memory_usage + (loads.map Load.bytes).sum ≤ POOL_SIZE) :
    ∃ pool', loads.foldlM store pool = .ok pool' := by
  induction loads generalizing pool with
  | nil => exact ⟨pool, rfl⟩
  | cons l loads ih =>
    rw [List.map_cons, List.sum_cons] at hroom
    have hfirst : pool.current_memory_usage + l.bytes ≤ POOL_SIZE := by omega
    obtain ⟨mid, hmid, husage⟩ := store_of_room (hn l (List.mem_cons_self ..)) hfirst
    have hrest : mid.current_memory_usage + (loads.map Load.bytes).sum ≤ POOL_SIZE := by omega
    obtain ⟨fin, hfin⟩ := ih (fun l' hl' => hn l' (List.mem_cons_of_mem _ hl')) hrest
    exact ⟨fin, by rw [List.foldlM_cons, bind_ok_iff]; exact ⟨mid, hmid, hfin⟩⟩

/-- Once every table can be read, only the pool can refuse. -/
theorem loadModel_of_fetch {db : Database α} {names : TableNames} (hndim : names.ndim = 1)
    (hall : ∀ name, some name ∈ names.elems → ∃ l, fetch db name = .ok l) :
    loadModel db pool (some names) =
      (LoadCall.loads ⟨db, some names⟩).foldlM store pool := by
  unfold loadModel LoadCall.loads
  simp only [hndim, ne_eq, not_true_eq_false, if_false, Option.elim_some]
  generalize names.elems = elems at hall
  induction elems generalizing pool with
  | nil => rfl
  | cons e elems ih =>
    have hrest : ∀ pool : WeightPool α, elems.foldlM (loadRound db) pool =
        (elems.filterMap fun name => name.bind fun n => (fetch db n).toOption).foldlM store pool :=
      fun _ => ih fun name hname => hall name (.tail _ hname)
    cases e with
    | none =>
      rw [List.foldlM_cons]
      exact hrest pool
    | some name =>
      obtain ⟨l, hl⟩ := hall name (List.mem_cons_self ..)
      rw [List.filterMap_cons_some (b := l) (by simp [hl, Except.toOption])]
      simp only [List.foldlM_cons, loadRound, hl, hrest]
      rfl

end Runs

/-! ## Two runs -/

/-- A one-dimensional array. -/
def vector (xs : List Int) : ArrayType Int where
  dims := [xs.length]
  lbs := [1]
  data := xs
  outside := fun _ => 0
  hndim := by simp [MAXDIM]
  hlbs := rfl

/-- A call that loads one table holding two short vectors. -/
def loadVectors (name : Bytes) : LoadCall Int where
  db := fun _ => .ok ⟨SPI_OK_SELECT, some ⟨some (vector [1, 2, 3]), some (vector [4])⟩⟩
  arg := some ⟨1, [some name]⟩

theorem loads_loadVectors (name : Bytes) :
    [loadVectors name].flatMap LoadCall.loads = [⟨name, vector [1, 2, 3], vector [4]⟩] := rfl

theorem getWeight_conv196 :
    ∃ pool, loadAll create [loadVectors (ascii "Conv196_weight")] = .ok pool ∧
      pool.Holds (ascii "Conv196_weight" ++ Part.val.suffix) (vector [1, 2, 3]) := by
  refine ⟨_, rfl, getWeight_of_storable [loadVectors (ascii "Conv196_weight")] rfl ?_
    (ascii "Conv196_weight") ⟨ascii "Conv196_weight", vector [1, 2, 3], vector [4]⟩ rfl .val⟩
  rw [loads_loadVectors]
  refine ⟨?_, ?_⟩
  · intro l hl l' hl' part part' h
    rw [List.mem_singleton] at hl hl'
    subst hl hl'
    exact distinct_of_short (by decide) (by decide) h
  · intro l hl part
    rw [List.mem_singleton] at hl
    subst hl
    cases part <;> exact ⟨by decide, by decide⟩

/-- **A table with a 63-byte name loses its `val`**: both pool names are the table name
itself after truncation, and the `bias` is stored over it. -/
theorem getWeight_longName :
    ∃ pool, loadAll create [loadVectors (List.replicate 63 97)] = .ok pool ∧
      mostRecent ([loadVectors (List.replicate 63 97)].flatMap LoadCall.loads)
        (List.replicate 63 97) = some ⟨List.replicate 63 97, vector [1, 2, 3], vector [4]⟩ ∧
      ¬ pool.Holds (List.replicate 63 97 ++ Part.val.suffix) (vector [1, 2, 3]) := by
  refine ⟨_, rfl, by rw [loads_loadVectors]; rfl, ?_⟩
  rintro ⟨e, hget, hdata, -⟩
  cases hget
  exact absurd hdata (by decide)

end Peps
