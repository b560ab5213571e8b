import Mathlib.Algebra.BigOperators.Group.List.Basic
import Peps.Pool.LoadModel

/-!
# `db_executor.py` — weights written by an export, read back by `load_model`

`write_tensor_parallel` creates a table `(val REAL[][])` for each weight that has none and inserts
a row with a `val`. `load_model` reads `SELECT val, bias … LIMIT 1` and refuses a missing column or
a NULL. Writer and reader agree on `val` only: a table the writer creates has no `bias`, and in a
table that has one the inserted row leaves it at the column's default. Rows of earlier exports stay,
and without an `ORDER BY` any of them may be the one that is read.

So the weights can be read back for every choice of rows only if somebody else has prepared the
tables (`Ready`): with a `bias` column whose default is not NULL, and without a row for another
matrix. `loadsBack_prepared` is the part that holds of all inputs, `loadsBack_iff` the equivalence
where the pool itself has room and tells the names apart.
-/

namespace Peps

open Lib WeightPool

variable {α : Type}

/-! ## Tables -/

def valColumn : Bytes := ascii "val"
def biasColumn : Bytes := ascii "bias"

/-- A column with the value an `INSERT` that leaves it out gives it. -/
structure Column (α : Type) where
  name : Bytes
  default : Option (ArrayType α)

/-- The columns and the rows in the order of their insertion; an SQL NULL is `none`. -/
structure Table (α : Type) where
  columns : List (Column α)
  rows : List (List (Option (ArrayType α)))

namespace Table

/-- `CREATE TABLE … (val REAL[][])`. -/
def fresh : Table α := ⟨[⟨valColumn, none⟩], []⟩

def hasColumn (t : Table α) (column : Bytes) : Bool := t.columns.any fun c => c.name = column

/-- The value of a column in a row. -/
def cell (t : Table α) (row : List (Option (ArrayType α))) (column : Bytes) :
    Option (ArrayType α) :=
  (((t.columns.zip row).find? fun p => p.1.name = column).map Prod.snd).join

/-- The row of `INSERT INTO … (val) VALUES (v)`. -/
def newRow (t : Table α) (v : ArrayType α) : List (Option (ArrayType α)) :=
  t.columns.map fun c => if c.name = valColumn then some v else c.default

def insert (t : Table α) (v : ArrayType α) : Table α := { t with rows := t.rows ++ [t.newRow v] }

end Table

abbrev Tables (α : Type) := Bytes → Option (Table α)

def missingColumn (column : Bytes) : PgError :=
  .report "column \"%s\" does not exist" [column] []

/-! ## The writer -/

/-- A 2-D array without NULLs, as PostgreSQL holds it. -/
def IsMatrix (a : ArrayType α) : Prop :=
  ∃ r c : Nat, 0 < r ∧ 0 < c ∧ r * c ≤ MaxArraySize ∧ a.dims = [(r : Int), (c : Int)] ∧
    a.data.length = r * c

/-- `table_mapping_tensors`: a matrix for each of different table names. -/
structure Mapping (α : Type) where
  entries : List (Bytes × ArrayType α)
  hkeys : (entries.map Prod.fst).Nodup
  hnames : ∀ x ∈ entries, x.1.length < NAMEDATALEN
  hmatrix : ∀ x ∈ entries, IsMatrix x.2

/-- `CREATE TABLE IF NOT EXISTS name (val REAL[][])`. -/
def createTable (tables : Tables α) (name : Bytes) : Tables α :=
  if (tables name).isSome then tables else Function.update tables name (some Table.fresh)

/-- `INSERT INTO name (val) VALUES (v)`. -/
def insertInto (tables : Tables α) (name : Bytes) (v : ArrayType α) :
    Except PgError (Tables α) :=
  match tables name with
  | none => .error (.report "relation \"%s\" does not exist" [name] [])
  | some t =>
    if t.hasColumn valColumn then .ok (Function.update tables name (some (t.insert v)))
    else .error (missingColumn valColumn)

def writeTensorParallel (tables : Tables α) (m : Mapping α) : Except PgError (Tables α) :=
  m.entries.foldlM (fun tables x => insertInto tables x.1 x.2)
    (m.entries.foldl (fun tables x => createTable tables x.1) tables)

/-! ## The reader -/

/-- The table a query of `load_model` reads. -/
def tableOfQuery (query : Bytes) : Option Bytes :=
  let head := ascii "SELECT val, bias FROM "
  let foot := ascii " LIMIT 1;"
  let name := (query.drop head.length).take (query.length - head.length - foot.length)
  if query = head ++ name ++ foot then some name else none

/-- The answer, with `pick` for the row that `LIMIT 1` happens to leave. -/
def selectValBias (tables : Tables α) (pick : Bytes → Nat) (name : Bytes) :
    Except PgError (SpiResult α) :=
  match tables name with
  | none => .error (.report "relation \"%s\" does not exist" [name] [])
  | some t =>
    if ¬ t.hasColumn valColumn then .error (missingColumn valColumn)
    else if ¬ t.hasColumn biasColumn then .error (missingColumn biasColumn)
    else
      .ok ⟨SPI_OK_SELECT, (t.rows[pick name % t.rows.length]?).map fun row =>
        ⟨t.cell row valColumn, t.cell row biasColumn⟩⟩

def selectFrom (tables : Tables α) (pick : Bytes → Nat) : Database α := fun query =>
  match tableOfQuery query with
  | none => .error (.report "syntax error" [] [])
  | some name => selectValBias tables pick name

/-- The table names as an array; one without elements has no dimension. -/
def Mapping.tableNames (m : Mapping α) : TableNames where
  ndim := if m.entries = [] then 0 else 1
  elems := m.entries.map fun x => some x.1

/-- After the calls, the weights of the last one can be loaded whatever rows are read. -/
def LoadsBack (tables : Tables α) (m : Mapping α) : Prop :=
  ∀ pick, ∃ pool, loadModel (selectFrom tables pick) create (some m.tableNames) = .ok pool ∧
    ∀ x ∈ m.entries, pool.Holds (x.1 ++ Part.val.suffix) x.2

/-! ## What the writer leaves behind -/

theorem createTable_apply (tables : Tables α) (name other : Bytes) :
    createTable tables name other =
      if other = name then some ((tables name).getD Table.fresh) else tables other := by
  unfold createTable
  by_cases hother : other = name
  · subst hother
    cases htable : tables other <;> simp [htable]
  · cases htable : tables name <;> simp [hother]

theorem foldl_createTable (entries : List (Bytes × ArrayType α)) (tables : Tables α) (name : Bytes) :
    entries.foldl (fun tables x => createTable tables x.1) tables name =
      if name ∈ entries.map Prod.fst then some ((tables name).getD Table.fresh) else tables name := by
  induction entries generalizing tables with
  | nil => simp
  | cons x entries ih =>
    rw [List.foldl_cons, ih, createTable_apply]
    by_cases hx : name = x.1
    · subst hx
      simp
    · have hmem : name ∈ (x :: entries).map Prod.fst ↔ name ∈ entries.map Prod.fst := by
        rw [List.map_cons, List.mem_cons, or_iff_right hx]
      simp only [hmem, if_neg hx]

theorem insertInto_ok {tables tables' : Tables α} {name : Bytes} {v : ArrayType α}
    (h : insertInto tables name v = .ok tables') :
    ∃ t, tables name = some t ∧ t.hasColumn valColumn ∧
      tables' = Function.update tables name (some (t.insert v)) := by
  unfold insertInto at h
  split at h
  · cases h
  · next t htable =>
    split at h
    · next hcol => exact ⟨t, htable, hcol, (Except.ok.inj h).symm⟩
    · cases h

/-- The inserts of different tables do not touch each other. -/
theorem foldlM_insertInto {entries : List (Bytes × ArrayType α)} {tables tables' : Tables α}
    (hkeys : (entries.map Prod.fst).Nodup)
    (h : entries.foldlM (fun tables x => insertInto tables x.1 x.2) tables = .ok tables') :
    (∀ x ∈ entries, ∃ t, tables x.1 = some t ∧ t.hasColumn valColumn ∧
      tables' x.1 = some (t.insert x.2)) ∧
    ∀ name, name ∉ entries.map Prod.fst → tables' name = tables name := by
  induction entries generalizing tables with
  | nil =>
    cases h
    exact ⟨fun x hx => absurd hx List.not_mem_nil, fun _ _ => rfl⟩
  | cons x entries ih =>
    obtain ⟨hx, hkeys⟩ := List.nodup_cons.mp hkeys
    rw [List.foldlM_cons, bind_ok_iff] at h
    obtain ⟨mid, hins, hrest⟩ := h
    obtain ⟨t, htable, hcol, rfl⟩ := insertInto_ok hins
    obtain ⟨hall, hframe⟩ := ih hkeys hrest
    refine ⟨fun y hy => ?_, fun name hname => ?_⟩
    · rcases List.mem_cons.mp hy with rfl | hy
      · exact ⟨t, htable, hcol, by rw [hframe _ hx, Function.update_self]⟩
      · obtain ⟨t', ht', hrest'⟩ := hall y hy
        have hne : y.1 ≠ x.1 := fun heq => hx (heq ▸ List.mem_map_of_mem hy)
        rw [Function.update_of_ne hne] at ht'
        exact ⟨t', ht', hrest'⟩
    · rw [List.map_cons, List.mem_cons, not_or] at hname
      rw [hframe name hname.2, Function.update_of_ne hname.1]

/-- The matrices that a run of exports writes to a table. -/
def writes (calls : List (Mapping α)) (name : Bytes) : List (ArrayType α) :=
  calls.flatMap fun m => (m.entries.filter fun x => x.1 = name).map Prod.snd

/-- A run of exports. -/
def exportAll (tables : Tables α) (calls : List (Mapping α)) : Except PgError (Tables α) :=
  calls.foldlM writeTensorParallel tables

/-- A table after the inserts `vs`. -/
def Table.inserts (t : Table α) (vs : List (ArrayType α)) : Table α :=
  { t with rows := t.rows ++ vs.map t.newRow }

theorem filter_key {entries : List (Bytes × ArrayType α)} (hkeys : (entries.map Prod.fst).Nodup)
    {x : Bytes × ArrayType α} (hx : x ∈ entries) : (entries.filter fun y => y.1 = x.1) = [x] := by
  induction entries with
  | nil => cases hx
  | cons y entries ih =>
    obtain ⟨hy, hkeys⟩ := List.nodup_cons.mp hkeys
    rcases List.mem_cons.mp hx with rfl | hx
    · rw [List.filter_cons_of_pos (by simp), List.filter_eq_nil_iff.mpr]
      intro z hz hzx
      exact hy (of_decide_eq_true hzx ▸ List.mem_map_of_mem hz)
    · have hne : y.1 ≠ x.1 := fun heq => hy (heq ▸ List.mem_map_of_mem hx)
      rw [List.filter_cons_of_neg (by simpa using hne), ih hkeys hx]

/-- **One export** adds a row to each of its tables, new or old. -/
theorem writeTensorParallel_ok {tables tables' : Tables α} {m : Mapping α}
    (h : writeTensorParallel tables m = .ok tables') (name : Bytes) :
    (writes [m] name = [] ∧ tables' name = tables name) ∨
      ((tables name).getD Table.fresh).hasColumn valColumn ∧ ∃ v, writes [m] name = [v] ∧
        tables' name = some (((tables name).getD Table.fresh).inserts [v]) := by
  obtain ⟨hall, hframe⟩ := foldlM_insertInto m.hkeys h
  have hwrites : writes [m] name = (m.entries.filter fun x => x.1 = name).map Prod.snd := by
    simp [writes]
  by_cases hmem : name ∈ m.entries.map Prod.fst
  · obtain ⟨x, hx, rfl⟩ := List.mem_map.mp hmem
    obtain ⟨t, htable, hcol, hafter⟩ := hall x hx
    rw [foldl_createTable, if_pos hmem, Option.some.injEq] at htable
    subst htable
    exact .inr ⟨hcol, x.2, by rw [hwrites, filter_key m.hkeys hx]; rfl, hafter⟩
  · refine .inl ⟨?_, ?_⟩
    · rw [hwrites, List.filter_eq_nil_iff.mpr]
      · rfl
      · intro x hx hname
        exact hmem (of_decide_eq_true hname ▸ List.mem_map_of_mem hx)
    · rw [hframe name hmem, foldl_createTable, if_neg hmem]

theorem writes_append (calls calls' : List (Mapping α)) (name : Bytes) :
    writes (calls ++ calls') name = writes calls name ++ writes calls' name :=
  List.flatMap_append

/-- **A run of exports** keeps the tables there were, with their columns and rows, and adds a
row for each matrix. -/
theorem exportAll_ok {tables tables' : Tables α} {calls : List (Mapping α)}
    (h : exportAll tables calls = .ok tables') (name : Bytes) :
    (writes calls name = [] ∧ tables' name = tables name) ∨
      ((tables name).getD Table.fresh).hasColumn valColumn ∧ writes calls name ≠ [] ∧
        tables' name = some (((tables name).getD Table.fresh).inserts (writes calls name)) := by
  induction calls using List.reverseRecOn generalizing tables' with
  | nil =>
    cases h
    exact .inl ⟨rfl, rfl⟩
  | append_singleton calls m ih =>
    rw [exportAll, List.foldlM_append, bind_ok_iff] at h
    obtain ⟨mid, hmid, hlast⟩ := h
    rw [List.foldlM_cons, bind_ok_iff] at hlast
    obtain ⟨fin, hwrite, hfin⟩ := hlast
    cases hfin
    rw [writes_append]
    rcases ih hmid with ⟨hnil, hsame⟩ | ⟨hcol, hne, hafter⟩
    · rcases writeTensorParallel_ok hwrite name with ⟨hnil', hsame'⟩ | ⟨hcol', v, hv, hafter'⟩
      · exact .inl ⟨by rw [hnil, hnil', List.append_nil], hsame'.trans hsame⟩
      · rw [hsame] at hcol' hafter'
        exact .inr ⟨hcol', by simp [hv], by rw [hnil, hv]; exact hafter'⟩
    · rcases writeTensorParallel_ok hwrite name with ⟨hnil', hsame'⟩ | ⟨-, v, hv, hafter'⟩
      · exact .inr ⟨hcol, by simp [hne], by rw [hnil', List.append_nil, hsame', hafter]⟩
      · refine .inr ⟨hcol, by simp [hv], ?_⟩
        rw [hafter', hafter, hv]
        simp [Table.inserts]
        rfl

/-! ## What the reader finds -/

/-- What an insert that leaves `bias` out puts there. -/
def Table.biasDefault (t : Table α) : Option (ArrayType α) :=
  ((t.columns.find? fun c => c.name = biasColumn).map Column.default).join

theorem cell_map (t : Table α) (f : Column α → Option (ArrayType α)) (column : Bytes) :
    t.cell (t.columns.map f) column =
      ((t.columns.find? fun c => c.name = column).map f).join := by
  have hzip : t.columns.zip (t.columns.map f) = t.columns.map fun c => (c, f c) := by
    induction t.columns with
    | nil => rfl
    | cons c columns ih => simp [ih]
  rw [Table.cell, hzip, List.find?_map, Option.map_map]
  rfl

theorem cell_newRow_bias (t : Table α) (v : ArrayType α) :
    t.cell (t.newRow v) biasColumn = t.biasDefault := by
  have hne : biasColumn ≠ valColumn := by decide
  rw [Table.newRow, cell_map, Table.biasDefault]
  cases hfind : t.columns.find? fun c => decide (c.name = biasColumn) with
  | none => rfl
  | some c =>
    have hname : c.name = biasColumn := by simpa using List.find?_some hfind
    simp [hname, hne]

theorem cell_newRow_val {t : Table α} (hcol : t.hasColumn valColumn) (v : ArrayType α) :
    t.cell (t.newRow v) valColumn = some v := by
  rw [Table.newRow, cell_map]
  cases hfind : t.columns.find? fun c => decide (c.name = valColumn) with
  | none =>
    obtain ⟨c, hc, hname⟩ := List.any_eq_true.mp hcol
    exact absurd hname (List.find?_eq_none.mp hfind c hc)
  | some c =>
    have hname : c.name = valColumn := by simpa using List.find?_some hfind
    simp [hname]

theorem tableOfQuery_queryText {name : Bytes} (hname : name.length < NAMEDATALEN) :
    tableOfQuery (queryText name) = some name := by
  have hhead : (ascii "SELECT val, bias FROM ").length = 22 := by decide
  have hfoot : (ascii " LIMIT 1;").length = 9 := by decide
  have hwhole : queryText name = ascii "SELECT val, bias FROM " ++ name ++ ascii " LIMIT 1;" := by
    refine List.take_of_length_le ?_
    simp only [List.length_append, hhead, hfoot, NAMEDATALEN] at hname ⊢
    omega
  have hmid : ((queryText name).drop (ascii "SELECT val, bias FROM ").length).take
      ((queryText name).length - (ascii "SELECT val, bias FROM ").length
        - (ascii " LIMIT 1;").length) = name := by
    rw [hwhole, List.append_assoc, List.drop_left, List.take_append_of_le_length]
    · rw [List.take_of_length_le]
      simp only [List.length_append]
      omega
    · simp only [List.length_append]
      omega
  unfold tableOfQuery
  simp only [hmid]
  exact if_pos hwhole

theorem selectFrom_queryText (tables : Tables α) (pick : Bytes → Nat) {name : Bytes}
    (hname : name.length < NAMEDATALEN) :
    selectFrom tables pick (queryText name) = selectValBias tables pick name := by
  unfold selectFrom
  rw [tableOfQuery_queryText hname]

/-- What a load of a table needs, and what it gives. -/
theorem fetch_ok_iff {tables : Tables α} {pick : Bytes → Nat} {name : Bytes}
    (hname : name.length < NAMEDATALEN) {l : Load α} :
    fetch (selectFrom tables pick) name = .ok l ↔
      l.name = name ∧ ∃ t row, tables name = some t ∧ t.hasColumn valColumn ∧
        t.hasColumn biasColumn ∧ t.rows[pick name % t.rows.length]? = some row ∧
        t.cell row valColumn = some l.val ∧ t.cell row biasColumn = some l.bias := by
  obtain ⟨lname, lval, lbias⟩ := l
  unfold fetch
  rw [selectFrom_queryText tables pick hname]
  unfold selectValBias
  cases htable : tables name with
  | none => simp [bind, Except.bind]
  | some t =>
    by_cases hval : t.hasColumn valColumn
    · by_cases hbias : t.hasColumn biasColumn
      · cases hrow : t.rows[pick name % t.rows.length]? with
        | none => simp [bind, Except.bind, hval, hbias, hrow]
        | some row =>
          cases hcval : t.cell row valColumn with
          | none => simp [bind, Except.bind, hval, hbias, hrow, hcval]
          | some a =>
            cases hcbias : t.cell row biasColumn with
            | none => simp [bind, Except.bind, hval, hbias, hrow, hcval, hcbias]
            | some b =>
              simp only [bind, Except.bind, hval, hbias, hrow, hcval, hcbias, not_true_eq_false,
                if_false, Option.map_some, ne_eq, Except.ok.injEq, Load.mk.injEq,
                Option.some.injEq, exists_and_left, exists_eq_left', true_and]
              exact ⟨fun ⟨hn, hrest⟩ => ⟨hn.symm, hrest⟩, fun ⟨hn, hrest⟩ => ⟨hn.symm, hrest⟩⟩
      · simp [bind, Except.bind, hval, hbias]
    · simp [bind, Except.bind, hval]

/-- A successful `load_model` has fetched every table. -/
theorem fetch_of_loadModel {db : Database α} {pool pool' : WeightPool α} {names : TableNames}
    (h : loadModel db pool (some names) = .ok pool') {name : Bytes}
    (hname : some name ∈ names.elems) : ∃ l, fetch db name = .ok l := by
  unfold loadModel at h
  rw [guard_ok_iff] at h
  obtain ⟨-, h⟩ := h
  generalize names.elems = elems at h hname
  induction elems generalizing pool with
  | nil => cases hname
  | cons e elems ih =>
    rw [List.foldlM_cons, bind_ok_iff] at h
    obtain ⟨mid, hround, hrest⟩ := h
    rcases List.mem_cons.mp hname with rfl | hname
    · rw [loadRound, bind_ok_iff] at hround
      obtain ⟨l, hl, -⟩ := hround
      exact ⟨l, hl⟩
    · exact ih hrest hname

/-! ## Prepared tables -/

/-- The two arrays are one to a reader of the pool. -/
def SameArray (a b : ArrayType α) : Prop := a.dims = b.dims ∧ a.data = b.data

/-- There was a table with a `bias` column whose default is not NULL. -/
def Prepared (tables : Tables α) (name : Bytes) : Prop :=
  ∃ t, tables name = some t ∧ t.biasDefault.isSome

/-- The table was prepared for `v` alone: no row of it, and no matrix that is written to it,
is another one. -/
def Ready (tables : Tables α) (calls : List (Mapping α)) (name : Bytes) (v : ArrayType α) : Prop :=
  ∃ t, tables name = some t ∧ t.biasDefault.isSome ∧
    (∀ row ∈ t.rows, (∃ a, t.cell row valColumn = some a ∧ SameArray a v) ∧
      (t.cell row biasColumn).isSome) ∧
    ∀ v' ∈ writes calls name, SameArray v' v

theorem hasColumn_of_biasDefault {t : Table α} (h : t.biasDefault.isSome) :
    t.hasColumn biasColumn := by
  unfold Table.biasDefault at h
  cases hfind : t.columns.find? fun c => decide (c.name = biasColumn) with
  | none => rw [hfind] at h; cases h
  | some c =>
    have hname := List.find?_some hfind
    exact List.any_eq_true.mpr ⟨c, List.mem_of_find?_eq_some hfind, hname⟩

theorem mem_writes {calls : List (Mapping α)} {name : Bytes} {v : ArrayType α}
    (h : v ∈ writes calls name) : ∃ m ∈ calls, (name, v) ∈ m.entries := by
  obtain ⟨m, hm, hv⟩ := List.mem_flatMap.mp h
  obtain ⟨x, hx, rfl⟩ := List.mem_map.mp hv
  obtain ⟨hx, hname⟩ := List.mem_filter.mp hx
  exact ⟨m, hm, of_decide_eq_true hname ▸ hx⟩

section LastCall

variable {tables tables' : Tables α} {earlier : List (Mapping α)} {m : Mapping α}

theorem mem_writes_last {x : Bytes × ArrayType α} (hx : x ∈ m.entries) :
    x.2 ∈ writes (earlier ++ [m]) x.1 := by
  refine List.mem_flatMap.mpr ⟨m, by simp, List.mem_map_of_mem (List.mem_filter.mpr ⟨hx, ?_⟩)⟩
  simp

/-- The table of a weight after the calls: what it was, and a row for each matrix. -/
theorem table_after (hrun : exportAll tables (earlier ++ [m]) = .ok tables')
    {x : Bytes × ArrayType α} (hx : x ∈ m.entries) :
    ((tables x.1).getD Table.fresh).hasColumn valColumn ∧
      tables' x.1 = some (((tables x.1).getD Table.fresh).inserts (writes (earlier ++ [m]) x.1)) := by
  rcases exportAll_ok hrun x.1 with ⟨hnil, -⟩ | ⟨hcol, -, hafter⟩
  · have hmem : x.2 ∈ writes (earlier ++ [m]) x.1 := mem_writes_last hx
    rw [hnil] at hmem
    cases hmem
  · exact ⟨hcol, hafter⟩

/-- If the weights can be loaded whatever is read, then from each row. -/
theorem load_of_row (hback : LoadsBack tables' m) {x : Bytes × ArrayType α} (hx : x ∈ m.entries)
    {t : Table α} (ht : tables' x.1 = some t) {i : Nat} {row : List (Option (ArrayType α))}
    (hrow : t.rows[i]? = some row) :
    ∃ pool l, loadModel (selectFrom tables' fun _ => i) create (some m.tableNames) = .ok pool ∧
      pool.Holds (x.1 ++ Part.val.suffix) x.2 ∧ fetch (selectFrom tables' fun _ => i) x.1 = .ok l ∧
      t.cell row valColumn = some l.val ∧ t.cell row biasColumn = some l.bias := by
  obtain ⟨pool, hload, hholds⟩ := hback fun _ => i
  obtain ⟨l, hl⟩ := fetch_of_loadModel hload (List.mem_map.mpr ⟨x, hx, rfl⟩)
  obtain ⟨-, t', row', ht', -, -, hrow', hval, hbias⟩ := (fetch_ok_iff (m.hnames x hx)).mp hl
  obtain rfl : t = t' := Option.some.inj (ht.symm.trans ht')
  rw [Nat.mod_eq_of_lt (List.getElem?_eq_some_iff.mp hrow).1, hrow, Option.some.injEq] at hrow'
  subst hrow'
  exact ⟨pool, l, hload, hholds x hx, hl, hval, hbias⟩

/-- **For all inputs**: without tables that somebody else has prepared, there is a row from
which the weights cannot be loaded. -/
theorem loadsBack_prepared (hrun : exportAll tables (earlier ++ [m]) = .ok tables')
    (hback : LoadsBack tables' m) :
    m.entries ≠ [] ∧ ∀ x ∈ m.entries, Prepared tables x.1 := by
  constructor
  · -- an array of no names has no dimension
    intro hnil
    obtain ⟨pool, hload, -⟩ := hback fun _ => 0
    unfold loadModel at hload
    rw [guard_ok_iff] at hload
    exact hload.1 (by simp [Mapping.tableNames, hnil])
  · intro x hx
    obtain ⟨-, hafter⟩ := table_after hrun hx
    -- the row that was inserted last
    have hmem : (((tables x.1).getD Table.fresh).newRow x.2) ∈
        (((tables x.1).getD Table.fresh).inserts (writes (earlier ++ [m]) x.1)).rows :=
      List.mem_append_right _ (List.mem_map_of_mem (mem_writes_last hx))
    obtain ⟨i, hi⟩ := List.getElem?_of_mem hmem
    obtain ⟨-, l, -, -, -, -, hbias⟩ := load_of_row hback hx hafter hi
    have hdefault : ((tables x.1).getD Table.fresh).biasDefault = some l.bias := by
      rw [← cell_newRow_bias _ x.2]
      exact hbias
    cases htable : tables x.1 with
    | none =>
      rw [htable] at hdefault
      exact absurd hdefault (by simp [Table.fresh, Table.biasDefault, valColumn, biasColumn, ascii])
    | some t =>
      rw [htable] at hdefault
      exact ⟨t, htable, by rw [show t.biasDefault = some l.bias from hdefault]; rfl⟩

/-! ## A pool that takes them -/

theorem IsMatrix.fits {a : ArrayType α} (h : IsMatrix a) :
    Fits a ∧ ∃ n, arrayGetNItems a.dims = .ok n := by
  obtain ⟨r, c, hr, hc, hle, hdims, hdata⟩ := h
  have hshape : a.dims = [r, c].map Int.ofNat := hdims
  have hprod : [r, c].prod = r * c := by simp
  refine ⟨⟨by simp [ArrayType.ndim, hdims, MAX_DIMS], ?_⟩, [r, c].prod, ?_⟩
  · rw [hdata, hdims]
    simp [nitems]
  · rw [hshape]
    refine arrayGetNItems_of_le [r, c] (by simp) ?_ (by rw [hprod]; exact hle)
    intro d hd
    rcases List.mem_cons.mp hd with rfl | hd
    · exact hr
    · exact List.mem_singleton.mp hd ▸ hc

/-- The array stands in a row, or is what the next row gets as its `bias`. -/
def Table.Contains (t : Table α) (a : ArrayType α) : Prop :=
  (∃ row ∈ t.rows, t.cell row valColumn = some a ∨ t.cell row biasColumn = some a) ∨
    t.biasDefault = some a

/-- The limits of the pool are out of reach: no name is truncated, every array there was fits an
entry and has at most `size` elements, and there is memory for all of them. -/
structure Roomy (tables : Tables α) (m : Mapping α) (size : Bytes → Nat) : Prop where
  short : ∀ x ∈ m.entries, x.1.length ≤ 58
  arrays : ∀ x ∈ m.entries, ∀ t, tables x.1 = some t → ∀ a, t.Contains a →
    (Fits a ∧ ∃ n, arrayGetNItems a.dims = .ok n) ∧ nitems a.dims ≤ size x.1
  room : LRU_CACHE_SIZE +
    (m.entries.map fun x => nitems x.2.dims * 4 + size x.1 * 4).sum ≤ POOL_SIZE

/-- The arrays that are read come from a row there was, or are a matrix of the run and the
default. -/
theorem fetch_after (hrun : exportAll tables (earlier ++ [m]) = .ok tables')
    {x : Bytes × ArrayType α} (hx : x ∈ m.entries) {t : Table α} (ht : tables x.1 = some t)
    {pick : Bytes → Nat} {l : Load α} (hl : fetch (selectFrom tables' pick) x.1 = .ok l) :
    (∃ row ∈ t.rows, t.cell row valColumn = some l.val ∧ t.cell row biasColumn = some l.bias) ∨
      l.val ∈ writes (earlier ++ [m]) x.1 ∧ t.biasDefault = some l.bias := by
  obtain ⟨hcol, hafter⟩ := table_after hrun hx
  rw [ht, Option.getD_some] at hcol hafter
  obtain ⟨-, t', row, ht', -, -, hrow, hval, hbias⟩ := (fetch_ok_iff (m.hnames x hx)).mp hl
  obtain rfl : t.inserts (writes (earlier ++ [m]) x.1) = t' :=
    Option.some.inj (hafter.symm.trans ht')
  rcases List.mem_append.mp (List.mem_of_getElem? hrow) with hold | hnew
  · exact .inl ⟨row, hold, hval, hbias⟩
  · obtain ⟨v, hv, rfl⟩ := List.mem_map.mp hnew
    have hval : t.cell (t.newRow v) valColumn = some l.val := hval
    rw [cell_newRow_val hcol, Option.some.injEq] at hval
    exact .inr ⟨hval ▸ hv, (cell_newRow_bias t v).symm.trans hbias⟩

/-- Whatever is read fits the pool. -/
theorem fits_after (hrun : exportAll tables (earlier ++ [m]) = .ok tables')
    {size : Bytes → Nat} (hroomy : Roomy tables m size)
    {x : Bytes × ArrayType α} (hx : x ∈ m.entries) {t : Table α} (ht : tables x.1 = some t)
    {pick : Bytes → Nat} {l : Load α} (hl : fetch (selectFrom tables' pick) x.1 = .ok l) :
    (∀ part, Fits (l.array part) ∧ ∃ n, arrayGetNItems (l.array part).dims = .ok n) ∧
      nitems l.bias.dims ≤ size x.1 := by
  rcases fetch_after hrun hx ht hl with ⟨row, hrow, hval, hbias⟩ | ⟨hval, hbias⟩
  · have hthere := hroomy.arrays x hx t ht
    refine ⟨fun part => ?_, (hthere l.bias (.inl ⟨row, hrow, .inr hbias⟩)).2⟩
    cases part with
    | val => exact (hthere l.val (.inl ⟨row, hrow, .inl hval⟩)).1
    | bias => exact (hthere l.bias (.inl ⟨row, hrow, .inr hbias⟩)).1
  · have hdefault := hroomy.arrays x hx t ht l.bias (.inr hbias)
    refine ⟨fun part => ?_, hdefault.2⟩
    cases part with
    | val =>
      obtain ⟨m', -, hmem⟩ := mem_writes hval
      exact (m'.hmatrix _ hmem).fits
    | bias => exact hdefault.1

theorem mem_loads {db : Database α} {l : Load α} :
    l ∈ LoadCall.loads ⟨db, some m.tableNames⟩ ↔ ∃ x ∈ m.entries, fetch db x.1 = .ok l := by
  simp only [LoadCall.loads, Mapping.tableNames, Option.elim_some, List.filterMap_map,
    List.mem_filterMap, Function.comp_apply, Option.bind_some, toOption_eq_some]

theorem sum_bytes_le {db : Database α} {bound : Bytes × ArrayType α → Nat}
    (h : ∀ x ∈ m.entries, ∀ l, fetch db x.1 = .ok l → l.bytes ≤ bound x) :
    ((LoadCall.loads ⟨db, some m.tableNames⟩).map Load.bytes).sum ≤ (m.entries.map bound).sum := by
  simp only [LoadCall.loads, Mapping.tableNames, Option.elim_some]
  generalize m.entries = entries at h
  induction entries with
  | nil => exact Nat.le_refl _
  | cons x entries ih =>
    have hrest := ih fun y hy => h y (List.mem_cons_of_mem _ hy)
    rw [List.map_cons, List.map_cons, List.sum_cons]
    cases hfetch : fetch db x.1 with
    | error e =>
      rw [List.filterMap_cons_none (by simp [hfetch, Except.toOption])]
      exact Nat.le_add_left_of_le hrest
    | ok l =>
      rw [List.filterMap_cons_some (b := l) (by simp [hfetch, Except.toOption]), List.map_cons,
        List.sum_cons]
      exact Nat.add_le_add (h x (List.mem_cons_self ..) l hfetch) hrest

theorem name_of_fetch {pick : Bytes → Nat} {x : Bytes × ArrayType α} (hx : x ∈ m.entries)
    {l : Load α} (hl : fetch (selectFrom tables' pick) x.1 = .ok l) : l.name = x.1 :=
  ((fetch_ok_iff (m.hnames x hx)).mp hl).1

/-- The loads of the call can be told apart and fit. -/
theorem storable_after (hrun : exportAll tables (earlier ++ [m]) = .ok tables')
    {size : Bytes → Nat} (hroomy : Roomy tables m size)
    (hprepared : ∀ x ∈ m.entries, Prepared tables x.1) (pick : Bytes → Nat) :
    Storable (LoadCall.loads ⟨selectFrom tables' pick, some m.tableNames⟩) := by
  constructor
  · intro l hl l' hl' part part' hkey
    obtain ⟨x, hx, hfetch⟩ := mem_loads.mp hl
    obtain ⟨y, hy, hfetch'⟩ := mem_loads.mp hl'
    rw [name_of_fetch hx hfetch, name_of_fetch hy hfetch'] at hkey ⊢
    exact distinct_of_short (hroomy.short x hx) (hroomy.short y hy) hkey
  · intro l hl part
    obtain ⟨x, hx, hfetch⟩ := mem_loads.mp hl
    obtain ⟨t, ht, -⟩ := hprepared x hx
    exact ((fits_after hrun hroomy hx ht hfetch).1 part).1

/-- A call that succeeds leaves in the pool what it has read. -/
theorem holds_after (hrun : exportAll tables (earlier ++ [m]) = .ok tables')
    {size : Bytes → Nat} (hroomy : Roomy tables m size)
    (hprepared : ∀ x ∈ m.entries, Prepared tables x.1) {pick : Bytes → Nat} {pool : WeightPool α}
    (hload : loadModel (selectFrom tables' pick) create (some m.tableNames) = .ok pool)
    {x : Bytes × ArrayType α} (hx : x ∈ m.entries) {l : Load α}
    (hl : fetch (selectFrom tables' pick) x.1 = .ok l) :
    pool.Holds (x.1 ++ Part.val.suffix) l.val := by
  have hmem : l ∈ LoadCall.loads ⟨selectFrom tables' pick, some m.tableNames⟩ :=
    mem_loads.mpr ⟨x, hx, hl⟩
  have hrecent :
      mostRecent (LoadCall.loads ⟨selectFrom tables' pick, some m.tableNames⟩) x.1 = some l := by
    cases hfind : mostRecent (LoadCall.loads ⟨selectFrom tables' pick, some m.tableNames⟩) x.1 with
    | none =>
      have hnone := List.find?_eq_none.mp hfind l (List.mem_reverse.mpr hmem)
      exact absurd (by simpa using name_of_fetch hx hl) hnone
    | some l' =>
      -- it is a load of the same table
      obtain ⟨hmem', hname'⟩ := mem_of_mostRecent hfind
      obtain ⟨y, hy, hfetch⟩ := mem_loads.mp hmem'
      rw [name_of_fetch hy hfetch] at hname'
      rw [hname', hl] at hfetch
      exact congrArg some (Except.ok.inj hfetch).symm
  exact foldlM_store_current (storable_after hrun hroomy hprepared pick)
    (loadModel_loads (c := ⟨selectFrom tables' pick, some m.tableNames⟩) hload) x.1 l .val hrecent

/-- From prepared tables every row can be read, and gives the matrix. -/
theorem fetch_of_ready (hrun : exportAll tables (earlier ++ [m]) = .ok tables')
    {x : Bytes × ArrayType α} (hx : x ∈ m.entries)
    (hready : Ready tables (earlier ++ [m]) x.1 x.2) (pick : Bytes → Nat) :
    ∃ l, fetch (selectFrom tables' pick) x.1 = .ok l ∧ SameArray l.val x.2 := by
  obtain ⟨t, ht, hdefault, hrows, hwrites⟩ := hready
  obtain ⟨hcol, hafter⟩ := table_after hrun hx
  rw [ht, Option.getD_some] at hcol hafter
  -- there is a row, and it is an old one or a new one
  have hpos : 0 < (t.inserts (writes (earlier ++ [m]) x.1)).rows.length :=
    List.length_pos_of_mem (List.mem_append_right _ (List.mem_map_of_mem (mem_writes_last hx)))
  obtain ⟨row, hrow⟩ : ∃ row, (t.inserts (writes (earlier ++ [m]) x.1)).rows[pick x.1 %
      (t.inserts (writes (earlier ++ [m]) x.1)).rows.length]? = some row :=
    ⟨_, List.getElem?_eq_getElem (Nat.mod_lt _ hpos)⟩
  obtain ⟨a, b, hval, hbias, hsame⟩ : ∃ a b, t.cell row valColumn = some a ∧
      t.cell row biasColumn = some b ∧ SameArray a x.2 := by
    rcases List.mem_append.mp (List.mem_of_getElem? hrow) with hold | hnew
    · obtain ⟨⟨a, ha, hsame⟩, hb⟩ := hrows row hold
      obtain ⟨b, hb⟩ := Option.isSome_iff_exists.mp hb
      exact ⟨a, b, ha, hb, hsame⟩
    · obtain ⟨v, hv, rfl⟩ := List.mem_map.mp hnew
      obtain ⟨b, hb⟩ := Option.isSome_iff_exists.mp hdefault
      exact ⟨v, b, cell_newRow_val hcol v, (cell_newRow_bias t v).trans hb, hwrites v hv⟩
  refine ⟨⟨x.1, a, b⟩, (fetch_ok_iff (m.hnames x hx)).mpr ⟨rfl, _, row, hafter, hcol, ?_, hrow,
    hval, hbias⟩, hsame⟩
  exact hasColumn_of_biasDefault hdefault

theorem Ready.prepared {calls : List (Mapping α)} {name : Bytes} {v : ArrayType α}
    (h : Ready tables calls name v) : Prepared tables name := by
  obtain ⟨t, ht, hdefault, -⟩ := h
  exact ⟨t, ht, hdefault⟩

theorem loadsBack_of_ready (hrun : exportAll tables (earlier ++ [m]) = .ok tables')
    {size : Bytes → Nat} (hroomy : Roomy tables m size) (hne : m.entries ≠ [])
    (hready : ∀ x ∈ m.entries, Ready tables (earlier ++ [m]) x.1 x.2) : LoadsBack tables' m := by
  intro pick
  have hprepared : ∀ x ∈ m.entries, Prepared tables x.1 := fun x hx => (hready x hx).prepared
  have hfetch : ∀ name, some name ∈ m.tableNames.elems →
      ∃ l, fetch (selectFrom tables' pick) name = .ok l := by
    intro name hname
    obtain ⟨x, hx, hxname⟩ := List.mem_map.mp hname
    obtain ⟨l, hl, -⟩ := fetch_of_ready hrun hx (hready x hx) pick
    exact ⟨l, Option.some.inj hxname ▸ hl⟩
  obtain ⟨pool, hpool⟩ : ∃ pool, (LoadCall.loads ⟨selectFrom tables' pick, some m.tableNames⟩).foldlM
      store (create : WeightPool α) = .ok pool := by
    refine foldlM_store_of_room ?_ (Nat.le_trans (Nat.add_le_add_left ?_ _) hroomy.room)
    · intro l hl part
      obtain ⟨x, hx, hl⟩ := mem_loads.mp hl
      obtain ⟨t, ht, -⟩ := hprepared x hx
      exact ((fits_after hrun hroomy hx ht hl).1 part).2
    · have hbytes : ∀ x ∈ m.entries, ∀ l, fetch (selectFrom tables' pick) x.1 = .ok l →
          l.bytes ≤ nitems x.2.dims * 4 + size x.1 * 4 := by
        intro x hx l hl
        obtain ⟨t, ht, -⟩ := hprepared x hx
        obtain ⟨l', hl', hsame⟩ := fetch_of_ready hrun hx (hready x hx) pick
        obtain rfl : l' = l := Except.ok.inj (hl'.symm.trans hl)
        unfold Load.bytes
        rw [hsame.1]
        exact Nat.add_le_add_left (Nat.mul_le_mul_right _ (fits_after hrun hroomy hx ht hl).2) _
      exact sum_bytes_le hbytes
  have hload : loadModel (selectFrom tables' pick) create (some m.tableNames) = .ok pool := by
    rw [loadModel_of_fetch (by simp [Mapping.tableNames, hne]) hfetch]
    exact hpool
  refine ⟨pool, hload, fun x hx => ?_⟩
  obtain ⟨l, hl, hdims, hdata⟩ := fetch_of_ready hrun hx (hready x hx) pick
  obtain ⟨e, hget, hedata, hndims, hedims⟩ := holds_after hrun hroomy hprepared hload hx hl
  exact ⟨e, hget, hedata.trans hdata, hndims.trans (congrArg List.length hdims),
    hedims.trans hdims⟩

/-- Each row of each table must be the matrix. -/
theorem ready_of_loadsBack (hrun : exportAll tables (earlier ++ [m]) = .ok tables')
    {size : Bytes → Nat} (hroomy : Roomy tables m size) (hback : LoadsBack tables' m)
    {x : Bytes × ArrayType α} (hx : x ∈ m.entries) : Ready tables (earlier ++ [m]) x.1 x.2 := by
  have hprepared := (loadsBack_prepared hrun hback).2
  obtain ⟨t, ht, hdefault⟩ := hprepared x hx
  obtain ⟨hcol, hafter⟩ := table_after hrun hx
  rw [ht, Option.getD_some] at hcol hafter
  have hrow : ∀ row ∈ (t.inserts (writes (earlier ++ [m]) x.1)).rows,
      ∃ a b, t.cell row valColumn = some a ∧ t.cell row biasColumn = some b ∧
        SameArray a x.2 := by
    intro row hrow
    obtain ⟨i, hi⟩ := List.getElem?_of_mem hrow
    obtain ⟨pool, l, hload, hholds, hl, hval, hbias⟩ := load_of_row hback hx hafter hi
    have hread := holds_after hrun hroomy hprepared hload hx hl
    exact ⟨l.val, l.bias, hval, hbias, hread.dims_eq hholds, hread.data_eq hholds⟩
  refine ⟨t, ht, hdefault, fun row hmem => ?_, fun v hv => ?_⟩
  · obtain ⟨a, b, ha, hb, hsame⟩ := hrow row (List.mem_append_left _ hmem)
    exact ⟨⟨a, ha, hsame⟩, by rw [hb]; rfl⟩
  · obtain ⟨a, -, ha, -, hsame⟩ :=
      hrow (t.newRow v) (List.mem_append_right _ (List.mem_map_of_mem hv))
    rw [cell_newRow_val hcol, Option.some.injEq] at ha
    exact ha ▸ hsame

end LastCall

/-- **The weights of the last export can be loaded back only into tables that somebody else has
prepared**, and within the limits of the pool exactly if each of them was prepared for its matrix
alone. -/
theorem loadsBack_iff {tables tables' : Tables α} (earlier : List (Mapping α)) (m : Mapping α)
    (hrun : exportAll tables (earlier ++ [m]) = .ok tables') :
    (LoadsBack tables' m → m.entries ≠ [] ∧ ∀ x ∈ m.entries, Prepared tables x.1) ∧
      ∀ size, Roomy tables m size → (LoadsBack tables' m ↔
        m.entries ≠ [] ∧ ∀ x ∈ m.entries, Ready tables (earlier ++ [m]) x.1 x.2) := by
  refine ⟨loadsBack_prepared hrun, fun size hroomy => ⟨fun hback => ?_, fun ⟨hne, hready⟩ => ?_⟩⟩
  · exact ⟨(loadsBack_prepared hrun hback).1, fun x hx => ready_of_loadsBack hrun hroomy hback hx⟩
  · exact loadsBack_of_ready hrun hroomy hne hready

/-- One table `w` for the 1×1 matrix 7. -/
def oneWeight : Mapping Int where
  entries := [(ascii "w", .matrix 1 1 [7] fun _ => 0)]
  hkeys := by simp
  hnames := by
    intro x hx
    rw [List.mem_singleton.mp hx]
    decide
  hmatrix := by
    intro x hx
    rw [List.mem_singleton.mp hx]
    exact ⟨1, 1, by decide, by decide, by decide, rfl, rfl⟩

/-- A database where `w` waits with a `bias` of its own. -/
def preparedTables : Tables Int := fun name =>
  if name = ascii "w" then
    some ⟨[⟨valColumn, none⟩, ⟨biasColumn, some (.matrix 1 1 [0] fun _ => 0)⟩], []⟩
  else none

theorem loadsBack_oneWeight :
    ∃ tables', exportAll preparedTables [oneWeight] = .ok tables' ∧ LoadsBack tables' oneWeight := by
  have hroomy : Roomy preparedTables oneWeight fun _ => 1 := by
    refine ⟨?_, ?_, by decide⟩
    · intro x hx
      rw [List.mem_singleton.mp hx]
      decide
    · intro x hx t ht a ha
      rw [List.mem_singleton.mp hx] at ht
      cases ht
      rcases ha with ⟨row, hrow, -⟩ | hdefault
      · cases hrow
      · cases hdefault
        exact ⟨⟨⟨by decide, by decide⟩, 1, by decide⟩, by decide⟩
  refine ⟨_, rfl, ((loadsBack_iff [] oneWeight rfl).2 _ hroomy).mpr
    ⟨by decide, fun x hx => ?_⟩⟩
  rw [List.mem_singleton.mp hx]
  refine ⟨_, rfl, rfl, fun row hrow => absurd hrow List.not_mem_nil, fun v hv => ?_⟩
  rw [List.mem_singleton.mp hv]
  exact ⟨rfl, rfl⟩

/-- **A first export cannot be loaded**: the table it creates has no `bias`. -/
theorem loadsBack_fresh :
    ∃ tables', exportAll (fun _ => none) [oneWeight] = .ok tables' ∧
      (∀ pick, loadModel (selectFrom tables' pick) create (some oneWeight.tableNames) =
        .error (missingColumn biasColumn)) ∧ ¬ LoadsBack tables' oneWeight := by
  refine ⟨_, rfl, fun pick => rfl, fun hback => ?_⟩
  obtain ⟨pool, hload, -⟩ := hback fun _ => 0
  cases hload

end Peps
