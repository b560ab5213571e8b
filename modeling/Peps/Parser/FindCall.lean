import Mathlib.Data.List.Basic
import Peps.Pg.ArrayType

/-!
# `aqua.c` — the search for an nUDF call

`aqua_select_parser` walks the raw parse tree of a SELECT and stops at the first function call whose
name is in `pg_nudf`; it then replaces the text of that call in the query. The walker answers `true` to
stop, and `false` both for "go on" and for "do not look into this node": a call that is not in the
catalogue is not looked into.

So the search sees the calls that are not inside another call, in the order of the walk
(`Node.outermost`), and ends at the first of them that is catalogued, or raises at the first with an
improper name (`walkAll_eq_scan`). `aquaSelectParser_finds_iff` says for which trees that is enough.

`raw_expression_tree_walker` is taken to apply the walker to every child of a node.
-/

namespace Peps.Sql

open Lib

/-- Query texts, and the names in them. -/
abbrev Text := List Char

def Text.bytes (t : Text) : Bytes := t.map fun c => UInt8.ofNat c.toNat

/-! ## Parse trees -/

/-- A field of a `ColumnRef`: a name, or `*`. -/
inductive Field where
  | string (sval : Text)
  | star
deriving DecidableEq

/-- A node of the raw parse tree. `rest` of a call are its `agg_order`, `agg_filter` and `over`; all
other kinds of node, sub-selects included, are only walked through. -/
inductive Node where
  | funcCall (funcname : List Text) (args rest : List Node)
  | columnRef (fields : List Field)
  | other (children : List Node)

def Node.children : Node → List Node
  | .funcCall _ args rest => args ++ rest
  | .columnRef _ => []
  | .other children => children

/-- Node `n` is somewhere in the tree. -/
inductive Node.Within (n : Node) : Node → Prop
  | self : Within n n
  | child {c t : Node} (hmem : c ∈ t.children) (hin : Within n c) : Within n t

/-! ## The search -/

/-- What comes from outside: the current database, the sub-query of each name in `pg_nudf`, and what the
variable `arg_str` holds for an argument it is not assigned for. -/
structure ParserEnv where
  database : Text
  pgNudf : Text → Option Text
  stale : Nat → Option Text

structure NUDFContext where
  nudf_name : Option Text
  nudf_query : Option Text
  args : Text
deriving DecidableEq

/-- `NameListToString`. -/
def nameListToString (names : List Text) : Text := ['.'].intercalate names

/-- `DeconstructQualifiedName`: the schema and the name. -/
def deconstructQualifiedName (env : ParserEnv) (names : List Text) :
    Except PgError (Option Text × Text) :=
  match names with
  | [objname] => .ok (none, objname)
  | [schemaname, objname] => .ok (some schemaname, objname)
  | [catalogname, schemaname, objname] =>
    if catalogname ≠ env.database then
      .error (.report "cross-database references are not implemented: %s"
        [(nameListToString names).bytes] [])
    else .ok (some schemaname, objname)
  | _ =>
    .error (.report "improper qualified name (too many dotted names): %s"
      [(nameListToString names).bytes] [])

/-- `ParseNUDF`: the name and its sub-query, if it is in `pg_nudf`. -/
def parseNUDF (env : ParserEnv) (funcname : List Text) : Except PgError (Option (Text × Text)) := do
  let (_, nudfname) ← deconstructQualifiedName env funcname
  .ok ((env.pgNudf nudfname).map fun nudf_query => (nudfname, nudf_query))

/-- `ColumnRefToString`: the names, with dots between them. -/
def columnRefToString (fields : List Field) : Text :=
  fields.foldl (fun str field =>
    match field with
    | .string sval => if 0 < str.length then str ++ '.' :: sval else str ++ sval
    | .star => str) []

/-- `arg_str` for argument number `i`. -/
def argStr (env : ParserEnv) (i : Nat) : Node → Option Text
  | .columnRef fields => some (columnRefToString fields)
  | _ => env.stale i

/-- `arg_strs`: the arguments one after the other. -/
def argStrs (env : ParserEnv) (args : List Node) : Text :=
  args.zipIdx.flatMap fun arg => (argStr env arg.2 arg.1).getD []

mutual

/-- `findFuncCallWalker`: whether to stop, and the context. -/
def findFuncCallWalker (env : ParserEnv) : Node → NUDFContext → Except PgError (Bool × NUDFContext)
  | .funcCall funcname args _, ctx => do
    match ← parseNUDF env funcname with
    | some (nudf_name, nudf_query) =>
      .ok (true, { nudf_name := some nudf_name, nudf_query := some nudf_query,
                   args := argStrs env args })
    | none => .ok (false, ctx)
  | .columnRef _, ctx => .ok (false, ctx)
  | .other children, ctx => walkAll env children ctx

/-- The walker on one child after the other, until it answers `true`. -/
def walkAll (env : ParserEnv) : List Node → NUDFContext → Except PgError (Bool × NUDFContext)
  | [], ctx => .ok (false, ctx)
  | n :: ns, ctx => do
    let (found, ctx) ← findFuncCallWalker env n ctx
    if found then .ok (true, ctx) else walkAll env ns ctx

end

/-- `raw_expression_tree_walker(node, findFuncCallWalker, context)`. -/
def rawExpressionTreeWalker (env : ParserEnv) (node : Node) (ctx : NUDFContext) :
    Except PgError (Bool × NUDFContext) :=
  walkAll env node.children ctx

/-- `strstr`: what stands before and behind the first occurrence. -/
def strstr (src : Text) : Text → Option (Text × Text)
  | [] => if src = [] then some ([], []) else none
  | c :: cs =>
    if src.isPrefixOf (c :: cs) then some ([], (c :: cs).drop src.length)
    else (strstr src cs).map fun found => (c :: found.1, found.2)

/-- `StrReplace`: the first occurrence is replaced by `dst` in parentheses. -/
def strReplace (query_string src dst : Text) : Text :=
  match strstr src query_string with
  | none => query_string
  | some (before, after) => before ++ '(' :: (dst ++ ')' :: after)

/-- `"%s(%s)"`. -/
def fullNudf (ctx : NUDFContext) : Text :=
  ctx.nudf_name.getD [] ++ '(' :: (ctx.args ++ [')'])

/-- `aqua_select_parser(node, old_string)`. -/
def aquaSelectParser (env : ParserEnv) (node : Node) (old_string : Text) :
    Except PgError (Option Text) := do
  let (_, ctx) ← rawExpressionTreeWalker env node
    { nudf_name := none, nudf_query := none, args := [] }
  .ok (ctx.nudf_query.map fun nudf_query => strReplace old_string (fullNudf ctx) nudf_query)

/-! ## What the walk sees -/

/-- A function call: its name and its arguments. -/
structure Call where
  funcname : List Text
  args : List Node

mutual

/-- The calls of the tree that are not inside another call, in the order of the walk. -/
def Node.outermost : Node → List Call
  | .funcCall funcname args _ => [⟨funcname, args⟩]
  | .columnRef _ => []
  | .other children => Node.outermostAll children

def Node.outermostAll : List Node → List Call
  | [] => []
  | n :: ns => n.outermost ++ Node.outermostAll ns

end

/-- The context for a call, if it is catalogued. -/
def Call.context (env : ParserEnv) (call : Call) : Except PgError (Option NUDFContext) :=
  (parseNUDF env call.funcname).map fun found => found.map fun nudf =>
    { nudf_name := some nudf.1, nudf_query := some nudf.2, args := argStrs env call.args }

/-- The first catalogued call of a list. -/
def scan (env : ParserEnv) : List Call → Except PgError (Option NUDFContext)
  | [] => .ok none
  | call :: calls => do
    let found ← call.context env
    found.elim (scan env calls) fun ctx => .ok (some ctx)

theorem scan_append (env : ParserEnv) (calls calls' : List Call) :
    scan env (calls ++ calls') = (do
      let found ← scan env calls
      found.elim (scan env calls') fun ctx => .ok (some ctx)) := by
  induction calls with
  | nil => rfl
  | cons call calls ih =>
    rw [List.cons_append, scan, scan, ih]
    cases call.context env with
    | error e => rfl
    | ok found =>
      cases found with
      | none => rfl
      | some ctx => rfl

/-- How the walker hands a result of the search on. -/
def answer (ctx : NUDFContext) (found : Option NUDFContext) : Bool × NUDFContext :=
  found.elim (false, ctx) fun ctx' => (true, ctx')

mutual

theorem walker_eq_scan (env : ParserEnv) : (n : Node) → (ctx : NUDFContext) →
    findFuncCallWalker env n ctx = (scan env n.outermost).map (answer ctx)
  | .funcCall funcname args rest, ctx => by
    rw [findFuncCallWalker, Node.outermost, scan, Call.context]
    cases parseNUDF env funcname with
    | error e => rfl
    | ok found =>
      cases found with
      | none => rfl
      | some nudf => rfl
  | .columnRef fields, ctx => by
    rw [findFuncCallWalker, Node.outermost]
    rfl
  | .other children, ctx => by
    rw [findFuncCallWalker, Node.outermost]
    exact walkAll_eq_scan env children ctx

/-- **The walk is a scan of the outermost calls.** -/
theorem walkAll_eq_scan (env : ParserEnv) : (ns : List Node) → (ctx : NUDFContext) →
    walkAll env ns ctx = (scan env (Node.outermostAll ns)).map (answer ctx)
  | [], ctx => by
    rw [walkAll, Node.outermostAll]
    rfl
  | n :: ns, ctx => by
    rw [walkAll, Node.outermostAll, scan_append, walker_eq_scan env n ctx]
    cases scan env n.outermost with
    | error e => rfl
    | ok found =>
      cases found with
      | none => exact walkAll_eq_scan env ns ctx
      | some ctx' => rfl

end

/-! ## When the search succeeds -/

section Search

variable {env : ParserEnv}

/-- A name of one, two or three parts, the first of three being the current database. -/
def ProperName (env : ParserEnv) (names : List Text) : Prop :=
  names.length = 1 ∨ names.length = 2 ∨ names.length = 3 ∧ names.head? = some env.database

/-- The unqualified name is in `pg_nudf`. -/
def Catalogued (env : ParserEnv) (names : List Text) : Prop :=
  ∃ f, names.getLast? = some f ∧ (env.pgNudf f).isSome

theorem deconstructQualifiedName_of_proper {names : List Text} (h : ProperName env names) :
    ∃ schemaname objname, deconstructQualifiedName env names = .ok (schemaname, objname) ∧
      names.getLast? = some objname := by
  rcases h with h | h | ⟨h, hcatalog⟩
  · obtain ⟨objname, rfl⟩ := List.length_eq_one_iff.mp h
    exact ⟨none, objname, rfl, rfl⟩
  · obtain ⟨schemaname, objname, rfl⟩ := List.length_eq_two.mp h
    exact ⟨some schemaname, objname, rfl, rfl⟩
  · obtain ⟨catalogname, schemaname, objname, rfl⟩ := List.length_eq_three.mp h
    exact ⟨some schemaname, objname, if_neg (not_not.mpr (Option.some.inj hcatalog)), rfl⟩

theorem proper_of_deconstructQualifiedName {names : List Text} {out : Option Text × Text}
    (h : deconstructQualifiedName env names = .ok out) : ProperName env names := by
  unfold deconstructQualifiedName at h
  split at h
  · exact .inl rfl
  · exact .inr (.inl rfl)
  · next catalogname schemaname objname =>
    split at h
    · cases h
    · next hcatalog => exact .inr (.inr ⟨rfl, congrArg some (not_not.mp hcatalog)⟩)
  · cases h

/-- What the walker finds out about one call. -/
theorem Call.context_some_iff {call : Call} :
    (∃ ctx, call.context env = .ok (some ctx)) ↔
      ProperName env call.funcname ∧ Catalogued env call.funcname := by
  constructor
  · rintro ⟨ctx, h⟩
    rw [Call.context, parseNUDF] at h
    cases hname : deconstructQualifiedName env call.funcname with
    | error e => rw [hname] at h; cases h
    | ok out =>
      have hproper := proper_of_deconstructQualifiedName hname
      obtain ⟨schemaname, objname, hok, hlast⟩ := deconstructQualifiedName_of_proper hproper
      rw [hok] at h
      refine ⟨hproper, objname, hlast, ?_⟩
      cases hquery : env.pgNudf objname with
      | none =>
        change Except.ok (((env.pgNudf objname).map _).map _) = _ at h
        rw [hquery] at h
        cases h
      | some query => rfl
  · rintro ⟨hproper, f, hlast, hquery⟩
    obtain ⟨schemaname, objname, hok, hlast'⟩ := deconstructQualifiedName_of_proper hproper
    obtain rfl : f = objname := Option.some.inj (hlast.symm.trans hlast')
    obtain ⟨query, hquery⟩ := Option.isSome_iff_exists.mp hquery
    refine ⟨{ nudf_name := some f, nudf_query := some query, args := argStrs env call.args }, ?_⟩
    rw [Call.context, parseNUDF, hok]
    show Except.ok (((env.pgNudf f).map _).map _) = _
    rw [hquery]
    rfl

theorem Call.context_none {call : Call} (hproper : ProperName env call.funcname)
    (hnot : ¬ Catalogued env call.funcname) : call.context env = .ok none := by
  obtain ⟨schemaname, objname, hok, hlast⟩ := deconstructQualifiedName_of_proper hproper
  rw [Call.context, parseNUDF, hok]
  show Except.ok (((env.pgNudf objname).map _).map _) = _
  cases hquery : env.pgNudf objname with
  | none => rfl
  | some query => exact absurd ⟨objname, hlast, by rw [hquery]; rfl⟩ hnot

/-- One of the calls is catalogued, and up to it all have proper names. -/
def Reached (env : ParserEnv) (calls : List Call) : Prop :=
  ∃ before call after, calls = before ++ call :: after ∧
    (∀ c ∈ before, ProperName env c.funcname) ∧ ProperName env call.funcname ∧
    Catalogued env call.funcname

/-- **The scan finds a call exactly if one is reached.** -/
theorem scan_some_iff {calls : List Call} :
    (∃ ctx, scan env calls = .ok (some ctx)) ↔ Reached env calls := by
  induction calls with
  | nil =>
    refine iff_of_false ?_ ?_
    · rintro ⟨ctx, h⟩
      cases h
    · rintro ⟨before, call, after, h, -⟩
      cases before <;> cases h
  | cons call calls ih =>
    constructor
    · rintro ⟨ctx, h⟩
      obtain ⟨found, hcontext, hrest⟩ := bind_ok_iff.mp h
      cases found with
      | some ctx' =>
        obtain ⟨hproper, hcatalogued⟩ := Call.context_some_iff.mp ⟨ctx', hcontext⟩
        exact ⟨[], call, calls, rfl, (fun c hc => by cases hc), hproper, hcatalogued⟩
      | none =>
        obtain ⟨before, c, after, rfl, hbefore, hc⟩ := ih.mp ⟨ctx, hrest⟩
        refine ⟨call :: before, c, after, rfl, fun c' hc' => ?_, hc⟩
        rcases List.mem_cons.mp hc' with rfl | hmem
        · -- the call was looked up, so its name could be taken apart
          rw [Call.context, parseNUDF] at hcontext
          cases hname : deconstructQualifiedName env c'.funcname with
          | error e => rw [hname] at hcontext; cases hcontext
          | ok out => exact proper_of_deconstructQualifiedName hname
        · exact hbefore c' hmem
    · rintro ⟨before, c, after, hcalls, hbefore, hproper, hcatalogued⟩
      cases before with
      | nil =>
        obtain ⟨rfl, rfl⟩ := List.cons.inj hcalls
        obtain ⟨ctx, hcontext⟩ := Call.context_some_iff.mpr ⟨hproper, hcatalogued⟩
        exact ⟨ctx, bind_ok_iff.mpr ⟨some ctx, hcontext, rfl⟩⟩
      | cons b before =>
        obtain ⟨rfl, rfl⟩ := List.cons.inj hcalls
        by_cases hb : Catalogued env call.funcname
        · obtain ⟨ctx, hcontext⟩ :=
            Call.context_some_iff.mpr ⟨hbefore call (List.mem_cons_self ..), hb⟩
          exact ⟨ctx, bind_ok_iff.mpr ⟨some ctx, hcontext, rfl⟩⟩
        · obtain ⟨ctx, hscan⟩ := ih.mpr ⟨before, c, after, rfl,
            fun c' hc' => hbefore c' (List.mem_cons_of_mem _ hc'), hproper, hcatalogued⟩
          exact ⟨ctx, bind_ok_iff.mpr
            ⟨none, Call.context_none (hbefore call (List.mem_cons_self ..)) hb, hscan⟩⟩

/-- The context of a catalogued call. -/
theorem Call.eq_of_context {call : Call} {ctx : NUDFContext}
    (h : call.context env = .ok (some ctx)) :
    ∃ f query, call.funcname.getLast? = some f ∧ env.pgNudf f = some query ∧
      ctx = { nudf_name := some f, nudf_query := some query, args := argStrs env call.args } := by
  obtain ⟨hproper, f, hlast, hquery⟩ := Call.context_some_iff.mp ⟨ctx, h⟩
  obtain ⟨query, hquery⟩ := Option.isSome_iff_exists.mp hquery
  obtain ⟨schemaname, objname, hok, hlast'⟩ := deconstructQualifiedName_of_proper hproper
  obtain rfl : f = objname := Option.some.inj (hlast.symm.trans hlast')
  rw [Call.context, parseNUDF, hok] at h
  change Except.ok (((env.pgNudf f).map _).map _) = _ at h
  rw [hquery] at h
  exact ⟨f, query, hlast, hquery, (Option.some.inj (Except.ok.inj h)).symm⟩

theorem context_of_scan {calls : List Call} {ctx : NUDFContext}
    (h : scan env calls = .ok (some ctx)) : ∃ call ∈ calls, call.context env = .ok (some ctx) := by
  induction calls with
  | nil => cases h
  | cons call calls ih =>
    obtain ⟨found, hcontext, hrest⟩ := bind_ok_iff.mp h
    cases found with
    | none =>
      obtain ⟨c, hc, hctx⟩ := ih hrest
      exact ⟨c, List.mem_cons_of_mem _ hc, hctx⟩
    | some ctx' =>
      obtain rfl : ctx' = ctx := Option.some.inj (Except.ok.inj hrest)
      exact ⟨call, List.mem_cons_self .., hcontext⟩

/-- A context that the scan returns is filled in. -/
theorem nudf_query_of_scan {calls : List Call} {ctx : NUDFContext}
    (h : scan env calls = .ok (some ctx)) : ∃ query, ctx.nudf_query = some query := by
  obtain ⟨call, -, hcontext⟩ := context_of_scan h
  obtain ⟨f, query, -, -, rfl⟩ := Call.eq_of_context hcontext
  exact ⟨query, rfl⟩

/-- **`aqua_select_parser` after its search.** -/
theorem aquaSelectParser_eq (children : List Node) (old_string : Text) :
    aquaSelectParser env (.other children) old_string =
      (scan env (Node.outermostAll children)).map fun found => found.bind fun ctx =>
        ctx.nudf_query.map fun nudf_query => strReplace old_string (fullNudf ctx) nudf_query := by
  show (walkAll env children _ >>= _) = _
  rw [walkAll_eq_scan]
  cases scan env (Node.outermostAll children) with
  | error e => rfl
  | ok found =>
    cases found with
    | none => rfl
    | some ctx => rfl

/-- A text comes back exactly if a call is reached. -/
theorem aquaSelectParser_some_iff {children : List Node} {old_string : Text} :
    (∃ result, aquaSelectParser env (.other children) old_string = .ok (some result)) ↔
      Reached env (Node.outermostAll children) := by
  rw [aquaSelectParser_eq, ← scan_some_iff]
  constructor
  · rintro ⟨result, h⟩
    cases hscan : scan env (Node.outermostAll children) with
    | error e => rw [hscan] at h; cases h
    | ok found =>
      cases found with
      | none => rw [hscan] at h; cases h
      | some ctx => exact ⟨ctx, rfl⟩
  · rintro ⟨ctx, hscan⟩
    obtain ⟨query, hquery⟩ := nudf_query_of_scan hscan
    refine ⟨strReplace old_string (fullNudf ctx) query, ?_⟩
    rw [hscan]
    show Except.ok (ctx.nudf_query.map _) = _
    rw [hquery]
    rfl

/-- The tree has a catalogued call somewhere. -/
def Contains (env : ParserEnv) (t : Node) : Prop :=
  ∃ funcname args rest, (Node.funcCall funcname args rest).Within t ∧ Catalogued env funcname

end Search

mutual

/-- An outermost call is in the tree. -/
theorem Node.within_of_outermost {call : Call} : (n : Node) → call ∈ n.outermost →
    ∃ rest, (Node.funcCall call.funcname call.args rest).Within n
  | .funcCall funcname args rest, h => by
    rw [Node.outermost, List.mem_singleton] at h
    subst h
    exact ⟨rest, .self⟩
  | .columnRef fields, h => by
    rw [Node.outermost] at h
    cases h
  | .other children, h => by
    rw [Node.outermost] at h
    obtain ⟨c, hc, rest, hin⟩ := Node.within_of_outermostAll children h
    exact ⟨rest, .child hc hin⟩

theorem Node.within_of_outermostAll {call : Call} : (ns : List Node) →
    call ∈ Node.outermostAll ns →
    ∃ c ∈ ns, ∃ rest, (Node.funcCall call.funcname call.args rest).Within c
  | [], h => by
    rw [Node.outermostAll] at h
    cases h
  | n :: ns, h => by
    rw [Node.outermostAll, List.mem_append] at h
    rcases h with hn | hns
    · exact ⟨n, List.mem_cons_self .., Node.within_of_outermost n hn⟩
    · obtain ⟨c, hc, hin⟩ := Node.within_of_outermostAll ns hns
      exact ⟨c, List.mem_cons_of_mem _ hc, hin⟩

end

/-- **The search finds a call for the trees that contain one** exactly if, should the tree contain one,
one is catalogued that is not inside another call, and it and the outermost calls before it have proper
names. -/
theorem aquaSelectParser_finds_iff (env : ParserEnv) (children : List Node) (old_string : Text) :
    ((∃ result, aquaSelectParser env (.other children) old_string = .ok (some result)) ↔
        Contains env (.other children)) ↔
      (Contains env (.other children) → Reached env (Node.outermostAll children)) := by
  rw [aquaSelectParser_some_iff]
  refine ⟨fun h => h.mpr, fun h => ⟨?_, h⟩⟩
  rintro ⟨before, call, after, hcalls, -, -, hcatalogued⟩
  have hmem : call ∈ Node.outermostAll children := by
    rw [hcalls]
    exact List.mem_append_right _ (List.mem_cons_self ..)
  obtain ⟨c, hc, rest, hin⟩ := Node.within_of_outermostAll children hmem
  exact ⟨call.funcname, call.args, rest, .child hc hin, hcatalogued⟩

/-- `SELECT lower(f(x))` with `f` in `pg_nudf`: the search does not look into `lower`. -/
theorem aquaSelectParser_misses_nested :
    let env : ParserEnv := ⟨"db".toList, fun f => if f = ['f'] then some "SELECT 1".toList else none,
      fun _ => none⟩
    let call := Node.funcCall [['f']] [.columnRef [.string ['x']]] []
    let tree := Node.other [.funcCall ["lower".toList] [call] []]
    aquaSelectParser env tree "SELECT lower(f(x))".toList = .ok none ∧ Contains env tree := by
  refine ⟨by decide +kernel, [['f']], [.columnRef [.string ['x']]], [], ?_, ['f'], rfl, rfl⟩
  exact .child (List.mem_singleton_self _) (.child (List.mem_singleton_self _) .self)

end Peps.Sql
