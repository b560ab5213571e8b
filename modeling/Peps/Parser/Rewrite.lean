import Mathlib.Data.List.Forall2
import Peps.Parser.Kept

/-!
# `aqua.c` — the rewriting of a call

`aqua_select_parser` does not know where the call it found stands in the query text. It writes the call
down again from the parse tree, as the name, `(`, the arguments without anything between them, `)`, and
`StrReplace` puts the sub-query in the place of the first occurrence of that text.

A `CallSite` is a query with one nUDF call in its tree, the text split around the call.
`aquaSelectParser_rewrites` compares the tokens of the rewritten text with those of the text in which the
call is replaced: they are the same if the rewritten occurrence is the call itself, and different if it
is missing or anywhere else. Only of an occurrence inside a comment nothing can be said in general: there
a sub-query with a line break or a comment delimiter in it may bring out parts of the comment.

* `CallSite.aquaSelectParser_some_iff` — the context is that of the one call;
* `CallSite.tokens_replaced` — what a replacement in the right place gives;
* `CallSite.not_rewritten_of_parts` — why one in any other place does not.
-/

namespace Peps.Sql

open Lib

/-! ## The one call of a tree -/

mutual

/-- All calls of the tree. -/
def Node.calls : Node → List Call
  | .funcCall funcname args rest => ⟨funcname, args⟩ :: (Node.callsAll args ++ Node.callsAll rest)
  | .columnRef _ => []
  | .other children => Node.callsAll children

def Node.callsAll : List Node → List Call
  | [] => []
  | n :: ns => n.calls ++ Node.callsAll ns

end

mutual

theorem Node.mem_calls {call : Call} : (n : Node) → call ∈ n.outermost → call ∈ n.calls
  | .funcCall funcname args rest, h => by
    rw [Node.outermost, List.mem_singleton] at h
    rw [Node.calls, h]
    exact List.mem_cons_self ..
  | .columnRef fields, h => by
    rw [Node.outermost] at h
    cases h
  | .other children, h => by
    rw [Node.outermost] at h
    rw [Node.calls]
    exact Node.mem_callsAll children h

theorem Node.mem_callsAll {call : Call} : (ns : List Node) → call ∈ Node.outermostAll ns →
    call ∈ Node.callsAll ns
  | [], h => by
    rw [Node.outermostAll] at h
    cases h
  | n :: ns, h => by
    rw [Node.outermostAll, List.mem_append] at h
    rw [Node.callsAll, List.mem_append]
    exact h.imp (Node.mem_calls n) (Node.mem_callsAll ns)

end

/-- Exactly one of the calls is catalogued. -/
def OnlyCall (env : ParserEnv) (calls : List Call) (call : Call) : Prop :=
  ∃ before after, calls = before ++ call :: after ∧
    ∀ c ∈ before ++ after, ¬ Catalogued env c.funcname

theorem OnlyCall.eq {env : ParserEnv} {calls : List Call} {call c : Call} (h : OnlyCall env calls call)
    (hmem : c ∈ calls) (hc : Catalogued env c.funcname) : c = call := by
  obtain ⟨before, after, rfl, hothers⟩ := h
  rw [List.mem_append, List.mem_cons] at hmem
  rcases hmem with hbefore | heq | hafter
  · exact absurd hc (hothers c (List.mem_append_left _ hbefore))
  · exact heq
  · exact absurd hc (hothers c (List.mem_append_right _ hafter))

/-! ## The text of a call -/

/-- An identifier, quoted or not. -/
def IsIdentifier (token : Text) : Prop := ∃ c w, token = c :: w ∧ (isIdentStart c = true ∨ c = '"')

def SpellsField (name : Text → Text) (token : Text) : Field → Prop
  | .string sval => IsIdentifier token ∧ name token = sval
  | .star => token = ['*']

def separated (sep : Char) (parts : List (List Text)) : List Text := [[sep]].intercalate parts

def SpellsColumn (name : Text → Text) (out : List Text) (arg : Node) : Prop :=
  ∃ fields names, arg = .columnRef fields ∧ List.Forall₂ (SpellsField name) names fields ∧
    out = separated '.' (names.map fun token => [token])

/-- The tokens `f(a1, ..., an)` of a call with column references for arguments. `name` is what the
parser makes of an identifier: it folds letters, removes quotes and cuts long names. -/
def SpellsCall (name : Text → Text) (out : List Text) (call : Call) : Prop :=
  ∃ names args, List.Forall₂ (SpellsField name) names (call.funcname.map .string) ∧
    List.Forall₂ (SpellsColumn name) args call.args ∧
    out = separated '.' (names.map fun token => [token]) ++ ['('] :: (separated ',' args ++ [[')']])

/-- A query `before ++ body ++ after` with one nUDF call in its tree, `body` being the text of it from
its first token to its last. -/
structure CallSite (env : ParserEnv) (name : Text → Text) where
  children : List Node
  call : Call
  f : Text
  query : Text
  before : Text
  body : Text
  after : Text
  callTokens : List Text
  only : OnlyCall env (Node.callsAll children) call
  unqualified : call.funcname.getLast? = some f
  catalogued : env.pgNudf f = some query
  spelled : SpellsCall name callTokens call
  lexed : scanned body = (callTokens, .start)
  first : ∃ c w, body = c :: w ∧ (isIdentStart c = true ∨ c = '"') ∧ (scanned before).2.Breaks c
  rest : ∃ post, tokens after = some post

/-- A sub-query that has no lexical error, and does not end in a comment that goes to the end of the
line. -/
def Closes (query : Text) : Prop := (∃ out, tokens query = some out) ∧ (scanned query).2.commented = false

namespace CallSite

variable {env : ParserEnv} {name : Text → Text} (site : CallSite env name)

def text : Text := site.before ++ (site.body ++ site.after)

/-- `full_nudf`, the text that is searched for. -/
def fullNudf : Text := site.f ++ '(' :: (argStrs env site.call.args ++ [')'])

/-- A text comes back, and its tokens are those of the query with the tokens of the call replaced by `(`,
those of the sub-query and `)`. -/
def Rewritten : Prop :=
  ∃ result pre post out, aquaSelectParser env (.other site.children) site.text = .ok (some result) ∧
    tokens site.before = some pre ∧ tokens site.after = some post ∧ tokens site.query = some out ∧
    tokens site.text = some (pre ++ (site.callTokens ++ post)) ∧
    tokens result = some (pre ++ ['('] :: (out ++ [')'] :: post))

/-- The search reaches a call, and the first occurrence of the text that is searched for is where the
call begins, with the tokens of `after` behind it. -/
def Located : Prop :=
  Reached env (Node.outermostAll site.children) ∧
    ∃ a, strstr site.fullNudf site.text = some (site.before, a) ∧ tokens a = tokens site.after

/-! ## What the parser returns -/

/-- **The text that comes back for a query with one nUDF call.** -/
theorem aquaSelectParser_some_iff {result : Text} :
    aquaSelectParser env (.other site.children) site.text = .ok (some result) ↔
      Reached env (Node.outermostAll site.children) ∧
        result = strReplace site.text site.fullNudf site.query := by
  -- if a call is reached, it is the one call of the site
  have hok : Reached env (Node.outermostAll site.children) →
      aquaSelectParser env (.other site.children) site.text =
        .ok (some (strReplace site.text site.fullNudf site.query)) := by
    intro hreached
    obtain ⟨ctx, hscan⟩ := scan_some_iff.mpr hreached
    obtain ⟨call, hmem, hcontext⟩ := context_of_scan hscan
    obtain ⟨-, hcatalogued⟩ := Call.context_some_iff.mp ⟨ctx, hcontext⟩
    obtain rfl := site.only.eq (Node.mem_callsAll _ hmem) hcatalogued
    obtain ⟨f, query, hf, hquery, rfl⟩ := Call.eq_of_context hcontext
    obtain rfl : site.f = f := Option.some.inj (site.unqualified.symm.trans hf)
    obtain rfl : site.query = query := Option.some.inj (site.catalogued.symm.trans hquery)
    rw [aquaSelectParser_eq, hscan]
    rfl
  constructor
  · intro h
    have hreached := Sql.aquaSelectParser_some_iff.mp ⟨result, h⟩
    rw [hok hreached] at h
    exact ⟨hreached, (Option.some.inj (Except.ok.inj h)).symm⟩
  · rintro ⟨hreached, rfl⟩
    exact hok hreached

/-! ## The tokens around the call -/

theorem solid_first {c : Char} (h : isIdentStart c = true ∨ c = '"') : Solid c ∧ c ≠ '(' := by
  rcases h with h | rfl
  · refine ⟨.inl h, ?_⟩
    rintro rfl
    cases h
  · exact ⟨.inr (.inl rfl), by decide⟩

theorem not_commented_before : (scanned site.before).2.commented = false := by
  obtain ⟨c, w, -, hc, hbreaks⟩ := site.first
  exact hbreaks.not_commented (solid_first hc).1

theorem exists_tokens_before : ∃ pre, tokens site.before = some pre := by
  obtain ⟨c, w, -, -, rest, hclose, -⟩ := site.first
  exact ⟨(scanned site.before).1 ++ rest, congrArg (Option.map _) hclose⟩

/-- The tokens of the query: those before the call, those of the call and those behind it. -/
theorem tokens_text {pre post : List Text} (hpre : tokens site.before = some pre)
    (hpost : tokens site.after = some post) :
    tokens site.text = some (pre ++ (site.callTokens ++ post)) := by
  obtain ⟨c, w, hbody, -, hbreaks⟩ := site.first
  have hcall : tokens (site.body ++ site.after) = some (site.callTokens ++ post) := by
    rw [tokens_append, site.lexed]
    exact congrArg (Option.map _) hpost
  rw [text]
  rw [hbody, List.cons_append] at hcall ⊢
  rw [tokens_breaks hpre hbreaks, hcall]
  rfl

/-- **A sub-query in the place of what stands between `before` and `a`.** -/
theorem tokens_replaced (hquery : Closes site.query) {pre out : List Text}
    (hpre : tokens site.before = some pre) (hout : tokens site.query = some out) (a : Text) :
    tokens (site.before ++ '(' :: (site.query ++ ')' :: a)) =
      (tokens a).map fun post => pre ++ ['('] :: (out ++ [')'] :: post) := by
  rw [tokens_parenthesis hpre site.not_commented_before (.inl rfl),
    tokens_parenthesis hout hquery.2 (.inr rfl), Option.map_map]
  rfl

/-- A text that has not `(` behind `before` but the beginning of the call has other tokens. -/
theorem not_rewritten_of_parts {pre rest : List Text} {c : Char} {w : Text}
    (hpre : tokens site.before = some pre) (hc : isIdentStart c = true ∨ c = '"')
    (h : tokens (site.before ++ c :: w) = some (pre ++ ['('] :: rest)) : False := by
  obtain ⟨hsolid, hne⟩ := solid_first hc
  have hkept := kept_isPrefix site.not_commented_before hsolid h
  rw [List.flatten_append, flatten_tokens hpre, List.prefix_append_right_inj] at hkept
  exact hne (List.cons_prefix_cons.mp hkept).1

end CallSite

theorem eq_of_strstr {src text before after : Text} (h : strstr src text = some (before, after)) :
    text = before ++ (src ++ after) := by
  induction text generalizing before after with
  | nil =>
    rw [strstr] at h
    split at h
    · next hsrc =>
      obtain ⟨rfl, rfl⟩ := Prod.mk.inj (Option.some.inj h)
      rw [hsrc]
      rfl
    · cases h
  | cons c cs ih =>
    rw [strstr] at h
    split at h
    · next hsrc =>
      obtain ⟨rfl, rfl⟩ := Prod.mk.inj (Option.some.inj h)
      obtain ⟨after, hafter⟩ := List.isPrefixOf_iff_prefix.mp hsrc
      rw [← hafter, List.drop_left, List.nil_append]
    · obtain ⟨found, hfound, heq⟩ := Option.map_eq_some_iff.mp h
      obtain ⟨rfl, rfl⟩ := Prod.mk.inj heq
      exact congrArg (c :: ·) (ih hfound)

/-- Two texts that are the same: the first part of the one ends with that of the other, or goes on with
what follows there. -/
theorem append_cons_cases {before b u v : Text} {c d : Char} (h : before ++ c :: u = b ++ d :: v) :
    b = before ∨ (∃ x, b = before ++ c :: x) ∨ ∃ x, before = b ++ d :: x := by
  rcases List.append_eq_append_iff.mp h with ⟨x, hb, hx⟩ | ⟨x, hb, hx⟩
  · cases x with
    | nil => exact .inl (hb.trans (List.append_nil _))
    | cons c' x =>
      obtain ⟨rfl, -⟩ := List.cons.inj hx
      exact .inr (.inl ⟨x, hb⟩)
  · cases x with
    | nil => exact .inl (hb.trans (List.append_nil _)).symm
    | cons d' x =>
      obtain ⟨rfl, -⟩ := List.cons.inj hx
      exact .inr (.inr ⟨x, hb⟩)

namespace CallSite

variable {env : ParserEnv} {name : Text → Text} (site : CallSite env name)

theorem rewritten_of_located (hquery : Closes site.query) (h : site.Located) : site.Rewritten := by
  obtain ⟨hreached, a, hstrstr, ha⟩ := h
  obtain ⟨pre, hpre⟩ := site.exists_tokens_before
  obtain ⟨post, hpost⟩ := site.rest
  obtain ⟨out, hout⟩ := hquery.1
  refine ⟨_, pre, post, out, site.aquaSelectParser_some_iff.mpr ⟨hreached, rfl⟩, hpre, hpost, hout,
    site.tokens_text hpre hpost, ?_⟩
  rw [strReplace, hstrstr]
  show tokens (site.before ++ '(' :: (site.query ++ ')' :: a)) = _
  rw [site.tokens_replaced hquery hpre hout, ha, hpost]
  rfl

theorem not_rewritten_of_unchanged {pre rest : List Text} (hpre : tokens site.before = some pre)
    (h : tokens site.text = some (pre ++ ['('] :: rest)) : False := by
  obtain ⟨c, w, hbody, hc, -⟩ := site.first
  rw [text, hbody] at h
  exact site.not_rewritten_of_parts hpre hc h

theorem inert_parenthesised {query : Text} (h : Inert query) : Inert ('(' :: (query ++ [')'])) := by
  intro c hc
  rw [List.mem_cons, List.mem_append, List.mem_singleton] at hc
  rcases hc with rfl | hc | rfl
  · decide
  · exact h c hc
  · decide

/-- An occurrence that begins before the call, outside of comments: `d` would have to be `(`. -/
theorem not_rewritten_of_earlier {pre rest : List Text} {b w x : Text} {d : Char}
    (hpre : tokens site.before = some pre) (hb : (scanned b).2.commented = false)
    (hd : isIdentStart d = true ∨ d = '"') (hbefore : site.before = b ++ d :: x)
    (h : tokens (b ++ '(' :: w) = some (pre ++ rest)) : False := by
  obtain ⟨hsolid, hne⟩ := solid_first hd
  rw [hbefore] at hpre
  have hthere : kept b ++ [d] <+: (pre ++ rest).flatten := by
    rw [List.flatten_append]
    exact (kept_isPrefix hb hsolid hpre).trans (List.prefix_append ..)
  have hhere := kept_isPrefix hb (.inr (.inr rfl)) h
  have heq : kept b ++ [d] = kept b ++ ['('] :=
    List.IsPrefix.eq_of_length (List.prefix_of_prefix_length_le hthere hhere (by simp)) (by simp)
  exact hne (List.singleton_inj.mp (List.append_cancel_left heq))

theorem located_of_rewritten (hquery : Closes site.query) (hf : IsIdentifier site.f)
    (hcomment : ∀ b a, strstr site.fullNudf site.text = some (b, a) →
      (scanned b).2.commented = true → Inert site.fullNudf ∧ Inert site.query)
    (h : site.Rewritten) : site.Located := by
  obtain ⟨result, pre, post, out, hresult, hpre, hpost, hout, -, htokens⟩ := h
  obtain ⟨hreached, rfl⟩ := site.aquaSelectParser_some_iff.mp hresult
  obtain ⟨c, w, hbody, hc, -⟩ := site.first
  obtain ⟨d, f, hname, hd⟩ := hf
  rw [strReplace] at htokens
  cases hstrstr : strstr site.fullNudf site.text with
  | none =>
    rw [hstrstr] at htokens
    exact (site.not_rewritten_of_unchanged hpre htokens).elim
  | some found =>
    obtain ⟨b, a⟩ := found
    rw [hstrstr] at htokens
    change tokens (b ++ '(' :: (site.query ++ ')' :: a)) = _ at htokens
    have htext := eq_of_strstr hstrstr
    rw [text, hbody, fullNudf, hname] at htext
    rcases append_cons_cases htext with rfl | ⟨x, rfl⟩ | ⟨x, hbefore⟩
    · rw [site.tokens_replaced hquery hpre hout] at htokens
      obtain ⟨post', ha, heq⟩ := Option.map_eq_some_iff.mp htokens
      refine ⟨hreached, a, hstrstr, ?_⟩
      simp only [List.append_cancel_left_eq, List.cons.injEq, true_and] at heq
      rw [ha, hpost, heq]
    · -- behind the beginning of the call
      rw [List.append_assoc] at htokens
      exact (site.not_rewritten_of_parts hpre hc htokens).elim
    · cases hb : (scanned b).2.commented with
      | false => exact (site.not_rewritten_of_earlier hpre hb hd hbefore htokens).elim
      | true =>
        -- the tokens of the query are left as they were
        obtain ⟨hinert, hinert'⟩ := hcomment b a hstrstr hb
        have hsame := tokens_inert hb hinert (inert_parenthesised hinert') (by simp [fullNudf])
          (List.cons_ne_nil _ _) a
        rw [← eq_of_strstr hstrstr, List.cons_append, List.append_assoc] at hsame
        exact (site.not_rewritten_of_unchanged hpre (hsame.trans htokens)).elim

end CallSite

/-! ## Queries with a call of `f` -/

/-- `f` is in `pg_nudf`, and nothing else. -/
def onlyF : ParserEnv where
  database := "db".toList
  pgNudf f := if f = ['f'] then some "SELECT 1".toList else none
  stale _ := none

/-- Unquoted ASCII identifiers. -/
def foldCase (token : Text) : Text := token.map Char.toLower

/-- Columns for arguments. -/
def columnRefs (columns : List Text) : List Node := columns.map fun column => .columnRef [.string column]

/-- `f(a1, ..., an)`, with `f` spelled `token`. -/
def callOf (token : Text) (columns : List Text) : List Text :=
  token :: ['('] :: (separated ',' (columns.map fun column => [column]) ++ [[')']])

theorem callsAll_columnRefs (columns : List Text) : Node.callsAll (columnRefs columns) = [] := by
  induction columns with
  | nil => rw [columnRefs, List.map_nil, Node.callsAll]
  | cons column columns ih =>
    rw [columnRefs, List.map_cons, Node.callsAll, Node.calls]
    exact ih

theorem spellsCall_callOf {token : Text} {columns : List Text}
    (htoken : IsIdentifier token ∧ foldCase token = ['f'])
    (hcolumns : ∀ column ∈ columns, IsIdentifier column ∧ foldCase column = column) :
    SpellsCall foldCase (callOf token columns) ⟨[['f']], columnRefs columns⟩ := by
  refine ⟨[token], columns.map fun column => [column], .cons htoken .nil, ?_, rfl⟩
  show List.Forall₂ _ _ (columns.map fun column => Node.columnRef [.string column])
  rw [List.forall₂_map_left_iff, List.forall₂_map_right_iff, List.forall₂_same]
  exact fun column hmem => ⟨[.string column], [column], rfl, .cons (hcolumns column hmem) .nil, rfl⟩

/-- The query `before ++ body ++ after` with a call of `f` on some columns. -/
def siteOf (token : Text) (columns : List Text) (before body after : Text)
    (htoken : IsIdentifier token ∧ foldCase token = ['f'])
    (hcolumns : ∀ column ∈ columns, IsIdentifier column ∧ foldCase column = column)
    (hlexed : scanned body = (callOf token columns, .start))
    (hfirst : ∃ c w, body = c :: w ∧ (isIdentStart c = true ∨ c = '"') ∧ (scanned before).2.Breaks c)
    (hrest : ∃ post, tokens after = some post) : CallSite onlyF foldCase where
  children := [.funcCall [['f']] (columnRefs columns) []]
  call := ⟨[['f']], columnRefs columns⟩
  f := ['f']
  query := "SELECT 1".toList
  before := before
  body := body
  after := after
  callTokens := callOf token columns
  only := by
    refine ⟨[], [], ?_, fun c hc => by cases hc⟩
    rw [Node.callsAll, Node.calls, callsAll_columnRefs, Node.callsAll]
    rfl
  unqualified := rfl
  catalogued := rfl
  spelled := spellsCall_callOf htoken hcolumns
  lexed := hlexed
  first := hfirst
  rest := hrest

/-- `SELECT f(x)` -/
def plainSite : CallSite onlyF foldCase :=
  siteOf ['f'] [['x']] "SELECT ".toList "f(x)".toList [] ⟨⟨'f', [], rfl, .inl rfl⟩, rfl⟩
    (List.forall_mem_singleton.mpr ⟨⟨'x', [], rfl, .inl rfl⟩, rfl⟩) (by decide +kernel)
    ⟨'f', "(x)".toList, rfl, .inl rfl, [], by decide +kernel, by decide +kernel⟩ ⟨[], rfl⟩

theorem closes_select : Closes "SELECT 1".toList :=
  ⟨⟨["SELECT".toList, ['1']], by decide +kernel⟩, by decide +kernel⟩

/-- `SELECT f( x )` -/
def spacedSite : CallSite onlyF foldCase :=
  siteOf ['f'] [['x']] "SELECT ".toList "f( x )".toList [] ⟨⟨'f', [], rfl, .inl rfl⟩, rfl⟩
    (List.forall_mem_singleton.mpr ⟨⟨'x', [], rfl, .inl rfl⟩, rfl⟩) (by decide +kernel)
    ⟨'f', "( x )".toList, rfl, .inl rfl, [], by decide +kernel, by decide +kernel⟩ ⟨[], rfl⟩

/-- `SELECT F(x)` -/
def capitalSite : CallSite onlyF foldCase :=
  siteOf ['F'] [['x']] "SELECT ".toList "F(x)".toList [] ⟨⟨'F', [], rfl, .inl rfl⟩, rfl⟩
    (List.forall_mem_singleton.mpr ⟨⟨'x', [], rfl, .inl rfl⟩, rfl⟩) (by decide +kernel)
    ⟨'F', "(x)".toList, rfl, .inl rfl, [], by decide +kernel, by decide +kernel⟩ ⟨[], rfl⟩

/-- `SELECT f(x,y)` -/
def pairSite : CallSite onlyF foldCase :=
  siteOf ['f'] [['x'], ['y']] "SELECT ".toList "f(x,y)".toList [] ⟨⟨'f', [], rfl, .inl rfl⟩, rfl⟩
    (List.forall_mem_cons.mpr ⟨⟨⟨'x', [], rfl, .inl rfl⟩, rfl⟩,
      List.forall_mem_singleton.mpr ⟨⟨'y', [], rfl, .inl rfl⟩, rfl⟩⟩) (by decide +kernel)
    ⟨'f', "(x,y)".toList, rfl, .inl rfl, [], by decide +kernel, by decide +kernel⟩ ⟨[], rfl⟩

/-- `SELECT 'f(x)',f(x)` -/
def literalSite : CallSite onlyF foldCase :=
  siteOf ['f'] [['x']] "SELECT 'f(x)',".toList "f(x)".toList [] ⟨⟨'f', [], rfl, .inl rfl⟩, rfl⟩
    (List.forall_mem_singleton.mpr ⟨⟨'x', [], rfl, .inl rfl⟩, rfl⟩) (by decide +kernel)
    ⟨'f', "(x)".toList, rfl, .inl rfl, [], by decide +kernel, by decide +kernel⟩ ⟨[], rfl⟩

/-- Where the text that is searched for is not found first in the place of the call. -/
theorem not_rewritten_demo {site : CallSite onlyF foldCase} (hquery : site.query = "SELECT 1".toList)
    (hf : site.f = ['f'])
    (hstrstr : (strstr site.fullNudf site.text).map Prod.fst ≠ some site.before)
    (hinert : (site.fullNudf ++ site.query).all (fun c => c ∉ ['\n', '\r', '*', '/']) = true) :
    ¬ site.Rewritten := by
  have hinert' : Inert (site.fullNudf ++ site.query) := fun c hc =>
    of_decide_eq_true (List.all_eq_true.mp hinert c hc)
  intro hrewritten
  obtain ⟨-, a, ha, -⟩ := site.located_of_rewritten (hquery ▸ closes_select)
    ⟨'f', [], hf, .inl rfl⟩ (fun b a hfound hcommented =>
      ⟨fun c hc => hinert' c (List.mem_append_left _ hc),
        fun c hc => hinert' c (List.mem_append_right _ hc)⟩) hrewritten
  exact hstrstr (congrArg (Option.map Prod.fst) ha)

/-! ## The rewriting -/

/-- **Whether the rewritten text is the query with its call replaced**, for a sub-query that can stand
in parentheses. It is if the first occurrence of `full_nudf` is the call. The converse is for names that
an unquoted identifier can have, and for a first occurrence that is not in a comment, or is in one that
neither it nor the sub-query can end. -/
theorem aquaSelectParser_rewrites {env : ParserEnv} {name : Text → Text} (site : CallSite env name)
    (hquery : Closes site.query) :
    (site.Located → site.Rewritten) ∧
      (IsIdentifier site.f →
        (∀ b a, strstr site.fullNudf site.text = some (b, a) → (scanned b).2.commented = true →
          Inert site.fullNudf ∧ Inert site.query) →
        site.Rewritten → site.Located) :=
  ⟨site.rewritten_of_located hquery, site.located_of_rewritten hquery⟩

/-- `SELECT f(x)` becomes `SELECT (SELECT 1)`. -/
theorem aquaSelectParser_rewrites_plain :
    plainSite.text = "SELECT f(x)".toList ∧ plainSite.Rewritten := by
  refine ⟨rfl, (aquaSelectParser_rewrites plainSite closes_select).1 ⟨?_, [], ?_, rfl⟩⟩
  · exact ⟨[], ⟨[['f']], columnRefs [['x']]⟩, [], rfl, (fun c hc => by cases hc), .inl rfl, ['f'], rfl,
      rfl⟩
  · decide +kernel

/-- None of `SELECT f( x )`, `SELECT F(x)`, `SELECT f(x,y)` and `SELECT 'f(x)',f(x)` is rewritten as it
should: the first three come back as they are, in the last the literal is rewritten. -/
theorem aquaSelectParser_rewrites_wrongly :
    ¬ spacedSite.Rewritten ∧ ¬ capitalSite.Rewritten ∧ ¬ pairSite.Rewritten ∧
      ¬ literalSite.Rewritten := by
  refine ⟨not_rewritten_demo rfl rfl ?_ ?_, not_rewritten_demo rfl rfl ?_ ?_,
    not_rewritten_demo rfl rfl ?_ ?_, not_rewritten_demo rfl rfl ?_ ?_⟩
  all_goals decide +kernel

end Peps.Sql
