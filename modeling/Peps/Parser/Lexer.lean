import Mathlib.Data.List.DropRight
import Peps.Lib.Transducer
import Peps.Parser.FindCall

/-!
# `scan.l` — the tokens of a query text

The lexer of the server as a machine that reads one character at a time: a `Lexing` is what it has read
of the token it is in, `Lexing.step` what one more character does. flex takes the longest match and gives
characters back where a match fails half way; here such a state holds what it would give back.

A token is the text it is written with; of what separates the parts of a literal that goes on in another
line only a line break is kept. Not modelled are the errors for what stands inside a literal (an
invalid escape, an identifier of length zero); `standard_conforming_strings` is on.
-/

namespace Peps.Sql

open Lib

/-! ## Classes of characters -/

/-- `newline` -/
def isNewline (c : Char) : Bool := c ∈ ['\n', '\r']

/-- `space` -/
def isSpace (c : Char) : Bool := c ∈ [' ', '\t', '\n', '\r', '\x0c']

/-- `digit` -/
def isDigit (c : Char) : Bool := 48 ≤ c.toNat && c.toNat ≤ 57

/-- `ident_start` and `dolq_start`. -/
def isIdentStart (c : Char) : Bool :=
  65 ≤ c.toNat && c.toNat ≤ 90 || 97 ≤ c.toNat && c.toNat ≤ 122 || 128 ≤ c.toNat || c = '_'

/-- `dolq_cont` -/
def isDolqCont (c : Char) : Bool := isIdentStart c || isDigit c

/-- `ident_cont` -/
def isIdentCont (c : Char) : Bool := isDolqCont c || c = '$'

def isExponent (c : Char) : Bool := c ∈ ['e', 'E']

def isSign (c : Char) : Bool := c ∈ ['+', '-']

/-- `op_chars` -/
def isOpChar (c : Char) : Bool := c ∈ "~!@#^&|`?+-*/%<>=".toList

/-- The operator characters that let an operator end in a sign. -/
def isSpecialOp (c : Char) : Bool := c ∈ "~!@#^&|`?%".toList

/-! ## The machine -/

/-- The literals in single quotes: bits and hex digits (`xb`, `xh`), with backslashes (`xe`), and the
others (`xq`, `xus`). -/
inductive Quoted where
  | bits
  | escapes
  | plain
deriving DecidableEq

/-- The look for a continuation behind a closing quote: among blanks, behind one `-`, in a comment. -/
inductive Gap where
  | blanks
  | dash
  | comment
deriving DecidableEq

/-- What was last read inside a `/*` comment, if it may be half of a delimiter. -/
inductive Half where
  | none
  | star
  | slash
deriving DecidableEq

/-- The states of the lexer, with the text `u` of the token so far. -/
inductive Lexing where
  | start
  | line
  | block (depth : Nat) (half : Half)
  | ident (u : Text)
  /-- Behind `u&`, which may open a literal with Unicode escapes. -/
  | uescape (u : Text)
  | quoted (kind : Quoted) (u : Text)
  | backslash (u : Text)
  /-- Behind a quote in a literal: it is doubled, or it closes the literal. -/
  | quote (kind : Quoted) (u : Text)
  /-- Behind the literal `u`; a literal on a later line continues it. -/
  | stop (kind : Quoted) (u : Text) (newline : Bool) (gap : Gap)
  | delimited (u : Text)
  | dquote (u : Text)
  | dollar
  | tag (u : Text)
  | dollarQuoted (delim u : Text)
  | param (u : Text)
  | integer (u : Text)
  | integerDot (u : Text)
  | decimal (u : Text)
  | exponent (u : Text)
  | exponentSign (u : Text)
  | real (u : Text)
  | op (u : Text)
  | dot
  | colon
  /-- A lexical error. -/
  | junk
deriving DecidableEq

namespace Lexing

/-- What a character does between two tokens. -/
def enter (c : Char) : List Text × Lexing :=
  if isSpace c then ([], start)
  else if isIdentStart c then ([], ident [c])
  else if isDigit c then ([], integer [c])
  else if isOpChar c then ([], op [c])
  else if c = '\'' then ([], quoted .plain [c])
  else if c = '"' then ([], delimited [c])
  else if c = '$' then ([], dollar)
  else if c = '.' then ([], dot)
  else if c = ':' then ([], colon)
  else ([[c]], start)

/-- The tokens end before the character. -/
def next (tokens : List Text) (c : Char) : List Text × Lexing :=
  (tokens ++ (enter c).1, (enter c).2)

/-- The tokens were complete before the state that now reads the character. -/
def giveBack (tokens : List Text) (out : List Text × Lexing) : List Text × Lexing :=
  (tokens ++ out.1, out.2)

/-- A run of operator characters. Unless one of them allows it, an operator of several characters does
not end in a sign: the signs are given back, and come out one by one. -/
def opTokens (u : Text) : List Text :=
  if u.any isSpecialOp then [u]
  else (if u.rdropWhile isSign = [] then [] else [u.rdropWhile isSign]) ++
    (u.rtakeWhile isSign).map fun c => [c]

/-- A comment may start inside of a run of operator characters. -/
def stepOp (u : Text) (c : Char) : List Text × Lexing :=
  if u.getLast? = some '-' ∧ c = '-' then (opTokens u.dropLast, line)
  else if u.getLast? = some '/' ∧ c = '*' then (opTokens u.dropLast, block 0 .none)
  else if isOpChar c then ([], op (u ++ [c]))
  else next (opTokens u) c

def stepIdent (u : Text) (c : Char) : List Text × Lexing :=
  if isIdentCont c then ([], ident (u ++ [c]))
  else if c = '\'' ∧ u ∈ [['b'], ['B'], ['x'], ['X']] then ([], quoted .bits (u ++ [c]))
  else if c = '\'' ∧ u ∈ [['e'], ['E']] then ([], quoted .escapes (u ++ [c]))
  else if c = '&' ∧ u ∈ [['u'], ['U']] then ([], uescape u)
  else next [u] c

/-- State `xqs`. -/
def stepStop (kind : Quoted) (u : Text) (newline : Bool) : Gap → Char → List Text × Lexing
  | .blanks, c =>
    if isSpace c then ([], stop kind u (newline || isNewline c) .blanks)
    else if c = '-' then ([], stop kind u newline .dash)
    else if c = '\'' ∧ newline then ([], quoted kind (u ++ ['\n', c]))
    else next [u] c
  | .dash, c =>
    if c = '-' then ([], stop kind u newline .comment)
    else giveBack [u] (stepOp ['-'] c)
  | .comment, c =>
    if isNewline c then ([], stop kind u true .blanks)
    else ([], stop kind u newline .comment)

/-- State `xc`. -/
def stepBlock (depth : Nat) : Half → Char → Lexing
  | .star, '/' => if depth = 0 then start else block (depth - 1) .none
  | .slash, '*' => block (depth + 1) .none
  | _, '*' => block depth .star
  | _, '/' => block depth .slash
  | _, _ => block depth .none

/-- A number can go on as `digits`, and must not be followed by a letter. -/
def stepNumber (digits : Text → Lexing) (u : Text) (c : Char) : List Text × Lexing :=
  if isDigit c then ([], digits (u ++ [c]))
  else if isIdentStart c then ([], junk)
  else next [u] c

/-- What one character does. -/
def step : Lexing → Char → List Text × Lexing
  | start, c => enter c
  | line, c => ([], if isNewline c then start else line)
  | block depth half, c => ([], stepBlock depth half c)
  | ident u, c => stepIdent u c
  | uescape u, c =>
    if c = '\'' then ([], quoted .plain (u ++ ['&', c]))
    else if c = '"' then ([], delimited (u ++ ['&', c]))
    else giveBack [u] (stepOp ['&'] c)
  | quoted kind u, c =>
    if c = '\'' then ([], quote kind (u ++ [c]))
    else if c = '\\' ∧ kind = .escapes then ([], backslash (u ++ [c]))
    else ([], quoted kind (u ++ [c]))
  | backslash u, c => ([], quoted .escapes (u ++ [c]))
  | quote kind u, c =>
    if c = '\'' ∧ kind ≠ .bits then ([], quoted kind (u ++ [c]))
    else stepStop kind u false .blanks c
  | stop kind u newline gap, c => stepStop kind u newline gap c
  | delimited u, c => ([], if c = '"' then dquote (u ++ [c]) else delimited (u ++ [c]))
  | dquote u, c => if c = '"' then ([], delimited (u ++ [c])) else next [u] c
  | dollar, c =>
    if isDigit c then ([], param ['$', c])
    else if isIdentStart c then ([], tag [c])
    else if c = '$' then ([], dollarQuoted ['$', '$'] [])
    else next [['$']] c
  | tag u, c =>
    if isDolqCont c then ([], tag (u ++ [c]))
    else if c = '$' then ([], dollarQuoted ('$' :: (u ++ [c])) [])
    else giveBack [['$']] (stepIdent u c)
  | dollarQuoted delim u, c =>
    if delim <:+ u ++ [c] then ([delim ++ (u ++ [c])], start)
    else ([], dollarQuoted delim (u ++ [c]))
  | param u, c => stepNumber param u c
  | integer u, c =>
    if c = '.' then ([], integerDot u)
    else if isExponent c then ([], exponent (u ++ [c]))
    else stepNumber integer u c
  | integerDot u, c =>
    -- the digits before `..` are an integer
    if c = '.' then ([u, ['.', '.']], start)
    else if isExponent c then ([], exponent (u ++ ['.', c]))
    else stepNumber decimal (u ++ ['.']) c
  | decimal u, c =>
    if isExponent c then ([], exponent (u ++ [c]))
    else stepNumber decimal u c
  | exponent u, c =>
    if isDigit c then ([], real (u ++ [c]))
    else if isSign c then ([], exponentSign (u ++ [c]))
    else ([], junk)
  | exponentSign u, c => ([], if isDigit c then real (u ++ [c]) else junk)
  | real u, c => stepNumber real u c
  | op u, c => stepOp u c
  | dot, c =>
    if isDigit c then ([], decimal ['.', c])
    else if c = '.' then ([['.', '.']], start)
    else next [['.']] c
  | colon, c =>
    if c = ':' then ([[':', ':']], start)
    else if c = '=' then ([[':', '=']], start)
    else next [[':']] c
  | junk, _ => ([], junk)

/-- The tokens left when the text ends. -/
def close : Lexing → Option (List Text)
  | start | line => some []
  | ident u | quote _ u | dquote u | param u | integer u | decimal u | real u => some [u]
  | uescape u => some [u, ['&']]
  | stop _ u _ gap => some (if gap = .dash then [u, ['-']] else [u])
  | dollar => some [['$']]
  | tag u => some [['$'], u]
  | integerDot u => some [u ++ ['.']]
  | op u => some (opTokens u)
  | dot => some [['.']]
  | colon => some [[':']]
  | block .. | quoted .. | backslash _ | delimited _ | dollarQuoted .. | exponent _ | exponentSign _
  | junk => none

/-- In a comment, of either kind. -/
def commented : Lexing → Bool
  | line | block .. | stop _ _ _ .comment => true
  | _ => false

end Lexing

/-- The tokens that a text completes, and the state behind it. -/
def scanned (text : Text) : List Text × Lexing := transduce Lexing.step .start text

/-- The tokens of a text, unless it has a lexical error. -/
def tokens (text : Text) : Option (List Text) := transduceAll Lexing.step Lexing.close .start text

example : tokens "a=-1 -- b\n || $$c$$".toList =
    some ["a".toList, "=".toList, "-".toList, "1".toList, "||".toList, "$$c$$".toList] := by
  decide +kernel

end Peps.Sql
