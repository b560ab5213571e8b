import Peps.Parser.Lexer

/-!
# What the tokens keep of a text

The tokens of a text, written one behind the other, are what is `kept` of it, and that grows with the
text: a character which is no blank, no quote and no operator is found again in the tokens, behind
everything kept before it, unless it is in a comment (`kept_isPrefix`). Two texts that part at such a
character have different tokens.

In a comment nothing is kept, and what is written there makes no difference as long as it cannot end the
comment or open another one (`tokens_inert`).

A parenthesis ends the token before it, so a text goes on behind it as if it began there
(`tokens_parenthesis`).
-/

namespace Peps.Sql

open Lib

/-! ## Solid characters -/

/-- A character that begins a name, or `(`: it stands for itself in every token it can be part of. -/
def Solid (c : Char) : Prop := isIdentStart c = true ∨ c = '"' ∨ c = '('

theorem isDigit_of_isIdentStart {c : Char} (h : isIdentStart c = true) : isDigit c = false := by
  by_contra hdigit
  rw [Bool.not_eq_false, isDigit, Bool.and_eq_true, decide_eq_true_iff, decide_eq_true_iff] at hdigit
  have hne : c ≠ '_' := by
    rintro rfl
    exact absurd hdigit.2 (by decide)
  simp only [isIdentStart, Bool.or_eq_true, Bool.and_eq_true, decide_eq_true_iff, hne, or_false] at h
  omega

namespace Solid

variable {c : Char}

theorem not_mem (h : Solid c) {l : List Char}
    (hl : l.all (fun d => !isIdentStart d && d != '"' && d != '(') = true) : c ∉ l := by
  intro hmem
  have hc := List.all_eq_true.mp hl c hmem
  rcases h with h | rfl | rfl
  · rw [h] at hc
    cases hc
  · cases hc
  · cases hc

theorem ne (h : Solid c) {d : Char}
    (hd : [d].all (fun d => !isIdentStart d && d != '"' && d != '(') = true) : c ≠ d :=
  fun heq => h.not_mem hd (List.mem_singleton.mpr heq)

theorem isDigit (h : Solid c) : isDigit c = false := by
  rcases h with h | rfl | rfl
  · exact isDigit_of_isIdentStart h
  · rfl
  · rfl

theorem isSpace (h : Solid c) : isSpace c = false := decide_eq_false (h.not_mem (by decide))

theorem isNewline (h : Solid c) : isNewline c = false := decide_eq_false (h.not_mem (by decide))

theorem isSign (h : Solid c) : isSign c = false := decide_eq_false (h.not_mem (by decide))

theorem isOpChar (h : Solid c) : isOpChar c = false := decide_eq_false (h.not_mem (by decide))

end Solid

/-- No line break, and no half of a comment delimiter. -/
def Inert (w : Text) : Prop := ∀ c ∈ w, c ∉ ['\n', '\r', '*', '/']

/-! ## One step -/

namespace Lexing

theorem flatten_opTokens (u : Text) : (opTokens u).flatten = u := by
  unfold opTokens
  split
  · exact List.flatten_singleton ..
  · have hsigns : ((u.rtakeWhile isSign).map fun c => [c]).flatten = u.rtakeWhile isSign := by
      rw [← List.flatMap_def]
      exact List.flatMap_singleton' _
    have hcore : (if u.rdropWhile isSign = [] then [] else [u.rdropWhile isSign]).flatten =
        u.rdropWhile isSign := by
      split
      · next h => rw [h]; rfl
      · exact List.flatten_singleton ..
    rw [List.flatten_append, hsigns, hcore, List.rdropWhile_append_rtakeWhile]

/-- The text that the lexer has read of tokens it has not completed. -/
def read : Lexing → Text
  | start | line | block .. | junk => []
  | ident u | quoted _ u | backslash u | quote _ u | delimited u | dquote u | param u | integer u
  | decimal u | exponent u | exponentSign u | real u | op u => u
  | uescape u => u ++ ['&']
  | stop _ u _ gap => if gap = .dash then u ++ ['-'] else u
  | dollar => ['$']
  | tag u => '$' :: u
  | dollarQuoted delim u => delim ++ u
  | integerDot u => u ++ ['.']
  | dot => ['.']
  | colon => [':']

/-- The part of it that no comment can take away. -/
def held : Lexing → Text
  | op u => u.dropLast
  | uescape u | stop _ u _ _ => u
  | s => s.read

theorem flatten_close {s : Lexing} {out : List Text} (h : s.close = some out) :
    out.flatten = s.read := by
  cases s with
  | op u =>
    obtain rfl := Option.some.inj h
    exact flatten_opTokens u
  | stop kind u newline gap =>
    obtain rfl := Option.some.inj h
    cases gap <;> simp [read]
  | block | quoted | backslash | delimited | dollarQuoted | exponent | exponentSign | junk => cases h
  | _ =>
    obtain rfl := Option.some.inj h
    simp [read]

theorem held_isPrefix_read (s : Lexing) : s.held <+: s.read := by
  cases s with
  | op u => exact List.dropLast_prefix u
  | uescape u => exact List.prefix_append ..
  | stop kind u newline gap =>
    cases gap with
    | dash => exact List.prefix_append ..
    | blanks => exact List.prefix_refl _
    | comment => exact List.prefix_refl _
  | _ => exact List.prefix_refl _

/-- What comes out of a step: the completed tokens and what is held then. -/
def yield (out : List Text × Lexing) : Text := out.1.flatten ++ out.2.held

theorem yield_next (out : List Text) (c : Char) :
    yield (next out c) = out.flatten ++ yield (enter c) := by
  rw [yield, next, List.flatten_append, List.append_assoc]
  rfl

theorem yield_giveBack (out : List Text) (r : List Text × Lexing) :
    yield (giveBack out r) = out.flatten ++ yield r := by
  rw [yield, giveBack, List.flatten_append, List.append_assoc]
  rfl

theorem isPrefix_next (u : Text) (c : Char) : u <+: yield (next [u] c) := by
  rw [yield_next, List.flatten_singleton]
  exact List.prefix_append ..

theorem isPrefix_stepOp (u : Text) (c : Char) : u.dropLast <+: yield (stepOp u c) := by
  unfold stepOp
  split
  · show _ <+: (opTokens u.dropLast).flatten ++ []
    rw [flatten_opTokens, List.append_nil]
  split
  · show _ <+: (opTokens u.dropLast).flatten ++ []
    rw [flatten_opTokens, List.append_nil]
  split
  · show _ <+: (u ++ [c]).dropLast
    rw [List.dropLast_concat]
    exact List.dropLast_prefix u
  · rw [yield_next, flatten_opTokens]
    exact (List.dropLast_prefix u).trans (List.prefix_append ..)

theorem isPrefix_stepIdent (u : Text) (c : Char) : u <+: yield (stepIdent u c) := by
  unfold stepIdent
  split
  · exact List.prefix_append ..
  split
  · exact List.prefix_append ..
  split
  · exact List.prefix_append ..
  split
  · exact List.prefix_refl _
  · exact isPrefix_next u c

theorem isPrefix_stepStop (kind : Quoted) (u : Text) (newline : Bool) (gap : Gap) (c : Char) :
    u <+: yield (stepStop kind u newline gap c) := by
  cases gap with
  | blanks =>
    rw [stepStop]
    split
    · exact List.prefix_refl _
    split
    · exact List.prefix_refl _
    split
    · exact List.prefix_append ..
    · exact isPrefix_next u c
  | dash =>
    rw [stepStop]
    split
    · exact List.prefix_refl _
    · rw [yield_giveBack, List.flatten_singleton]
      exact List.prefix_append ..
  | comment =>
    rw [stepStop]
    split
    · exact List.prefix_refl _
    · exact List.prefix_refl _

theorem isPrefix_stepNumber {digits : Text → Lexing} (hdigits : ∀ v, (digits v).held = v) (u : Text)
    (c : Char) : u <+: yield (stepNumber digits u c) ∨ (stepNumber digits u c).2 = junk := by
  unfold stepNumber
  split
  · left
    show u <+: (digits (u ++ [c])).held
    rw [hdigits]
    exact List.prefix_append ..
  split
  · exact .inr rfl
  · exact .inl (isPrefix_next u c)

/-- **One character keeps what is held**, or is an error. -/
theorem held_step (s : Lexing) (c : Char) :
    s.held <+: (s.step c).1.flatten ++ (s.step c).2.held ∨ (s.step c).2 = junk := by
  show s.held <+: yield (s.step c) ∨ _
  cases s with
  | start | line | block | junk => exact .inl (List.nil_prefix ..)
  | ident u => exact .inl (isPrefix_stepIdent u c)
  | uescape u =>
    left
    rw [step]
    split
    · exact List.prefix_append ..
    split
    · exact List.prefix_append ..
    · rw [yield_giveBack, List.flatten_singleton]
      exact List.prefix_append ..
  | quoted kind u =>
    left
    rw [step]
    split
    · exact List.prefix_append ..
    split
    · exact List.prefix_append ..
    · exact List.prefix_append ..
  | backslash u => exact .inl (List.prefix_append ..)
  | quote kind u =>
    left
    rw [step]
    split
    · exact List.prefix_append ..
    · exact isPrefix_stepStop ..
  | stop kind u newline gap => exact .inl (isPrefix_stepStop ..)
  | delimited u =>
    left
    show u <+: (if c = '"' then dquote (u ++ [c]) else delimited (u ++ [c])).held
    split
    · exact List.prefix_append ..
    · exact List.prefix_append ..
  | dquote u =>
    left
    rw [step]
    split
    · exact List.prefix_append ..
    · exact isPrefix_next u c
  | dollar =>
    left
    rw [step]
    split
    · exact List.prefix_append ['$'] [c]
    split
    · exact List.prefix_append ['$'] [c]
    split
    · exact List.prefix_append ['$'] ['$']
    · exact isPrefix_next _ c
  | tag u =>
    left
    rw [step]
    split
    · exact List.prefix_append ('$' :: u) [c]
    split
    · show '$' :: u <+: '$' :: (u ++ [c]) ++ []
      rw [List.append_nil]
      exact List.prefix_append ('$' :: u) [c]
    · rw [yield_giveBack]
      exact (List.prefix_cons_inj '$').mpr (isPrefix_stepIdent u c)
  | dollarQuoted delim u =>
    left
    rw [step]
    have hgrow : delim ++ u <+: delim ++ (u ++ [c]) := by
      rw [← List.append_assoc]
      exact List.prefix_append ..
    split
    · show delim ++ u <+: [delim ++ (u ++ [c])].flatten ++ []
      rw [List.flatten_singleton, List.append_nil]
      exact hgrow
    · exact hgrow
  | param u => exact isPrefix_stepNumber (fun v => rfl) u c
  | integer u =>
    rw [step]
    split
    · exact .inl (List.prefix_append ..)
    split
    · exact .inl (List.prefix_append ..)
    · exact isPrefix_stepNumber (fun v => rfl) u c
  | integerDot u =>
    rw [step]
    split
    · left
      show u ++ ['.'] <+: [u, ['.', '.']].flatten ++ []
      exact ⟨['.'], by simp⟩
    split
    · left
      show u ++ ['.'] <+: u ++ ['.', c]
      exact ⟨[c], by simp⟩
    · exact isPrefix_stepNumber (fun v => rfl) (u ++ ['.']) c
  | decimal u =>
    rw [step]
    split
    · exact .inl (List.prefix_append ..)
    · exact isPrefix_stepNumber (fun v => rfl) u c
  | exponent u =>
    rw [step]
    split
    · exact .inl (List.prefix_append ..)
    split
    · exact .inl (List.prefix_append ..)
    · exact .inr rfl
  | exponentSign u =>
    show u <+: (if isDigit c then real (u ++ [c]) else junk).held ∨
      (if isDigit c then real (u ++ [c]) else junk) = junk
    split
    · exact .inl (List.prefix_append ..)
    · exact .inr rfl
  | real u => exact isPrefix_stepNumber (fun v => rfl) u c
  | op u => exact .inl (isPrefix_stepOp u c)
  | dot =>
    left
    rw [step]
    split
    · exact List.prefix_append ['.'] [c]
    split
    · exact List.prefix_append ['.'] ['.']
    · exact isPrefix_next _ c
  | colon =>
    left
    rw [step]
    split
    · exact List.prefix_append [':'] [':']
    split
    · exact List.prefix_append [':'] ['=']
    · exact isPrefix_next _ c

theorem yield_enter {c : Char} (h : Solid c) : yield (enter c) = [c] := by
  rw [enter, h.isSpace, if_neg Bool.false_ne_true]
  split
  · rfl
  · rw [h.isDigit, h.isOpChar, if_neg Bool.false_ne_true, if_neg Bool.false_ne_true,
      if_neg (h.ne (by decide)), if_neg (h.ne (by decide) : c ≠ '$'), if_neg (h.ne (by decide) : c ≠ '.'),
      if_neg (h.ne (by decide) : c ≠ ':')]
    split
    · rfl
    · rfl

theorem yield_next_solid {c : Char} (h : Solid c) (u : Text) : yield (next [u] c) = u ++ [c] := by
  rw [yield_next, List.flatten_singleton, yield_enter h]

theorem yield_stepOp {c : Char} (h : Solid c) (u : Text) : yield (stepOp u c) = u ++ [c] := by
  rw [stepOp, if_neg fun hc => h.ne (by decide) hc.2, if_neg fun hc => h.ne (by decide) hc.2,
    h.isOpChar, if_neg Bool.false_ne_true, yield_next, flatten_opTokens, yield_enter h]

theorem yield_stepIdent {c : Char} (h : Solid c) (u : Text) : yield (stepIdent u c) = u ++ [c] := by
  rw [stepIdent, if_neg (fun hc => h.ne (by decide) hc.1 : ¬ (c = '\'' ∧ u ∈ [['b'], ['B'], ['x'], ['X']])),
    if_neg (fun hc => h.ne (by decide) hc.1 : ¬ (c = '\'' ∧ u ∈ [['e'], ['E']])),
    if_neg (fun hc => h.ne (by decide) hc.1 : ¬ (c = '&' ∧ _))]
  split
  · rfl
  · exact yield_next_solid h u

theorem yield_stepStop {c : Char} (h : Solid c) (kind : Quoted) (u : Text) (newline : Bool)
    {gap : Gap} (hgap : gap ≠ .comment) :
    yield (stepStop kind u newline gap c) = (stop kind u newline gap).read ++ [c] := by
  cases gap with
  | blanks =>
    rw [stepStop, h.isSpace, if_neg Bool.false_ne_true, if_neg (h.ne (by decide)),
      if_neg fun hc => h.ne (by decide) hc.1]
    exact yield_next_solid h u
  | dash =>
    rw [stepStop, if_neg (h.ne (by decide)), yield_giveBack, yield_stepOp h, List.flatten_singleton,
      ← List.append_assoc]
    rfl
  | comment => exact absurd rfl hgap

theorem yield_stepNumber {c : Char} (h : Solid c) (digits : Text → Lexing) (u : Text) :
    yield (stepNumber digits u c) = u ++ [c] ∨ (stepNumber digits u c).2 = junk := by
  rw [stepNumber, h.isDigit, if_neg Bool.false_ne_true]
  split
  · exact .inr rfl
  · exact .inl (yield_next_solid h u)

/-- **Outside of comments a solid character is kept**, or is an error. -/
theorem yield_step {s : Lexing} (hs : s.commented = false) {c : Char} (h : Solid c) :
    yield (s.step c) = s.read ++ [c] ∨ (s.step c).2 = junk := by
  cases s with
  | line | block => cases hs
  | junk => exact .inr rfl
  | start => exact .inl (yield_enter h)
  | ident u => exact .inl (yield_stepIdent h u)
  | uescape u =>
    left
    rw [step, if_neg (h.ne (by decide))]
    split
    · show u ++ ['&', c] = u ++ ['&'] ++ [c]
      rw [List.append_assoc]
      rfl
    · rw [yield_giveBack, yield_stepOp h, List.flatten_singleton, ← List.append_assoc]
      rfl
  | quoted kind u =>
    left
    rw [step, if_neg (h.ne (by decide)), if_neg fun hc => h.ne (by decide) hc.1]
    rfl
  | backslash u => exact .inl rfl
  | quote kind u =>
    left
    rw [step, if_neg fun hc => h.ne (by decide) hc.1]
    exact yield_stepStop h kind u false Gap.noConfusion
  | stop kind u newline gap =>
    left
    refine yield_stepStop h kind u newline ?_
    rintro rfl
    cases hs
  | delimited u =>
    left
    show (if c = '"' then dquote (u ++ [c]) else delimited (u ++ [c])).held = u ++ [c]
    split
    · rfl
    · rfl
  | dquote u =>
    left
    rw [step]
    split
    · rfl
    · exact yield_next_solid h u
  | dollar =>
    left
    rw [step, h.isDigit, if_neg Bool.false_ne_true, if_neg (h.ne (by decide) : c ≠ '$')]
    split
    · rfl
    · exact yield_next_solid h ['$']
  | tag u =>
    left
    rw [step, if_neg (h.ne (by decide) : c ≠ '$')]
    split
    · rfl
    · rw [yield_giveBack, yield_stepIdent h]
      rfl
  | dollarQuoted delim u =>
    left
    rw [step]
    split
    · show [delim ++ (u ++ [c])].flatten ++ [] = delim ++ u ++ [c]
      rw [List.flatten_singleton, List.append_nil, List.append_assoc]
    · show delim ++ (u ++ [c]) = delim ++ u ++ [c]
      rw [List.append_assoc]
  | param u => exact yield_stepNumber h param u
  | integer u =>
    rw [step, if_neg (h.ne (by decide))]
    split
    · exact .inl rfl
    · exact yield_stepNumber h integer u
  | integerDot u =>
    rw [step, if_neg (h.ne (by decide))]
    split
    · left
      show u ++ ['.', c] = u ++ ['.'] ++ [c]
      rw [List.append_assoc]
      rfl
    · exact yield_stepNumber h decimal (u ++ ['.'])
  | decimal u =>
    rw [step]
    split
    · exact .inl rfl
    · exact yield_stepNumber h decimal u
  | exponent u =>
    right
    rw [step, h.isDigit, h.isSign, if_neg Bool.false_ne_true, if_neg Bool.false_ne_true]
  | exponentSign u =>
    right
    rw [step, h.isDigit, if_neg Bool.false_ne_true]
  | real u => exact yield_stepNumber h real u
  | op u => exact .inl (yield_stepOp h u)
  | dot =>
    left
    rw [step, h.isDigit, if_neg Bool.false_ne_true, if_neg (h.ne (by decide))]
    exact yield_next_solid h ['.']
  | colon =>
    left
    rw [step, if_neg (h.ne (by decide)), if_neg (h.ne (by decide) : c ≠ '=')]
    exact yield_next_solid h [':']

/-- **A parenthesis ends the token before it**, outside of comments. -/
theorem step_parenthesis {s : Lexing} {out : List Text} (hclose : s.close = some out)
    (hs : s.commented = false) {p : Char} (hp : p = '(' ∨ p = ')') : s.step p = (out ++ [[p]], start) := by
  have hnext : s.step p = next out p := by
    cases s with
    | block | quoted | backslash | delimited | dollarQuoted | exponent | exponentSign | junk =>
      cases hclose
    | line => cases hs
    | stop kind u newline gap =>
      obtain rfl := Option.some.inj hclose
      cases gap with
      | comment => cases hs
      | blanks => rcases hp with rfl | rfl <;> rfl
      | dash => rcases hp with rfl | rfl <;> rfl
    | op u =>
      obtain rfl := Option.some.inj hclose
      have hne : p ≠ '-' ∧ p ≠ '*' := by rcases hp with rfl | rfl <;> decide
      rw [step, stepOp, if_neg fun h => hne.1 h.2, if_neg fun h => hne.2 h.2]
      rcases hp with rfl | rfl <;> rfl
    | _ =>
      obtain rfl := Option.some.inj hclose
      rcases hp with rfl | rfl <;> rfl
  rw [hnext, next]
  rcases hp with rfl | rfl <;> rfl

/-- The character begins a new token. -/
def Breaks (s : Lexing) (c : Char) : Prop := ∃ out, s.close = some out ∧ s.step c = next out c

theorem Breaks.not_commented {s : Lexing} {c : Char} (h : s.Breaks c) (hc : Solid c) :
    s.commented = false := by
  obtain ⟨out, hclose, hstep⟩ := h
  -- the character would be kept as the start of a token, and a comment drops it
  have hyield : yield (s.step c) = s.read ++ [c] := by
    rw [hstep, yield_next, flatten_close hclose, yield_enter hc]
  have hne : ∀ u : Text, u ≠ u ++ [c] := fun u h => by simpa using congrArg List.length h
  cases s with
  | block => cases hclose
  | line =>
    rw [step, hc.isNewline] at hyield
    exact absurd hyield (hne [])
  | stop kind u newline gap =>
    cases gap with
    | comment =>
      rw [step, stepStop, hc.isNewline] at hyield
      exact absurd hyield (hne u)
    | blanks => rfl
    | dash => rfl
  | _ => rfl

/-- Behind a character of a comment that is no part of a delimiter. -/
def settled : Lexing → Lexing
  | block depth _ => block depth .none
  | s => s

theorem step_inert {s : Lexing} (hs : s.commented = true) {c : Char} (hc : c ∉ ['\n', '\r', '*', '/']) :
    s.step c = ([], s.settled) := by
  simp only [List.mem_cons, List.not_mem_nil, or_false, not_or] at hc
  obtain ⟨hn, hr, hstar, hslash⟩ := hc
  have hnewline : isNewline c = false := by simp [isNewline, hn, hr]
  cases s with
  | line =>
    rw [step, hnewline]
    rfl
  | block depth half =>
    have hblock : stepBlock depth half c = block depth .none := by
      cases half <;> simp [stepBlock, hstar, hslash]
    rw [step, hblock]
    rfl
  | stop kind u newline gap =>
    cases gap with
    | comment =>
      rw [step, stepStop, hnewline]
      rfl
    | blanks => cases hs
    | dash => cases hs
  | _ => cases hs

/-- **A comment goes on over a text that has no delimiter in it.** -/
theorem transduce_inert {w : Text} (hw : Inert w) (hne : w ≠ []) :
    ∀ {s : Lexing}, s.commented = true → transduce step s w = ([], s.settled) := by
  induction w with
  | nil => exact absurd rfl hne
  | cons c w ih =>
    intro s hs
    rw [transduce_cons, step_inert hs (hw c (List.mem_cons_self ..))]
    cases w with
    | nil => rfl
    | cons c' w =>
      have hsettled : s.settled.commented = true ∧ s.settled.settled = s.settled := by
        cases s <;> exact ⟨hs, rfl⟩
      rw [ih (fun c hc => hw c (List.mem_cons_of_mem _ hc)) (List.cons_ne_nil _ _) hsettled.1,
        hsettled.2]
      rfl

theorem transduceAll_junk (w : Text) : transduceAll step close junk w = none := by
  induction w with
  | nil => rfl
  | cons c w ih =>
    rw [transduceAll_cons]
    show (transduceAll step close junk w).map _ = none
    rw [ih]
    rfl

end Lexing

/-! ## Texts side by side -/

section Texts

variable {text : Text} {out : List Text}

theorem tokens_append (text w : Text) :
    tokens (text ++ w) =
      (transduceAll Lexing.step Lexing.close (scanned text).2 w).map ((scanned text).1 ++ ·) :=
  transduceAll_append ..

theorem tokens_eq_some (h : tokens text = some out) :
    ∃ rest, (scanned text).2.close = some rest ∧ out = (scanned text).1 ++ rest := by
  obtain ⟨rest, hclose, rfl⟩ := Option.map_eq_some_iff.mp h
  exact ⟨rest, hclose, rfl⟩

/-- The characters that a text passes on to its tokens. -/
def kept (text : Text) : Text := (scanned text).1.flatten ++ (scanned text).2.read

theorem flatten_tokens (h : tokens text = some out) : out.flatten = kept text := by
  obtain ⟨rest, hclose, rfl⟩ := tokens_eq_some h
  rw [List.flatten_append, Lexing.flatten_close hclose]
  rfl

/-- **A solid character outside of comments is found again in the tokens**, behind all that was kept
before it. -/
theorem kept_isPrefix {c : Char} {w : Text} (htext : (scanned text).2.commented = false) (hc : Solid c)
    (h : tokens (text ++ c :: w) = some out) : kept text ++ [c] <+: out.flatten := by
  rw [tokens_append, transduceAll_cons, Option.map_map] at h
  obtain ⟨rest, hrest, rfl⟩ := Option.map_eq_some_iff.mp h
  have hheld := @held_isPrefix_flatten _ _ _ Lexing.step Lexing.close Lexing.held
    (fun s => s = Lexing.junk) Lexing.held_step
    (fun s out hclose => Lexing.flatten_close hclose ▸ s.held_isPrefix_read)
    (fun s w hdead => hdead ▸ Lexing.transduceAll_junk w) w _ _ hrest
  rcases Lexing.yield_step htext hc with hstep | hjunk
  · show _ <+: ((scanned text).1 ++ (((scanned text).2.step c).1 ++ rest)).flatten
    rw [kept, List.append_assoc, ← hstep, List.flatten_append, List.flatten_append]
    exact (List.prefix_append_right_inj _).mpr ((List.prefix_append_right_inj _).mpr hheld)
  · rw [hjunk, Lexing.transduceAll_junk] at hrest
    cases hrest

/-- **It makes no difference which of two texts stands in a comment.** -/
theorem tokens_inert (htext : (scanned text).2.commented = true) {u v : Text} (hu : Inert u)
    (hv : Inert v) (hu' : u ≠ []) (hv' : v ≠ []) (w : Text) :
    tokens (text ++ (u ++ w)) = tokens (text ++ (v ++ w)) := by
  rw [tokens_append, tokens_append, transduceAll_append, transduceAll_append,
    Lexing.transduce_inert hu hu' htext, Lexing.transduce_inert hv hv' htext]

/-- **A text goes on behind a parenthesis as if it began there.** -/
theorem tokens_parenthesis (h : tokens text = some out) (htext : (scanned text).2.commented = false)
    {p : Char} (hp : p = '(' ∨ p = ')') (w : Text) :
    tokens (text ++ p :: w) = (tokens w).map fun rest => out ++ [p] :: rest := by
  obtain ⟨rest, hclose, rfl⟩ := tokens_eq_some h
  rw [tokens_append, transduceAll_cons, Lexing.step_parenthesis hclose htext hp, Option.map_map]
  congr 1
  funext rest'
  show (scanned text).1 ++ (rest ++ [[p]] ++ rest') = (scanned text).1 ++ rest ++ [p] :: rest'
  simp

/-- The same where a token begins. -/
theorem tokens_breaks (h : tokens text = some out) {c : Char} (hbreaks : (scanned text).2.Breaks c)
    (w : Text) : tokens (text ++ c :: w) = (tokens (c :: w)).map (out ++ ·) := by
  obtain ⟨rest, hclose, rfl⟩ := tokens_eq_some h
  obtain ⟨rest', hclose', hstep⟩ := hbreaks
  obtain rfl : rest' = rest := Option.some.inj (hclose'.symm.trans hclose)
  rw [tokens_append, transduceAll_cons, hstep, tokens, transduceAll_cons, Option.map_map,
    Option.map_map]
  congr 1
  funext rest
  show (scanned text).1 ++ (rest' ++ (Lexing.enter c).1 ++ rest) =
    (scanned text).1 ++ rest' ++ ((Lexing.enter c).1 ++ rest)
  simp

end Texts

end Peps.Sql
