import ScopeLisp.Proofs.Concatenation
import ScopeLisp.Proofs.Truncation

/-!
# Faults are reported in time

A fault stands at a place up to which the text can be continued to a program. What a parser has
consumed when it finds a fault is the beginning of a program, and white space, a symbol where an
expression is missing, and closing parentheses complete it. A text that ends too early is reported
at its end.

The argument follows the parser. `ParseM.Leads` says of a step what holds when it succeeds and what
it has consumed when it fails; `Grammar.Viable` is what an unfinished expression leaves behind.

## Key results

- `Grammar.Viable` and its lemmas: how the beginning of an expression grows
- `ParseM.expressionWithin_leads`: what an expression has consumed when it fails
- `parseAll_fault_stands_at_viable_beginning`: the same for whole source texts
-/

namespace ScopeLisp

open Grammar

/-! ## Beginnings of expressions -/

namespace Grammar

variable {n : Nat} {ks ks' ws : List Token.Kind} {d : Datum} {text : List Char}
  {items : List (List Token.Kind × Datum)}

/-- The last token is not blank. -/
def EndsSolid (ks : List Token.Kind) : Prop :=
  ∃ k, ks.getLast? = some k ∧ k ≠ .blank

/-- What ends solid still does with more tokens in front. -/
private theorem EndsSolid.append (h : EndsSolid ks) (before : List Token.Kind) :
    EndsSolid (before ++ ks) := by
  obtain ⟨k, hk, hne⟩ := h
  exact ⟨k, by rw [List.getLast?_append, hk, Option.some_or], hne⟩

/-- What ends solid does not end with white space. -/
private theorem EndsSolid.ne_blank (h : EndsSolid ks) : ks.getLast? ≠ some .blank := by
  obtain ⟨k, hk, hne⟩ := h
  rw [hk]
  exact fun heq => hne (Option.some.inj heq)

/-- An expression ends solid. -/
private theorem Expr.endsSolid (h : Expr n ks d) : EndsSolid ks := by
  have hlast := h.getLast?_ne_blank
  obtain ⟨k, rest, rfl, -⟩ := h.starts
  cases hk : (k :: rest).getLast? with
  | none => exact absurd (List.getLast?_eq_none_iff.1 hk) (List.cons_ne_nil k rest)
  | some last => exact ⟨last, hk, fun heq => hlast (by rw [hk, heq])⟩

/-- Further elements keep the end solid. -/
private theorem EndsSolid.append_separated (h : EndsSolid ks)
    (hitems : ∀ item ∈ items, Expr n item.1 item.2) : EndsSolid (ks ++ separated items) := by
  induction items generalizing ks with
  | nil => rwa [separated_nil, List.append_nil]
  | cons item items ih =>
    have hrest := ih (hitems item List.mem_cons_self).endsSolid
      fun i hi => hitems i (List.mem_cons_of_mem _ hi)
    rw [separated_cons, List.append_cons]
    exact hrest.append _

/-- A text that completes an expression, with its tokens: a symbol where an expression is missing,
    or a closing parenthesis, and then further closing parentheses. -/
inductive Closing : (text : List Char) → (ks : List Token.Kind) → Prop where
  | atom : Closing ['x'] [.symbol "x"]
  | paren : Closing [')'] [.rightParen]
  | close {text : List Char} {ks : List Token.Kind} : Closing text ks →
      Closing (text ++ [')']) (ks ++ [.rightParen])

/-- What completes an expression ends solid. -/
private theorem Closing.endsSolid (h : Closing text ks) : EndsSolid ks := by
  cases h with
  | atom => exact ⟨_, rfl, nofun⟩
  | paren => exact ⟨_, rfl, nofun⟩
  | close h => exact EndsSolid.append ⟨.rightParen, rfl, nofun⟩ _

/-- What completes an expression starts with a token that is not blank. -/
private theorem Closing.starts (h : Closing text ks) : ∃ k rest, ks = k :: rest ∧ k ≠ .blank := by
  induction h with
  | atom => exact ⟨_, _, rfl, nofun⟩
  | paren => exact ⟨_, _, rfl, nofun⟩
  | close h ih =>
    obtain ⟨k, rest, rfl, hne⟩ := ih
    exact ⟨k, _, rfl, hne⟩

/-- What completes an expression has the tokens that it is given with. -/
private theorem Closing.lexes (h : Closing text ks) : Lexes text ks [] := by
  have hparen : Lexes [')'] [.rightParen] [] :=
    .token (l := ⟨.rightParen, [')'], []⟩) (Lexeme.scan?_of_mark? rfl) (.done [])
  induction h with
  | atom => exact .token (l := ⟨.symbol "x", ['x'], []⟩) (Lexeme.scan?_of_symbol? rfl) (.done [])
  | paren => exact hparen
  -- A closing parenthesis breaks the lexeme in front of it.
  | close h ih =>
    exact (ih.append_text (Lexeme.breaks_rightParen []) fun _ => h.endsSolid.ne_blank).append hparen

/-- What completes an expression does not start with white space. -/
private theorem Closing.blankRun_eq_nil (h : Closing text ks) :
    (Lexeme.blankRun false text).1 = [] := by
  have hlex := h.lexes
  obtain ⟨k, rest, rfl, hne⟩ := h.starts
  exact hlex.blankRun_eq_nil hne

/-- Tokens at which an expression can be broken off: with white space and closing tokens behind them
    they are one. -/
structure Viable (n : Nat) (ks : List Token.Kind) : Prop where
  endsSolid : EndsSolid ks
  completes : ∃ text ks' d, Closing text ks' ∧ Expr n (ks ++ .blank :: ks') d

/-- Behind a quote mark a symbol completes the expression. -/
private theorem viable_quote : Viable (n + 1) [.quote] := by
  have hquoted := Expr.quoted .present (.symbol (n := n) "x")
  exact ⟨⟨.quote, rfl, nofun⟩, ['x'], _, .quoted (.symbol "x"), .atom, hquoted⟩

/-- Behind an opening parenthesis a closing one completes the expression. -/
private theorem viable_leftParen : Viable (n + 1) [.leftParen] := by
  refine ⟨⟨.leftParen, rfl, nofun⟩, [')'], _, .nil, .paren, ?_⟩
  exact .empty .present

/-- A quoted expression can be broken off wherever the inner one can. -/
private theorem Viable.quoted (hw : OptBlank ws) (h : Viable n ks) :
    Viable (n + 1) (.quote :: (ws ++ ks)) := by
  obtain ⟨text, ks', d, hclose, hx⟩ := h.completes
  refine ⟨h.endsSolid.append (.quote :: ws), text, ks', .quoted d, hclose, ?_⟩
  simpa using Expr.quoted hw hx

/-- A list can be broken off inside its first element. -/
theorem Viable.first (hw : OptBlank ws) (h : Viable n ks) :
    Viable (n + 1) (.leftParen :: (ws ++ ks)) := by
  obtain ⟨text, ks', d, hclose, hx⟩ := h.completes
  have hlist := Expr.list hw hx (List.forall_mem_nil _) .absent
  refine ⟨h.endsSolid.append (.leftParen :: ws), _, _, .ofList [d], hclose.close, ?_⟩
  simpa using hlist

/-- A list can be broken off behind any of its elements. -/
theorem viable_elements (hw : OptBlank ws) (hx : Expr n ks d)
    (hitems : ∀ item ∈ items, Expr n item.1 item.2) :
    Viable (n + 1) (.leftParen :: (ws ++ (ks ++ separated items))) := by
  -- White space may stand before the closing parenthesis, so nothing else is missing.
  have hlist := Expr.list hw hx hitems .present
  refine ⟨(hx.endsSolid.append_separated hitems).append (.leftParen :: ws), [')'], _,
    .ofList (d :: items.map (·.2)), .paren, ?_⟩
  simpa using hlist

/-- A list can be broken off inside any further element. -/
theorem Viable.element (hw : OptBlank ws) (hx : Expr n ks d)
    (hitems : ∀ item ∈ items, Expr n item.1 item.2) (h : Viable n ks') :
    Viable (n + 1) (.leftParen :: (ws ++ (ks ++ (separated items ++ .blank :: ks')))) := by
  obtain ⟨text, ks'', d', hclose, hx'⟩ := h.completes
  have hends := h.endsSolid.append (.leftParen :: (ws ++ (ks ++ (separated items ++ [.blank]))))
  -- The element that was broken off is completed, and with it the list.
  have hall : ∀ item ∈ items ++ [(ks' ++ .blank :: ks'', d')], Expr n item.1 item.2 := by
    intro item hitem
    rcases List.mem_append.1 hitem with hitem | hitem
    · exact hitems item hitem
    · rw [List.mem_singleton.1 hitem]
      exact hx'
  have hlist := Expr.list hw hx hall .absent
  refine ⟨by simpa using hends, _, _, .ofList (d :: (items.map (·.2) ++ [d'])), hclose.close, ?_⟩
  simpa [separated] using hlist

/-- Tokens at which a program can be broken off. -/
structure ViableProgram (ks : List Token.Kind) : Prop where
  last_ne_blank : ks.getLast? ≠ some .blank
  completes : ∃ text ks' ds, ((text = [] ∧ ks' = []) ∨ Closing text ks') ∧
    Program (ks ++ .blank :: ks') ds

/-- A program can be broken off before it starts. -/
private theorem viableProgram_nil : ViableProgram [] :=
  ⟨nofun, [], [], [], .inl ⟨rfl, rfl⟩, _, _, .present, .nil, rfl⟩

/-- A program can be broken off inside its first expression. -/
private theorem ViableProgram.of_viable (hw : OptBlank ws) (h : Viable maxNesting ks) :
    ViableProgram (ws ++ ks) := by
  obtain ⟨text, ks', d, hclose, hx⟩ := h.completes
  refine ⟨(h.endsSolid.append ws).ne_blank, text, ks', [d], .inr hclose, ws, _, hw,
    .cons hx .absent .nil, by simp⟩

/-- A program can be broken off behind an expression wherever it can without it. -/
theorem ViableProgram.cons (hw : OptBlank ws) (hx : Expr maxNesting ks d)
    (h : ViableProgram ks') : ViableProgram (ws ++ (ks ++ ks')) := by
  obtain ⟨text, ks'', ds, hclose, ws', rest, hw', hrest, heq⟩ := h.completes
  refine ⟨?_, text, ks'', d :: ds, hclose, ws, _, hw, .cons hx hw' hrest, ?_⟩
  · rw [← List.append_assoc, List.getLast?_append]
    cases hlast : ks'.getLast? with
    | none => rw [Option.none_or]; exact (hx.endsSolid.append ws).ne_blank
    | some k => rw [Option.some_or, ← hlast]; exact h.last_ne_blank
  · simp only [List.append_assoc, heq]

/-- A text whose tokens a program can be broken off at is continued to a program. -/
theorem ViableProgram.exists_program {before : List Char} (h : ViableProgram ks)
    (hw : OptBlank ws) (hlex : Lexes before (ks ++ ws) []) :
    ∃ more ks' ds, Program ks' ds ∧ Lexes (before ++ more) ks' [] := by
  obtain ⟨text, ks', ds, hclose, hprogram⟩ := h.completes
  -- A line feed separates what is there from what completes it, also behind a comment.
  refine ⟨'\n' :: text, _, ds, hprogram, ?_⟩
  rcases hclose with ⟨rfl, rfl⟩ | hclose
  · exact hlex.append_newline h.last_ne_blank hw (.done []) rfl
  · exact hlex.append_newline h.last_ne_blank hw hclose.lexes hclose.blankRun_eq_nil

end Grammar

/-! ## Where faults stand -/

/-- The causes that are the end of the text. -/
def SyntaxError.Cause.AtEnd : Cause → Prop
  | .unexpectedEnd | .unclosedList _ => True
  | _ => False

/-- A fault of a lexeme is not at the end of the text. -/
private theorem Scanner.not_atEnd_faultAt (c : Char) : ¬ (faultAt c).AtEnd := by
  unfold faultAt
  split <;> exact id

/-- The place in a source text from which on `t` is left. -/
def Position.IsBefore (source t : List Char) (position : Position) : Prop :=
  ∃ before, before ++ t = source ∧ position = start.advance before

/-- The fault stands where `t` is left of the source text, and that is nothing if the text ends too
    early. -/
structure SyntaxError.StandsBefore (source t : List Char) (fault : SyntaxError) : Prop where
  place : fault.position.IsBefore source t
  atEnd : fault.cause.AtEnd → t = []

/-- The parser keeps to the places of the source text, and so does the token that it looks at. -/
structure Parser.Located (source : List Char) (p : Parser) : Prop where
  stands : ∃ before, p.StandsAfter source before
  token : ∀ token, p.lookahead = some token → token.position = p.last

namespace Parser

variable {source t : List Char} {n : Nat} {p p' : Parser} {token : Token}

/-- A new parser is at the start of its source. -/
private theorem located_ofSource (source : String) : (ofSource source).Located source.toList :=
  ⟨⟨[], standsAfter_ofSource source⟩, nofun⟩

/-- The end of what was consumed is before the text that is left. -/
private theorem Located.isBefore (h : p.Located source) (hp : p.At n t) :
    p.last.IsBefore source t := by
  obtain ⟨before, hstands⟩ := h.stands
  exact ⟨before, by rw [← hp.text_eq]; exact hstands.source_eq, hstands.last_eq⟩

/-- Without a lookahead the scanner stands where the consumed text ends. -/
private theorem Located.position_eq (h : p.Located source) (hlook : p.lookahead = none) :
    p.scanner.position = p.last := by
  obtain ⟨before, hstands⟩ := h.stands
  rw [hstands.position_eq, hlook]
  rfl

/-- The number of open levels has no place. -/
private theorem Located.setDepth (h : p.Located source) (depth : Nat) :
    { p with depth }.Located source := by
  obtain ⟨before, hstands⟩ := h.stands
  exact ⟨⟨before, hstands.source_eq, hstands.last_eq, hstands.position_eq⟩, h.token⟩

/-- Consuming the token looked at keeps to the places of the source. -/
private theorem Located.consumed (h : p.Located source) : p.consumed.Located source := by
  obtain ⟨before, hstands⟩ := h.stands
  exact ⟨⟨_, hstands.consumed⟩, nofun⟩

/-- A token that is looked at stands where the consumed text ends. -/
theorem Located.peek (h : p.Located source) (hrun : p.run ParseM.peek = (.ok token, p')) :
    p'.Located source ∧ token.position = p'.last := by
  obtain ⟨before, hstands⟩ := h.stands
  have hpeek := hstands.peek
  rw [hrun] at hpeek
  have hposition : token.position = p'.last := by
    -- The token was ahead already, or is scanned now from where the consumed text ends.
    obtain ⟨hlook, rfl⟩ | ⟨hlook, s, hnext, rfl⟩ := ParseM.peek_cases hrun
    · exact h.token token hlook
    · rw [← h.position_eq hlook]
      obtain ⟨-, hcase⟩ | ⟨l, -, hcase⟩ | ⟨c, cs, -, -, hcase⟩ := p.scanner.nextToken_cases
      · rw [hcase] at hnext
        obtain ⟨rfl, -⟩ := by simpa using hnext
        rfl
      · rw [hcase] at hnext
        obtain ⟨rfl, -⟩ := by simpa using hnext
        rfl
      · rw [hcase] at hnext
        exact nomatch hnext
  refine ⟨⟨⟨before, hpeek⟩, fun token' hlook' => ?_⟩, hposition⟩
  rw [ParseM.lookahead_of_peek hrun] at hlook'
  rw [← Option.some.inj hlook']
  exact hposition

/-- A text that has no token here has a fault here. -/
theorem Located.peek_fault {fault : SyntaxError} (h : p.Located source) (hp : p.At n t)
    (hrun : p.run ParseM.peek = (.error fault, p')) : fault.StandsBefore source t := by
  rw [run_peek] at hrun
  cases hlook : p.lookahead with
  | some token => simp [hlook] at hrun
  | none =>
    rw [hlook] at hrun
    dsimp only at hrun
    -- Only a fault of the scanner is reported, and it stands at the next character.
    obtain ⟨-, hcase⟩ | ⟨l, -, hcase⟩ | ⟨c, cs, -, -, hcase⟩ := p.scanner.nextToken_cases
    · rw [hcase] at hrun
      exact nomatch hrun
    · rw [hcase] at hrun
      exact nomatch hrun
    · rw [hcase] at hrun
      obtain ⟨rfl, -⟩ := by simpa using hrun
      refine ⟨?_, fun hend => absurd hend (Scanner.not_atEnd_faultAt c)⟩
      rw [h.position_eq hlook]
      exact h.isBefore hp

end Parser

/-! ## Steps that may fail -/

namespace ParseM

variable {α β : Type} {source t : List Char} {n m : Nat}

/-- The step runs with `n` levels open and `t` before it. If it succeeds, its result and the text
    after it satisfy `Q`. If it finds a fault, that stands before some text of the source, which
    satisfies `P`. -/
def Leads (source : List Char) (act : ParseM α) (n : Nat) (t : List Char)
    (Q : α → List Char → Prop) (P : List Char → Prop) : Prop :=
  ∀ p : Parser, p.At n t → p.Located source →
    (∀ a p', p.run act = (.ok a, p') → ∃ t', p'.At n t' ∧ p'.Located source ∧ Q a t') ∧
    (∀ fault p', p.run act = (.error fault, p') → ∃ t', fault.StandsBefore source t' ∧ P t')

variable {Q : α → List Char → Prop} {P P' : List Char → Prop}

/-- Steps in sequence: what a fault of either stands before has to satisfy the same condition. -/
private theorem Leads.bind {act : ParseM α} {f : α → ParseM β} {R : β → List Char → Prop}
    (h : act.Leads source n t Q P) (hf : ∀ a t', Q a t' → (f a).Leads source n t' R P) :
    (act >>= f).Leads source n t R P := by
  intro p hp hl
  obtain ⟨hok, herror⟩ := h p hp hl
  rw [Parser.run_bind]
  cases hact : p.run act with
  | mk outcome p' =>
    -- A fault of the first step stands before what it stood before; else the second step goes on.
    cases outcome with
    | ok a =>
      obtain ⟨t', hp', hl', hQ⟩ := hok a p' hact
      exact hf a t' hQ p' hp' hl'
    | error fault =>
      refine ⟨nofun, fun fault' q hrun => ?_⟩
      obtain ⟨rfl, rfl⟩ := by simpa using hrun
      exact herror _ _ hact

/-- A step that succeeds. -/
theorem Leads.of_succeeds {act : ParseM α}
    (h : ∀ p : Parser, p.At n t → p.Located source →
      ∃ a p' t', p.run act = (.ok a, p') ∧ p'.At n t' ∧ p'.Located source ∧ Q a t') :
    act.Leads source n t Q P := by
  intro p hp hl
  obtain ⟨a, p', t', hrun, hp', hl', hQ⟩ := h p hp hl
  rw [hrun]
  refine ⟨fun a' q heq => ?_, fun fault q heq => nomatch heq⟩
  obtain ⟨rfl, rfl⟩ := by simpa using heq
  exact ⟨t', hp', hl', hQ⟩

/-- A result leads to where it is given. -/
private theorem Leads.pure {a : α} (h : Q a t) : (Pure.pure a : ParseM α).Leads source n t Q P :=
  .of_succeeds fun p hp hl => ⟨a, p, t, Parser.run_pure p a, hp, hl, h⟩

/-- What is said about the faults of a step may be weakened. -/
theorem Leads.imp_fault {act : ParseM α} (h : act.Leads source n t Q P) (hP : ∀ t', P t' → P' t') :
    act.Leads source n t Q P' := by
  intro p hp hl
  obtain ⟨hok, herror⟩ := h p hp hl
  refine ⟨hok, fun fault p' hrun => ?_⟩
  obtain ⟨t', hstands, hP'⟩ := herror fault p' hrun
  exact ⟨t', hstands, hP t' hP'⟩

/-- A step that succeeds as said elsewhere and fails as said here. -/
theorem Leads.of_yields {act : ParseM α} (h : act.Leads source n t (fun _ _ => True) P)
    (hyields : act.Yields n t Q) : act.Leads source n t Q P := by
  intro p hp hl
  obtain ⟨hok, herror⟩ := h p hp hl
  refine ⟨fun a p' hrun => ?_, herror⟩
  obtain ⟨-, -, hl', -⟩ := hok a p' hrun
  obtain ⟨t', hp', hQ⟩ := hyields p hp a p' hrun
  exact ⟨t', hp', hl', hQ⟩

/-- A fault at a place before the text that is left. -/
private theorem Leads.failAt {position : Position} {cause : SyntaxError.Cause}
    (hplace : position.IsBefore source t) (hend : cause.AtEnd → t = []) (hP : P t) :
    (ParseM.failAt position cause : ParseM α).Leads source n t Q P := by
  intro p hp hl
  refine ⟨nofun, fun fault p' hrun => ?_⟩
  obtain ⟨rfl, -⟩ := by simpa using hrun
  exact ⟨t, ⟨hplace, hend⟩, hP⟩

/-- A fault at the end of what was consumed. -/
private theorem Leads.failAtLast {cause : SyntaxError.Cause} (hend : cause.AtEnd → t = [])
    (hP : P t) :
    (ParseM.failAtLast cause : ParseM α).Leads source n t Q P := by
  intro p hp hl
  refine ⟨nofun, fun fault p' hrun => ?_⟩
  obtain ⟨rfl, -⟩ := by simpa using hrun
  exact ⟨t, ⟨hl.isBefore hp, hend⟩, hP⟩

/-- A nested step leads where it does one level deeper. -/
private theorem Leads.nested {act : ParseM α} (h : act.Leads source (n + 1) t Q P) :
    (ParseM.nested act).Leads source n t Q P := by
  intro p hp hl
  obtain ⟨hok, herror⟩ := h _ hp.enter (hl.setDepth _)
  rw [Parser.run_nested]
  cases hact : { p with depth := p.depth + 1 }.run act with
  | mk outcome p' =>
    -- Coming back up changes neither the text that is left nor the place of a fault.
    refine ⟨fun a q hrun => ?_, fun fault q hrun => ?_⟩
    · obtain ⟨rfl, rfl⟩ := by simpa using hrun
      obtain ⟨t', hp', hl', hQ⟩ := hok a p' hact
      exact ⟨t', hp'.leave, hl'.setDepth _, hQ⟩
    · obtain ⟨rfl, rfl⟩ := by simpa using hrun
      exact herror fault p' hact

/-! ## Single tokens -/

/-- Looking at a token consumes nothing, whether there is one or a fault. -/
private theorem peek_leads :
    peek.Leads source n t
      (fun token t' => t' = t ∧ (∃ rest, Next t token.kind rest) ∧
        token.position.IsBefore source t)
      (· = t) := by
  intro p hp hl
  refine ⟨fun token p' hrun => ?_, fun fault p' hrun => ⟨t, hl.peek_fault hp hrun, rfl⟩⟩
  obtain ⟨t', hp', rfl, hnext⟩ := peek_yields p hp token p' hrun
  obtain ⟨hl', hposition⟩ := hl.peek hrun
  exact ⟨t', hp', hl', rfl, hnext, hposition ▸ hl'.isBefore hp'⟩

/-- Consuming a token that is there does not fail. -/
theorem advance_leads {k : Token.Kind} {rest : List Char} (h : Next t k rest) :
    advance.Leads source n t (fun token t' => token.kind = k ∧ t' = rest) P := by
  refine .of_succeeds fun p hp hl => ?_
  obtain ⟨token, q, t', hpeek, hq, rfl, -⟩ := peek_succeeds h p hp
  obtain ⟨token', p', t'', hrun, hp', hresult⟩ := advance_succeeds h p hp
  have hconsumed := run_advance_of_peek hpeek
  rw [hrun] at hconsumed
  have hl' : p'.Located source := by
    obtain ⟨-, rfl⟩ := Prod.mk.inj hconsumed
    exact (hl.peek hpeek).1.consumed
  exact ⟨token', p', t'', hrun, hp', hl', hresult⟩

/-- Skipping white space fails only before anything was consumed. -/
private theorem skipBlank_leads :
    skipBlank.Leads source n t
      (fun skipped t' => Solid t' ∧
        ∃ ws, OptBlank ws ∧ Lexes t ws t' ∧ (skipped = true → ws = [.blank]))
      (· = t) := by
  have hfails : skipBlank.Leads source n t (fun _ _ => True) (· = t) := by
    refine peek_leads.bind fun token t' hpeek => ?_
    obtain ⟨rfl, ⟨rest, hnext⟩, -⟩ := hpeek
    split
    · exact (advance_leads hnext).bind fun _ _ _ => .pure trivial
    · exact .pure trivial
  exact hfails.of_yields skipBlank_yields_optBlank

/-- Counting the characters not consumed does not fail. -/
private theorem pending_leads :
    pending.Leads source n t (fun size t' => t' = t ∧ size = t.length) P :=
  .of_succeeds fun p hp hl => ⟨_, p, t, run_pending p, hp, hl, rfl, by rw [hp.text_eq]⟩

/-! ## Expressions that are not finished -/

/-- An expression was begun between `t` and `t'`, or only white space was skipped. -/
def Begun (m : Nat) (t t' : List Char) : Prop :=
  (∃ ws, OptBlank ws ∧ Lexes t ws t') ∨
    ∃ ws ks ws', OptBlank ws ∧ Viable m ks ∧ OptBlank ws' ∧ Lexes t (ws ++ (ks ++ ws')) t'

/-- Where white space was skipped already, none is left before the expression. -/
theorem Begun.of_solid {t' : List Char} (h : Begun m t t') (hsolid : Solid t) :
    t' = t ∨ ∃ ks ws, Viable m ks ∧ OptBlank ws ∧ Lexes t (ks ++ ws) t' := by
  -- A text that starts with a solid token has no blank one first.
  have clash : ∀ {ks : List Token.Kind}, ¬ Lexes t (.blank :: ks) t' := by
    intro ks hlex
    obtain ⟨mid, hnext, -⟩ := Next.of_lexes hlex
    exact hsolid mid hnext
  rcases h with ⟨ws, hw, hlex⟩ | ⟨ws, ks, ws', hw, hv, hw', hlex⟩
  · cases hw with
    | absent => exact .inl hlex.eq_of_nil.symm
    | present => exact absurd hlex clash
  · cases hw with
    | absent => exact .inr ⟨ks, ws', hv, hw', hlex⟩
    | present => exact absurd hlex clash

/-- Further elements of a list were read between `t` and `t'`, and another one may have been
    begun. -/
def BegunElements (m : Nat) (t t' : List Char) : Prop :=
  ∃ items tail ws, (∀ item ∈ items, Expr m item.1 item.2) ∧
    (tail = [] ∨ ∃ ks, tail = .blank :: ks ∧ Viable m ks) ∧ OptBlank ws ∧
    Lexes t (separated items ++ (tail ++ ws)) t'

/-- White space alone is no element that was begun. -/
private theorem BegunElements.of_blank {ws : List Token.Kind} {t' : List Char} (hw : OptBlank ws)
    (h : Lexes t ws t') : BegunElements m t t' :=
  ⟨[], [], ws, nofun, .inl rfl, hw, h⟩

/-- The further elements of a list, if they fail, have been begun. -/
private theorem elements_leads {inner : ParseM Datum} {opened : Position}
    (hinner : ∀ t, inner.Leads source n t (ReadsExpr m t) (Begun m t)) {fuel : Nat}
    (hfuel : t.length < fuel) :
    (elements inner opened fuel).Leads source n t (fun _ _ => True) (BegunElements m t) := by
  -- By induction on the fuel, which lasts as every element takes some of the text.
  induction fuel generalizing t with
  | zero => omega
  | succ fuel ih =>
    unfold elements
    refine (skipBlank_leads.imp_fault ?_).bind fun skipped t₁ hskip => ?_
    · rintro _ rfl
      exact .of_blank .absent (.done _)
    obtain ⟨hsolid, ws, hw, hws, hskipped⟩ := hskip
    have hblank : BegunElements m t t₁ := .of_blank hw hws
    refine (peek_leads.imp_fault fun _ heq => heq ▸ hblank).bind fun token t₂ hpeek => ?_
    obtain ⟨rfl, ⟨rest, hnext⟩, hplace⟩ := hpeek
    split
    · exact (advance_leads hnext).bind fun _ _ _ => .pure trivial
    · next hend =>
      rw [hend] at hnext
      exact .failAtLast (fun _ => hnext.eq_nil_of_endOfInput) hblank
    · split
      · next hsep =>
        -- White space was skipped before this element, so it is the separator in front of it.
        rw [hskipped hsep] at hws
        refine ((hinner t₂).imp_fault fun t' hbegun => ?_).bind fun d t₃ hread => ?_
        · rcases hbegun.of_solid hsolid with rfl | ⟨ks, ws', hv, hw', hlex⟩
          · exact hblank
          · exact ⟨[], .blank :: ks, ws', nofun, .inr ⟨ks, rfl, hv⟩, hw', hws.append hlex⟩
        -- An element has been read; the failure lies behind it.
        obtain ⟨ks, hx, hks⟩ := hread.of_solid hsolid
        have hshorter : t₃.length < fuel := by
          have h₁ := hws.length_le
          have h₂ := hks.length_le
          rw [List.length_singleton] at h₁
          omega
        refine ((ih hshorter).imp_fault fun t' hbegun => ?_).bind fun _ _ _ =>
          .pure trivial
        obtain ⟨items, tail, ws', hitems, htail, hw', hlex⟩ := hbegun
        refine ⟨(ks, d) :: items, tail, ws', List.forall_mem_cons.2 ⟨hx, hitems⟩, htail, hw', ?_⟩
        simpa using hws.append (hks.append hlex)
      · exact .failAt hplace nofun hblank

/-- A list that is not finished. -/
theorem list_leads {inner : ParseM Datum} {rest : List Char}
    (hinner : ∀ t, inner.Leads source n t (ReadsExpr m t) (Begun m t))
    (hnext : Next t .leftParen rest) :
    (list inner).Leads source n t (fun _ _ => True) fun t' =>
      ∃ ks ws, Viable (m + 1) ks ∧ OptBlank ws ∧ Lexes t (ks ++ ws) t' := by
  have hopen := hnext.lexes nofun
  unfold list
  refine (advance_leads hnext).bind fun opened t₁ hadvance => ?_
  obtain ⟨-, rfl⟩ := hadvance
  refine (skipBlank_leads.imp_fault ?_).bind fun _ t₂ hskip => ?_
  · rintro _ rfl
    exact ⟨_, _, viable_leftParen, .absent, hopen⟩
  obtain ⟨hsolid, ws, hw, hws, -⟩ := hskip
  have hblank := hopen.append hws
  refine (peek_leads.imp_fault ?_).bind fun token t₃ hpeek => ?_
  · rintro _ rfl
    exact ⟨_, _, viable_leftParen, hw, hblank⟩
  obtain ⟨rfl, ⟨rest', hnext'⟩, -⟩ := hpeek
  split
  · exact (advance_leads hnext').bind fun _ _ _ => .pure trivial
  · refine ((hinner t₃).imp_fault fun t' hbegun => ?_).bind fun d t₄ hread => ?_
    -- The failure lies in the first element, or right before it.
    · rcases hbegun.of_solid hsolid with rfl | ⟨ks, ws', hv, hw', hlex⟩
      · exact ⟨_, _, viable_leftParen, hw, hblank⟩
      · exact ⟨_, ws', hv.first hw, hw', by simpa using hblank.append hlex⟩
    obtain ⟨ks, hx, hks⟩ := hread.of_solid hsolid
    have hfirst := hblank.append hks
    refine pending_leads.bind fun size t₅ hsize => ?_
    obtain ⟨rfl, rfl⟩ := hsize
    refine ((elements_leads hinner (Nat.lt_succ_self _)).imp_fault
      fun t' hbegun => ?_).bind fun _ _ _ => .pure trivial
    obtain ⟨items, tail, ws', hitems, htail, hw', hlex⟩ := hbegun
    -- The list was broken off behind an element or inside one.
    rcases htail with rfl | ⟨ks', rfl, hv⟩
    · exact ⟨_, ws', viable_elements hw hx hitems, hw', by simpa using hfirst.append hlex⟩
    · exact ⟨_, ws', hv.element hw hx hitems, hw', by simpa using hfirst.append hlex⟩

/-- What was read and what was not when an expression fails, one level: the expressions one level
    deeper are begun with one level less. -/
theorem form_leads {inner : Option (ParseM Datum)}
    (hinner : ∀ act, inner = some act → ∃ m', m = m' + 1 ∧
      ∀ t, act.Leads source (n + 1) t (ReadsExpr m' t) (Begun m' t)) :
    (form inner).Leads source n t (fun _ _ => True) (Begun m t) := by
  unfold form
  refine (skipBlank_leads.imp_fault ?_).bind fun _ t₁ hskip => ?_
  · rintro _ rfl
    exact .inl ⟨_, .absent, .done _⟩
  obtain ⟨hsolid, ws, hw, hws, -⟩ := hskip
  have hblank : Begun m t t₁ := .inl ⟨ws, hw, hws⟩
  refine (peek_leads.imp_fault fun _ heq => heq ▸ hblank).bind fun token t₂ hpeek => ?_
  obtain ⟨rfl, ⟨rest, hnext⟩, hplace⟩ := hpeek
  split
  -- A quote mark, with an expression one level deeper.
  · next hquote =>
    rw [hquote] at hnext
    unfold descend
    split
    · exact .failAt hplace nofun hblank
    · next act =>
      obtain ⟨m', rfl, hact⟩ := hinner act rfl
      have hmark := hws.append (hnext.lexes nofun)
      refine .nested ((advance_leads hnext).bind fun _ t₃ hadvance => ?_)
      obtain ⟨-, rfl⟩ := hadvance
      refine ((hact t₃).imp_fault fun t' hbegun => ?_).bind fun _ _ _ => .pure trivial
      -- Either nothing was begun behind the mark, or the inner expression was.
      rcases hbegun with ⟨ws', hw', hlex⟩ | ⟨ws', ks, ws'', hw', hv, hw'', hlex⟩
      · exact .inr ⟨ws, _, ws', hw, viable_quote, hw', by simpa using hmark.append hlex⟩
      · exact .inr ⟨ws, _, ws'', hw, hv.quoted hw', hw'', by simpa using hmark.append hlex⟩
  · exact (advance_leads hnext).bind fun _ _ _ => .pure trivial
  · exact (advance_leads hnext).bind fun _ _ _ => .pure trivial
  · exact (advance_leads hnext).bind fun _ _ _ => .pure trivial
  -- A list, with expressions one level deeper.
  · next hparen =>
    rw [hparen] at hnext
    unfold descend
    split
    · exact .failAt hplace nofun hblank
    · next act =>
      obtain ⟨m', rfl, hact⟩ := hinner act rfl
      refine .nested ((list_leads hact hnext).imp_fault fun t' hbegun => ?_)
      obtain ⟨ks, ws', hv, hw', hlex⟩ := hbegun
      exact .inr ⟨ws, ks, ws', hw, hv, hw', hws.append hlex⟩
  · exact .failAt hplace nofun hblank
  -- At the end of the text nothing has been begun.
  · next hend =>
    rw [hend] at hnext
    exact .failAtLast (fun _ => hnext.eq_nil_of_endOfInput) hblank
  · exact .failAt hplace nofun hblank

/-- An expression that may open `m` levels, if it fails, has begun one with nesting at most `m`. -/
theorem expressionWithin_leads (m : Nat) :
    ∀ n t, (expressionWithin m).Leads source n t (ReadsExpr m t) (Begun m t) := by
  -- By induction on the levels that may be opened.
  induction m with
  | zero =>
    intro n t
    have hform : (form none).Leads source n t (fun _ _ => True) (Begun 0 t) := form_leads nofun
    exact hform.of_yields (expressionWithin_yields 0 n t)
  | succ m ih =>
    intro n t
    refine (form_leads fun act hact => ⟨m, rfl, ?_⟩).of_yields (expressionWithin_yields (m + 1) n t)
    obtain rfl := Option.some.inj hact
    exact ih (n + 1)

/-- The next expression, if it fails, has been begun. -/
private theorem expression_leads :
    expression.Leads source 0 t (ReadsExpr maxNesting t) (Begun maxNesting t) := by
  intro p hp hl
  unfold expression
  rw [Parser.run_bind, Parser.run_get]
  dsimp only
  rw [hp.depth_eq]
  exact expressionWithin_leads maxNesting 0 t p hp hl

/-- Asking whether the text is done takes white space only, also if it fails. -/
private theorem isDone_leads :
    isDone.Leads source n t
      (fun _ t' => Solid t' ∧ ∃ ws, OptBlank ws ∧ Lexes t ws t')
      fun t' => ∃ ws, OptBlank ws ∧ Lexes t ws t' := by
  refine (skipBlank_leads.imp_fault ?_).bind fun _ t₁ hskip => ?_
  · rintro _ rfl
    exact ⟨_, .absent, .done _⟩
  obtain ⟨hsolid, ws, hw, hws, -⟩ := hskip
  refine (peek_leads.imp_fault ?_).bind fun token t₂ hpeek => .pure ?_
  · rintro _ rfl
    exact ⟨ws, hw, hws⟩
  · obtain ⟨rfl, -⟩ := hpeek
    exact ⟨hsolid, ws, hw, hws⟩

/-- A program, if its reading fails, has been begun. -/
theorem expressionsUpTo_leads (fuel : Nat) :
    (expressionsUpTo fuel).Leads source 0 t (fun _ _ => True) fun t' =>
      ∃ ks ws, ViableProgram ks ∧ OptBlank ws ∧ Lexes t (ks ++ ws) t' := by
  induction fuel generalizing t with
  | zero => exact .pure trivial
  | succ fuel ih =>
    unfold expressionsUpTo
    refine (isDone_leads.imp_fault ?_).bind fun done t₁ hdone => ?_
    · rintro t' ⟨ws, hw, hws⟩
      exact ⟨[], ws, viableProgram_nil, hw, hws⟩
    obtain ⟨hsolid, ws, hw, hws⟩ := hdone
    split
    · exact .pure trivial
    · refine (expression_leads.imp_fault fun t' hbegun => ?_).bind fun d t₂ hread => ?_
      · rcases hbegun.of_solid hsolid with rfl | ⟨ks, ws', hv, hw', hlex⟩
        · exact ⟨[], ws, viableProgram_nil, hw, hws⟩
        · exact ⟨_, ws', .of_viable hw hv, hw', by simpa using hws.append hlex⟩
      obtain ⟨ks, hx, hks⟩ := hread.of_solid hsolid
      -- What the later rounds have begun stands behind the expression that was read here.
      refine (ih.imp_fault fun t' hbegun => ?_).bind fun _ _ _ => .pure trivial
      obtain ⟨ks', ws', hv, hw', hlex⟩ := hbegun
      exact ⟨_, ws', .cons hw hx hv, hw', by simpa using hws.append (hks.append hlex)⟩

end ParseM

/-! ## Whole source texts -/

/-- A fault in a source text stands at the place behind some beginning of it, and this beginning
    can be continued to a text that is read without fault. Where an expression or a closing
    parenthesis is missing at the end of the text, the beginning is the whole text. -/
theorem parseAll_fault_stands_at_viable_beginning (source : String) (fault : SyntaxError)
    (h : parseAll source = .error fault) :
    ∃ u rest : String, source = u ++ rest ∧ fault.position = .after u.toList ∧
      (∃ (t : String) (ds : List Datum), parseAll (u ++ t) = .ok ds) ∧
      ((fault.cause = .unexpectedEnd ∨ ∃ opened, fault.cause = .unclosedList opened) →
        u = source) := by
  have hleads : ParseM.expressions.Leads source.toList 0 source.toList (fun _ _ => True) fun t' =>
      ∃ ks ws, ViableProgram ks ∧ OptBlank ws ∧ Lexes source.toList (ks ++ ws) t' :=
    ParseM.pending_leads.bind fun size t hsize => hsize.1 ▸ ParseM.expressionsUpTo_leads _
  obtain ⟨-, herror⟩ :=
    hleads _ (Parser.at_ofSource source) (Parser.located_ofSource source)
  obtain ⟨t', ⟨⟨before, hsource, hplace⟩, hend⟩, ks, ws, hv, hw, hlex⟩ :=
    herror fault _ (Prod.ext h rfl)
  -- What was consumed has the same tokens on its own.
  rw [← hsource] at hlex
  obtain ⟨more, ks', ds, hprogram, hmore⟩ := hv.exists_program hw hlex.of_append
  refine ⟨.ofList before, .ofList t', ?_, ?_, ⟨.ofList more, ds, ?_⟩, fun hcause => ?_⟩
  · rw [← String.ofList_append, hsource, String.ofList_toList]
  · rw [hplace, Position.advance_start, String.toList_ofList]
  · rw [parseAll_eq_ok_iff_lexes]
    exact ⟨ks', hprogram, by simpa using hmore⟩
  · have hatEnd : fault.cause.AtEnd := by
      rcases hcause with hcause | ⟨opened, hcause⟩ <;> rw [hcause] <;> trivial
    rw [hend hatEnd, List.append_nil] at hsource
    rw [hsource, String.ofList_toList]

/-- In `('a b")` the string is not closed; the text before it is continued by a line feed and a
    closing parenthesis. -/
theorem viable_beginning_before_string :
    ∃ u rest : String, "('a b\")" = u ++ rest ∧ Position.mk 1 6 = .after u.toList ∧
      ∃ (t : String) (ds : List Datum), parseAll (u ++ t) = .ok ds := by
  obtain ⟨u, rest, hsource, hplace, hmore, -⟩ :=
    parseAll_fault_stands_at_viable_beginning "('a b\")" ⟨⟨1, 6⟩, .unterminatedString⟩
      (by decide +kernel)
  exact ⟨u, rest, hsource, hplace, hmore⟩

end ScopeLisp
