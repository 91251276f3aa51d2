import ScopeLisp.Parser
import ScopeLisp.Proofs.Tokenization

/-!
# What a parser does to its text

A parser is seen through the text that it has not consumed (`Parser.text`): the token it looks at
and what its scanner has not read. `Parser.At n t` says that the parser has `n` levels open, has
`t` before it, and looks at a token only if the scanner gave it. Steps are specified by two
triples over such places: `ParseM.Yields` says what holds when a step succeeds, `ParseM.Succeeds`
that it does succeed.

## Key results

- `Next.unique`: the next token of a text is determined
- `Yields.bind` / `Succeeds.bind`: steps in sequence
- `peek_yields`, `advance_yields`, `skipBlank_yields` and their `_succeeds` counterparts
-/

namespace ScopeLisp

/-- The next token of a text: its kind, and the text after it. -/
inductive Next : (text : List Char) → (k : Token.Kind) → (rest : List Char) → Prop where
  | endOfInput : Next [] .endOfInput []
  | lexeme {text : List Char} {l : Lexeme} : Lexeme.scan? text = some l → Next text l.kind l.rest

namespace Next

variable {text rest rest' : List Char} {k k' : Token.Kind}

/-- The next token of a text is determined. -/
theorem unique (h : Next text k rest) (h' : Next text k' rest') : k = k' ∧ rest = rest' := by
  -- A text that scans to a lexeme is not at its end.
  cases h with
  | endOfInput =>
    cases h' with
    | endOfInput => exact ⟨rfl, rfl⟩
    | lexeme hl => exact nomatch hl
  | lexeme hl =>
    cases h' with
    | endOfInput => exact nomatch hl
    | lexeme hl' =>
      obtain rfl := Option.some.inj (hl.symm.trans hl')
      exact ⟨rfl, rfl⟩

/-- A next token other than the end of input is a lexeme. -/
theorem lexes (h : Next text k rest) (hk : k ≠ .endOfInput) : Lexes text [k] rest := by
  cases h with
  | endOfInput => exact absurd rfl hk
  | lexeme hl => exact .token hl (.done _)

/-- The first token of a tokenization is the next token of its text. -/
theorem of_lexes {ks : List Token.Kind} (h : Lexes text (k :: ks) rest) :
    ∃ mid, Next text k mid ∧ Lexes mid ks rest := by
  obtain ⟨l, hl, rfl, hrest⟩ := h.cons_inv
  exact ⟨l.rest, .lexeme hl, hrest⟩

/-- The next token is the end of input if no text is left, and else the lexeme at the start. -/
theorem inv (h : Next text k rest) :
    (text = [] ∧ k = .endOfInput) ∨
      ∃ l, Lexeme.scan? text = some l ∧ l.kind = k ∧ l.rest = rest := by
  cases h with
  | endOfInput => exact .inl ⟨rfl, rfl⟩
  | lexeme hl => exact .inr ⟨_, hl, rfl, rfl⟩

/-- Where the end of input is next, no text is left. -/
theorem eq_nil_of_endOfInput (h : Next text .endOfInput rest) : text = [] := by
  obtain ⟨rfl, -⟩ | ⟨l, hl, hk, -⟩ := h.inv
  · rfl
  · exact absurd hk (Lexeme.kind_ne_endOfInput_of_scan? hl)

/-- Blank tokens do not follow each other. -/
theorem ne_blank_of_blank (h : Next text .blank rest) (h' : Next rest k rest') : k ≠ .blank := by
  obtain ⟨-, hk⟩ | ⟨l, hl, hk, rfl⟩ := h.inv
  · exact nomatch hk
  · obtain ⟨-, rfl⟩ | ⟨l', hl', rfl, -⟩ := h'.inv
    · exact nofun
    · exact Lexeme.kind_ne_blank_of_scan?_rest hl hk hl'

end Next

/-- What a scanner delivers is the next token of its text, and the scanner stands behind it. -/
theorem Scanner.next_of_nextToken {s t : Scanner} {token : Token}
    (h : s.nextToken = (.ok token, t)) :
    Next s.rest token.kind t.rest ∧ token.lexeme.toList ++ t.rest = s.rest := by
  by_cases hnil : s.rest = []
  · rw [nextToken_of_nil hnil] at h
    simp only [Prod.mk.injEq, Except.ok.injEq] at h
    obtain ⟨rfl, rfl⟩ := h
    exact ⟨by simpa [hnil] using Next.endOfInput, by simp⟩
  · cases hl : Lexeme.scan? s.rest with
    | none =>
      -- Text that is left but has no lexeme is a fault.
      obtain ⟨fault, t', hnext⟩ := nextToken_of_scan?_eq_none hnil hl
      rw [hnext] at h
      exact nomatch h
    | some l =>
      rw [nextToken_of_scan? hl] at h
      simp only [Prod.mk.injEq, Except.ok.injEq] at h
      obtain ⟨rfl, rfl⟩ := h
      exact ⟨.lexeme hl, by simpa using (Lexeme.splits_of_scan? hl).1⟩

/-- Where a text has a next token, a scanner delivers one. -/
private theorem Scanner.nextToken_of_next {s : Scanner} {k : Token.Kind} {rest : List Char}
    (h : Next s.rest k rest) : ∃ token t, s.nextToken = (.ok token, t) := by
  generalize htext : s.rest = text at h
  -- The two kinds of next tokens are the two outcomes of a scanner other than a fault.
  cases h with
  | endOfInput => exact ⟨_, _, nextToken_of_nil htext⟩
  | lexeme hl => exact ⟨_, _, nextToken_of_scan? (htext ▸ hl)⟩

/-! ## The text before a parser -/

namespace Parser

/-- What is not consumed: the token looked at and what the scanner has not read. -/
def text (p : Parser) : List Char :=
  p.lookahead.elim [] (·.lexeme.toList) ++ p.scanner.rest

/-- A parser with `n` levels open and `t` before it, whose lookahead came from its scanner. -/
structure At (n : Nat) (t : List Char) (p : Parser) : Prop where
  text_eq : p.text = t
  depth_eq : p.depth = n
  scanned : ∀ token, p.lookahead = some token → ∃ s : Scanner, s.nextToken = (.ok token, p.scanner)

/-- A new parser has its whole source text before it and nothing open. -/
theorem at_ofSource (source : String) : (ofSource source).At 0 source.toList :=
  ⟨rfl, rfl, nofun⟩

/-- The token looked at is the next one of the text. -/
theorem At.next_of_lookahead {p : Parser} {n : Nat} {t : List Char} {token : Token}
    (h : p.At n t) (htoken : p.lookahead = some token) :
    Next t token.kind p.scanner.rest := by
  obtain ⟨s, hs⟩ := h.scanned token htoken
  obtain ⟨hnext, happ⟩ := Scanner.next_of_nextToken hs
  -- The text is what the scanner had before it read the lookahead.
  have htext : p.text = s.rest := by rw [text, htoken, ← happ]; rfl
  rw [← h.text_eq, htext]
  exact hnext

/-- Without a lookahead, the text is what the scanner has not read. -/
theorem At.rest_eq {p : Parser} {n : Nat} {t : List Char} (h : p.At n t)
    (hnone : p.lookahead = none) : p.scanner.rest = t := by
  rw [← h.text_eq, text, hnone]
  rfl

/-- One level deeper, the text is the same. -/
theorem At.enter {p : Parser} {n : Nat} {t : List Char} (h : p.At n t) :
    { p with depth := p.depth + 1 }.At (n + 1) t :=
  ⟨h.text_eq, by rw [← h.depth_eq], h.scanned⟩

/-- Back on the level above, the text is the same. -/
theorem At.leave {p : Parser} {n : Nat} {t : List Char} (h : p.At (n + 1) t) :
    { p with depth := p.depth - 1 }.At n t :=
  ⟨h.text_eq, by rw [h.depth_eq]; rfl, h.scanned⟩

end Parser

/-! ## Steps in sequence -/

namespace ParseM

variable {α β : Type} {n : Nat} {t : List Char}

/-- If the step succeeds with `n` levels open and `t` before it, its result and the text after it
    satisfy `Q`, and no level has been opened or closed. -/
def Yields (act : ParseM α) (n : Nat) (t : List Char) (Q : α → List Char → Prop) : Prop :=
  ∀ p : Parser, p.At n t → ∀ a p', p.run act = (.ok a, p') → ∃ t', p'.At n t' ∧ Q a t'

/-- The step succeeds with `n` levels open and `t` before it, its result and the text after it
    satisfy `Q`, and no level has been opened or closed. -/
def Succeeds (act : ParseM α) (n : Nat) (t : List Char) (Q : α → List Char → Prop) : Prop :=
  ∀ p : Parser, p.At n t → ∃ a p' t', p.run act = (.ok a, p') ∧ p'.At n t' ∧ Q a t'

/-- What a step yields is the condition under which the next one has to be considered. -/
theorem Yields.bind {act : ParseM α} {f : α → ParseM β} {Q : α → List Char → Prop}
    {R : β → List Char → Prop} (h : act.Yields n t Q)
    (hf : ∀ a t', Q a t' → (f a).Yields n t' R) : (act >>= f).Yields n t R := by
  intro p hp b p'' hrun
  rw [Parser.run_bind] at hrun
  cases hact : p.run act with
  | mk outcome p' =>
    rw [hact] at hrun
    -- If the first step fails, so does the whole.
    cases outcome with
    | error e => exact nomatch hrun
    | ok a =>
      obtain ⟨t', hp', hQ⟩ := h p hp a p' hact
      exact hf a t' hQ p' hp' b p'' hrun

/-- A step that succeeds, followed by one that succeeds on what it leaves. -/
theorem Succeeds.bind {act : ParseM α} {f : α → ParseM β} {Q : α → List Char → Prop}
    {R : β → List Char → Prop} (h : act.Succeeds n t Q)
    (hf : ∀ a t', Q a t' → (f a).Succeeds n t' R) : (act >>= f).Succeeds n t R := by
  intro p hp
  obtain ⟨a, p', t', hact, hp', hQ⟩ := h p hp
  obtain ⟨b, p'', t'', hrun, hp'', hR⟩ := hf a t' hQ p' hp'
  refine ⟨b, p'', t'', ?_, hp'', hR⟩
  rw [Parser.run_bind, hact]
  exact hrun

/-- A result leaves the text as it was. -/
theorem Yields.pure {a : α} {Q : α → List Char → Prop} (h : Q a t) :
    (Pure.pure a : ParseM α).Yields n t Q := by
  intro p hp a' p' hrun
  simp only [Parser.run_pure, Prod.mk.injEq, Except.ok.injEq] at hrun
  obtain ⟨rfl, rfl⟩ := hrun
  exact ⟨t, hp, h⟩

/-- A result always succeeds, and leaves the text as it was. -/
theorem Succeeds.pure {a : α} {Q : α → List Char → Prop} (h : Q a t) :
    (Pure.pure a : ParseM α).Succeeds n t Q :=
  fun p hp => ⟨a, p, t, Parser.run_pure p a, hp, h⟩

/-- A fault yields nothing, so it may be said to yield anything. -/
theorem Yields.failAt {position : Position} {cause : SyntaxError.Cause}
    {Q : α → List Char → Prop} : (ParseM.failAt position cause : ParseM α).Yields n t Q := by
  intro p _ a p' hrun
  rw [Parser.run_failAt] at hrun
  exact nomatch hrun

/-- A fault at the end of what was consumed yields nothing either. -/
theorem Yields.failAtLast {cause : SyntaxError.Cause} {Q : α → List Char → Prop} :
    (ParseM.failAtLast cause : ParseM α).Yields n t Q := by
  intro p _ a p' hrun
  rw [Parser.run_failAtLast] at hrun
  exact nomatch hrun

/-- A nested step yields what it does one level deeper. -/
theorem Yields.nested {act : ParseM α} {Q : α → List Char → Prop}
    (h : act.Yields (n + 1) t Q) : (ParseM.nested act).Yields n t Q := by
  intro p hp a p'' hrun
  rw [Parser.run_nested] at hrun
  cases hact : { p with depth := p.depth + 1 }.run act with
  | mk outcome p' =>
    rw [hact] at hrun
    simp only [Prod.mk.injEq] at hrun
    obtain ⟨rfl, rfl⟩ := hrun
    obtain ⟨t', hp', hQ⟩ := h _ hp.enter a p' hact
    exact ⟨t', hp'.leave, hQ⟩

/-- A nested step succeeds if it does one level deeper. -/
theorem Succeeds.nested {act : ParseM α} {Q : α → List Char → Prop}
    (h : act.Succeeds (n + 1) t Q) : (ParseM.nested act).Succeeds n t Q := by
  intro p hp
  obtain ⟨a, p', t', hact, hp', hQ⟩ := h _ hp.enter
  refine ⟨a, { p' with depth := p'.depth - 1 }, t', ?_, hp'.leave, hQ⟩
  rw [Parser.run_nested, hact]

/-! ## Single tokens -/

/-- The token looked at is the lookahead, or else the next one of the scanner, which then becomes
    the lookahead. -/
theorem peek_cases {p p' : Parser} {token : Token} (h : p.run peek = (.ok token, p')) :
    (p.lookahead = some token ∧ p' = p) ∨
      (p.lookahead = none ∧ ∃ s, p.scanner.nextToken = (.ok token, s) ∧
        p' = { p with scanner := s, lookahead := some token }) := by
  rw [Parser.run_peek] at h
  -- A parser scans only when it has no lookahead.
  cases hlook : p.lookahead with
  | some token' =>
    simp only [hlook, Prod.mk.injEq, Except.ok.injEq] at h
    obtain ⟨rfl, rfl⟩ := h
    exact .inl ⟨rfl, rfl⟩
  | none =>
    cases hnext : p.scanner.nextToken with
    | mk outcome s =>
      cases outcome with
      | error fault => simp [hlook, hnext] at h
      | ok token' =>
        simp only [hlook, hnext, Prod.mk.injEq, Except.ok.injEq] at h
        obtain ⟨rfl, rfl⟩ := h
        exact .inr ⟨rfl, s, rfl, rfl⟩

/-- Looking at the next token consumes nothing. -/
theorem peek_yields : peek.Yields n t fun token t' => t' = t ∧ ∃ rest, Next t token.kind rest := by
  intro p hp token p' hrun
  obtain ⟨hlook, rfl⟩ | ⟨hlook, s, hnext, rfl⟩ := peek_cases hrun
  · exact ⟨t, hp, rfl, _, hp.next_of_lookahead hlook⟩
  · obtain ⟨hkind, happ⟩ := Scanner.next_of_nextToken hnext
    rw [hp.rest_eq hlook] at hkind happ
    -- The lexeme moves from the scanner to the lookahead, so the text is the same.
    refine ⟨t, ⟨happ, hp.depth_eq, ?_⟩, rfl, _, hkind⟩
    intro token' hlook'
    obtain rfl := Option.some.inj hlook'
    exact ⟨p.scanner, hnext⟩

/-- Looking at the next token succeeds if the text has one. -/
theorem peek_succeeds {k : Token.Kind} {rest : List Char} (h : Next t k rest) :
    peek.Succeeds n t fun token t' => t' = t ∧ token.kind = k := by
  intro p hp
  obtain ⟨token, p', hrun⟩ : ∃ token p', p.run peek = (.ok token, p') := by
    rw [Parser.run_peek]
    cases hlook : p.lookahead with
    | some token => exact ⟨token, p, rfl⟩
    | none =>
      obtain ⟨token, s, hnext⟩ := Scanner.nextToken_of_next (hp.rest_eq hlook ▸ h)
      exact ⟨token, _, by rw [hnext]⟩
  -- That it is the token `k` follows from what a successful look yields.
  obtain ⟨t', hp', rfl, rest', hnext⟩ := peek_yields p hp token p' hrun
  exact ⟨token, p', t', hrun, hp', rfl, (hnext.unique h).1⟩

/-- Consuming the next token leaves the text after it. -/
theorem run_advance_of_peek {p p' : Parser} {token : Token} (h : p.run peek = (.ok token, p')) :
    p.run advance =
      (.ok token, { p' with lookahead := none, last := p'.scanner.position }) := by
  unfold advance
  rw [Parser.run_bind, h]
  rfl

/-- A token that was looked at is the lookahead. -/
theorem lookahead_of_peek {p p' : Parser} {token : Token} (h : p.run peek = (.ok token, p')) :
    p'.lookahead = some token := by
  obtain ⟨hlook, rfl⟩ | ⟨-, s, -, rfl⟩ := peek_cases h
  · exact hlook
  · rfl

/-- Consuming the next token succeeds if the text has one, and leaves the text after it. -/
theorem advance_succeeds {k : Token.Kind} {rest : List Char} (h : Next t k rest) :
    advance.Succeeds n t fun token t' => token.kind = k ∧ t' = rest := by
  intro p hp
  obtain ⟨token, p', t', hrun, hp', rfl, hk⟩ := peek_succeeds h p hp
  have hnext := hp'.next_of_lookahead (lookahead_of_peek hrun)
  refine ⟨token, _, rest, run_advance_of_peek hrun, ⟨?_, hp'.depth_eq, nofun⟩, hk, rfl⟩
  exact (hnext.unique h).2

/-- What is consumed is the next token. -/
theorem advance_yields :
    advance.Yields n t fun token t' => Next t token.kind t' := by
  intro p hp token p' hrun
  -- Consuming a token begins with looking at it.
  cases hpeek : p.run peek with
  | mk outcome q =>
    cases outcome with
    | error e =>
      unfold advance at hrun
      rw [Parser.run_bind, hpeek] at hrun
      exact nomatch hrun
    | ok token' =>
      rw [run_advance_of_peek hpeek] at hrun
      simp only [Prod.mk.injEq, Except.ok.injEq] at hrun
      obtain ⟨rfl, rfl⟩ := hrun
      obtain ⟨t', hq, rfl, -⟩ := peek_yields p hp _ q hpeek
      exact ⟨_, ⟨rfl, hq.depth_eq, nofun⟩, hq.next_of_lookahead (lookahead_of_peek hpeek)⟩

/-! ## White space -/

/-- A text that does not start with white space. -/
def Solid (t : List Char) : Prop :=
  ∀ rest, ¬ Next t .blank rest

/-- White space is taken as far as it goes. -/
theorem skipBlank_yields :
    skipBlank.Yields n t fun skipped t' =>
      Solid t' ∧ (skipped = true ∧ Next t .blank t' ∨ skipped = false ∧ t' = t) := by
  refine peek_yields.bind fun token t' hpeek => ?_
  obtain ⟨rfl, rest, hnext⟩ := hpeek
  split
  · next hblank =>
    refine advance_yields.bind fun token' t'' hadvance => .pure ?_
    obtain ⟨hkind, rfl⟩ := hadvance.unique hnext
    rw [hblank] at hnext
    -- One blank token is all there is, since two do not follow each other.
    exact ⟨fun rest' h => hnext.ne_blank_of_blank h rfl, .inl ⟨rfl, hnext⟩⟩
  · next hne =>
    exact .pure ⟨fun rest' h => hne (hnext.unique h).1, .inr ⟨rfl, rfl⟩⟩

/-- White space that is next is skipped. -/
theorem skipBlank_succeeds_of_blank {rest : List Char} (h : Next t .blank rest) :
    skipBlank.Succeeds n t fun skipped t' => skipped = true ∧ t' = rest := by
  refine (peek_succeeds h).bind fun token t' hpeek => ?_
  obtain ⟨rfl, hkind⟩ := hpeek
  rw [if_pos hkind]
  exact (advance_succeeds h).bind fun _ _ hadvance => .pure ⟨rfl, hadvance.2⟩

/-- Where another token is next, nothing is skipped. -/
theorem skipBlank_succeeds_of_ne {k : Token.Kind} {rest : List Char} (h : Next t k rest)
    (hk : k ≠ .blank) : skipBlank.Succeeds n t fun skipped t' => skipped = false ∧ t' = t := by
  refine (peek_succeeds h).bind fun token t' hpeek => ?_
  obtain ⟨rfl, hkind⟩ := hpeek
  rw [if_neg (hkind ▸ hk)]
  exact .pure ⟨rfl, rfl⟩

/-! ## The length of the text -/

/-- The characters not consumed are counted, and nothing else happens. -/
theorem run_pending (p : Parser) : p.run pending = (.ok p.text.length, p) := by
  have hsize : p.lookahead.elim 0 (·.lexeme.length) + p.scanner.rest.length = p.text.length := by
    rw [Parser.text, List.length_append]
    cases p.lookahead with
    | none => rfl
    | some token => rfl
  rw [← hsize]
  rfl

/-- Counting the characters not consumed yields the length of the text. -/
theorem pending_yields : pending.Yields n t fun size t' => t' = t ∧ size = t.length := by
  intro p hp size p' hrun
  rw [run_pending, hp.text_eq] at hrun
  simp only [Prod.mk.injEq, Except.ok.injEq] at hrun
  obtain ⟨rfl, rfl⟩ := hrun
  exact ⟨t, hp, rfl, rfl⟩

/-- Counting the characters not consumed succeeds. -/
theorem pending_succeeds : pending.Succeeds n t fun size t' => t' = t ∧ size = t.length :=
  fun p hp => ⟨_, p, t, run_pending p, hp, rfl, by rw [hp.text_eq]⟩

end ParseM

end ScopeLisp
