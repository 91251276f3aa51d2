import Mathlib.Data.List.Chain
import ScopeLisp.Proofs.ParserCalls

/-!
# Looking ahead

A parser skips at most one blank token before it looks at the next one. That is enough, because a
scanner takes white space and comments together as one token, so that blank tokens do not follow
each other. Asking whether a text is done skips white space and looks at a token, and so does every
other call first of all. Hence the question can be asked any number of times before a call without
changing anything.

## Key results

- `Scanner.isChain_takeUpTo`: blank tokens do not follow each other
- `ParseM.run_peekSolid_again`: looking past white space a second time changes nothing
- `ParseM.SparesBlank.expression`: white space is never found in place of an expression
- `Parser.looking_ahead_is_transparent`: calls after any number of questions whether the text is
  done
-/

namespace ScopeLisp

open ParseM

/-! ## Blank tokens -/

namespace Scanner

/-- Blank tokens do not follow each other. -/
theorem kind_ne_blank_of_nextToken {s s' s'' : Scanner} {token token' : Token}
    (h : s.nextToken = (.ok token, s')) (h' : s'.nextToken = (.ok token', s''))
    (hblank : token.kind = .blank) : token'.kind ≠ .blank := by
  have hnext := (next_of_nextToken h).1
  rw [hblank] at hnext
  exact hnext.ne_blank_of_blank (next_of_nextToken h').1

/-- The first token that is taken is the next token. -/
theorem nextToken_of_head?_takeUpTo {fuel : Nat} {s : Scanner} {token : Token}
    (h : (takeUpTo fuel s).tokens.head? = some token) : ∃ s', s.nextToken = (.ok token, s') := by
  cases fuel with
  | zero => cases h
  | succ fuel =>
    unfold takeUpTo next at h
    -- A scanner that has ended takes nothing; otherwise the next token is the first one taken.
    by_cases hfinished : s.finished = true
    · simp [hfinished] at h
    · simp only [hfinished, Bool.false_eq_true, if_false] at h
      cases hnext : s.nextToken with
      | mk outcome s' =>
        rw [hnext] at h
        cases outcome with
        | error fault => cases h
        | ok token' => exact ⟨s', by rw [Option.some.inj h]⟩

/-- In what is taken off a text blank tokens do not follow each other. -/
theorem isChain_takeUpTo (fuel : Nat) (s : Scanner) :
    (takeUpTo fuel s).tokens.IsChain
      fun token token' => token.kind = .blank → token'.kind ≠ .blank := by
  induction fuel generalizing s with
  | zero => exact .nil
  | succ fuel ih =>
    unfold takeUpTo next
    by_cases hfinished : s.finished = true
    · simp [hfinished]
    · simp only [hfinished, Bool.false_eq_true, if_false]
      cases hnext : s.nextToken with
      | mk outcome s' =>
        cases outcome with
        | error fault => exact .nil
        | ok token =>
          -- The second token of the chain is the next one of the scanner that the first one left.
          refine List.isChain_cons.2 ⟨fun token' hhead => ?_, ih s'⟩
          obtain ⟨s'', hnext'⟩ := nextToken_of_head?_takeUpTo hhead
          exact kind_ne_blank_of_nextToken hnext hnext'

/-- A fault is found again. -/
theorem nextToken_of_error {s s' : Scanner} {fault : SyntaxError}
    (h : s.nextToken = (.error fault, s')) : s'.nextToken = (.error fault, s') := by
  obtain ⟨-, hnext⟩ | ⟨l, -, hnext⟩ | ⟨c, cs, hrest, hl, hnext⟩ := s.nextToken_cases
  · rw [hnext] at h
    cases h
  · rw [hnext] at h
    cases h
  · rw [hnext] at h
    obtain ⟨rfl, rfl⟩ := by simpa using h
    exact nextToken_of_fault hrest hl

end Scanner

/-! ## Looking twice -/

namespace ParseM

variable {α β : Type} {p : Parser}

/-- Looking at a token a second time finds the same token or the same fault. -/
private theorem run_peek_again (p : Parser) : (p.run peek).2.run peek = p.run peek := by
  cases hpeek : p.run peek with
  | mk outcome q =>
    cases outcome with
    | ok token => rw [Parser.run_peek, lookahead_of_peek hpeek]
    -- A fault leaves no lookahead, and the scanner finds it again.
    | error fault =>
      rw [Parser.run_peek] at hpeek
      cases hlook : p.lookahead with
      | some token =>
        rw [hlook] at hpeek
        cases hpeek
      | none =>
        rw [hlook] at hpeek
        dsimp only at hpeek
        cases hnext : p.scanner.nextToken with
        | mk outcome s =>
          rw [hnext] at hpeek
          cases outcome with
          | ok token => cases hpeek
          | error fault' =>
            obtain ⟨rfl, rfl⟩ := by simpa using hpeek
            rw [Parser.run_peek]
            simp only [Scanner.nextToken_of_error hnext]

/-- The next token that is not blank, left where it is. -/
def peekSolid : ParseM Token := do
  let _ ← skipBlank
  peek

/-- A look past white space is a look, and another one if the first token was blank. -/
private theorem run_peekSolid (p : Parser) :
    p.run peekSolid =
      match p.run peek with
      | (.error fault, q) => (.error fault, q)
      | (.ok token, q) => if token.kind = .blank then q.consumed.run peek else (.ok token, q) := by
  have hagain := run_peek_again p
  unfold peekSolid skipBlank
  rw [bind_assoc]
  cases hpeek : p.run peek with
  | mk outcome q =>
    rw [hpeek] at hagain
    cases outcome with
    | error fault => exact Parser.run_bind_of_error hpeek
    | ok token =>
      rw [Parser.run_bind_of_ok hpeek]
      dsimp only at hagain ⊢
      by_cases hblank : token.kind = .blank
      · -- The blank token is consumed, and the one behind it looked at.
        rw [if_pos hblank, if_pos hblank, bind_assoc,
          Parser.run_bind_of_ok (run_advance_of_peek hagain)]
        rfl
      · rw [if_neg hblank, if_neg hblank]
        exact hagain

end ParseM

/-- The token looked at came from the scanner. -/
def Parser.Scanned (p : Parser) : Prop :=
  ∀ token, p.lookahead = some token → ∃ s : Scanner, s.nextToken = (.ok token, p.scanner)

namespace Parser

variable {p : Parser}

/-- Looking at a token looks at one of the scanner. -/
private theorem Scanned.peek (h : p.Scanned) : (p.run ParseM.peek).2.Scanned := by
  intro token hlook
  cases hpeek : p.run ParseM.peek with
  | mk outcome q =>
    rw [hpeek] at hlook
    cases outcome with
    | ok token' =>
      obtain ⟨hsome, rfl⟩ | ⟨-, s, hnext, rfl⟩ := peek_cases hpeek
      · exact h token hlook
      · exact ⟨p.scanner, by rw [hnext, Option.some.inj hlook]⟩
    | error fault =>
      -- Behind a fault nothing is looked at, or looking again would find it.
      have hagain := run_peek_again p
      rw [hpeek] at hagain
      dsimp only at hagain hlook
      rw [run_peek, hlook] at hagain
      cases hagain

/-- All steps of reading look only at tokens of the scanner. -/
theorem lawful_scanned : (Coupling.alone Scanned).Lawful :=
  Coupling.lawful_alone (fun _ h => h.peek) (fun _ _ _ _ => nofun) fun _ _ h => h

/-- A parser that looks only at tokens of its scanner has a text before it. -/
private theorem Scanned.at (h : p.Scanned) : p.At p.depth p.text :=
  ⟨rfl, rfl, h⟩

end Parser

namespace ParseM

variable {α β : Type} {p : Parser}

/-- Past white space a blank token is never found. -/
theorem kind_ne_blank_of_peekSolid {q : Parser} {token : Token} (hp : p.Scanned)
    (h : p.run peekSolid = (.ok token, q)) : token.kind ≠ .blank := by
  have hyields : peekSolid.Yields p.depth p.text fun token _ => token.kind ≠ .blank := by
    refine skipBlank_yields.bind fun skipped t hskip => ?_
    intro p' hp' token' q' hrun
    obtain ⟨t', hq', rfl, rest, hnext⟩ := peek_yields p' hp' token' q' hrun
    refine ⟨t', hq', fun hblank => ?_⟩
    rw [hblank] at hnext
    exact hskip.1 rest hnext
  obtain ⟨-, -, hne⟩ := hyields p hp.at token q h
  exact hne

/-- Looking past white space a second time changes nothing. -/
theorem run_peekSolid_again (hp : p.Scanned) :
    (p.run peekSolid).2.run peekSolid = p.run peekSolid := by
  -- It ends with a look at a token, which can be looked at once more.
  have hagain : (p.run peekSolid).2.run peek = p.run peekSolid := by
    rw [run_peekSolid]
    have hpeek := run_peek_again p
    cases hrun : p.run peek with
    | mk outcome q =>
      rw [hrun] at hpeek
      cases outcome with
      | error fault => exact hpeek
      | ok token =>
        dsimp only
        split
        · exact run_peek_again q.consumed
        · exact hpeek
  rw [run_peekSolid (p.run peekSolid).2, hagain]
  cases hrun : p.run peekSolid with
  | mk outcome q =>
    cases outcome with
    | error fault => rfl
    | ok token =>
      dsimp only
      rw [if_neg (kind_ne_blank_of_peekSolid hp hrun)]

/-! ## White space is never found in place of an expression -/

/-- The step never reports that it found white space in place of an expression. -/
def SparesBlank (act : ParseM α) : Prop :=
  ∀ p : Parser, p.Scanned → (p.run act).2.Scanned ∧
    ∀ fault, (p.run act).1 = .error fault → fault.cause ≠ .unexpectedBlank

namespace SparesBlank

variable {act : ParseM α} {f : α → ParseM β} {inner : ParseM Datum}

/-- A result is no fault. -/
private theorem pure (a : α) : (Pure.pure a : ParseM α).SparesBlank :=
  fun _ hp => ⟨hp, nofun⟩

/-- The second of two steps may rely on what is known of the results of the first. -/
theorem bind_of_run (h : act.SparesBlank)
    (hf : ∀ (p q : Parser) a, p.Scanned → p.run act = (.ok a, q) → (f a).SparesBlank) :
    (act >>= f).SparesBlank := by
  intro p hp
  obtain ⟨hscanned, hcause⟩ := h p hp
  cases hrun : p.run act with
  | mk outcome q =>
    rw [hrun] at hscanned hcause
    -- The second step starts where the first one has left the parser, or is not taken.
    cases outcome with
    | ok a =>
      rw [Parser.run_bind_of_ok hrun]
      exact hf p q a hp hrun q hscanned
    | error fault =>
      rw [Parser.run_bind_of_error hrun]
      refine ⟨hscanned, fun fault' heq => ?_⟩
      obtain rfl := Except.error.inj heq
      exact hcause fault rfl

/-- Steps in sequence, whatever the first one gives. -/
private theorem bind (h : act.SparesBlank) (hf : ∀ a, (f a).SparesBlank) :
    (act >>= f).SparesBlank :=
  h.bind_of_run fun _ _ a _ _ => hf a

/-- A fault of another kind. -/
private theorem failAt (position : Position) {cause : SyntaxError.Cause}
    (h : cause ≠ .unexpectedBlank) :
    (ParseM.failAt position cause : ParseM α).SparesBlank := by
  refine fun p hp => ⟨hp, fun fault heq => ?_⟩
  rw [Parser.run_failAt] at heq
  obtain rfl := Except.error.inj heq
  exact h

/-- A fault of another kind at the end of what was consumed. -/
private theorem failAtLast {cause : SyntaxError.Cause} (h : cause ≠ .unexpectedBlank) :
    (ParseM.failAtLast cause : ParseM α).SparesBlank := by
  refine fun p hp => ⟨hp, fun fault heq => ?_⟩
  rw [Parser.run_failAtLast] at heq
  obtain rfl := Except.error.inj heq
  exact h

/-- A step one level deeper. -/
private theorem nested (h : act.SparesBlank) : (ParseM.nested act).SparesBlank := by
  intro p hp
  have hact := h { p with depth := p.depth + 1 } hp
  rw [Parser.run_nested]
  exact hact

/-- A look at the next token reports only faults of the text itself. -/
private theorem peek : ParseM.peek.SparesBlank := by
  refine fun p hp => ⟨hp.peek, fun fault heq => ?_⟩
  rw [Parser.run_peek] at heq
  cases hlook : p.lookahead with
  | some token =>
    rw [hlook] at heq
    cases heq
  | none =>
    rw [hlook] at heq
    -- The scanner meets the end, takes a lexeme or finds a fault, which is one of its own.
    obtain ⟨-, hnext⟩ | ⟨l, -, hnext⟩ | ⟨c, cs, -, -, hnext⟩ := p.scanner.nextToken_cases
    · rw [hnext] at heq
      cases heq
    · rw [hnext] at heq
      cases heq
    · rw [hnext] at heq
      obtain rfl := Except.error.inj heq
      show Scanner.faultAt c ≠ .unexpectedBlank
      unfold Scanner.faultAt
      split <;> exact nofun

/-- Consuming the next token. -/
private theorem advance : ParseM.advance.SparesBlank :=
  peek.bind fun _ _ _ => ⟨nofun, nofun⟩

/-- Skipping white space. -/
private theorem skipBlank : ParseM.skipBlank.SparesBlank := by
  refine peek.bind fun token => ?_
  split
  · exact advance.bind fun _ => pure true
  · exact pure false

/-- A step behind a token that is consumed. -/
private theorem advance_then (h : act.SparesBlank) : (do let _ ← ParseM.advance; act).SparesBlank :=
  advance.bind fun _ => h

/-- Once white space has been skipped, the next token is not blank. -/
theorem of_solid {f : Token → ParseM β}
    (hf : ∀ token, token.kind ≠ .blank → (f token).SparesBlank) :
    (do let _ ← ParseM.skipBlank; let token ← ParseM.peek; f token).SparesBlank := by
  rw [← bind_assoc]
  have hlook : peekSolid.SparesBlank := skipBlank.bind fun _ => peek
  exact hlook.bind_of_run fun p q token hp hrun => hf token (kind_ne_blank_of_peekSolid hp hrun)

/-- The further elements of a list, if an element spares blanks. -/
private theorem elements (h : inner.SparesBlank) (opened : Position) (fuel : Nat) :
    (ParseM.elements inner opened fuel).SparesBlank := by
  -- White space before an element is skipped, so it is not met where an element starts.
  induction fuel with
  | zero => exact failAtLast nofun
  | succ fuel ih =>
    unfold ParseM.elements
    refine skipBlank.bind fun separated => peek.bind fun token => ?_
    split
    · exact advance_then (pure [])
    · exact failAtLast nofun
    · split
      · exact h.bind fun item => ih.bind fun items => pure (item :: items)
      · exact failAt _ nofun

/-- A list, if an element spares blanks. -/
private theorem list (h : inner.SparesBlank) : (ParseM.list inner).SparesBlank := by
  unfold ParseM.list
  refine advance.bind fun opened => skipBlank.bind fun _ => peek.bind fun token => ?_
  split
  · exact advance_then (pure Datum.nil)
  · refine h.bind fun first => ?_
    have hpending : ParseM.pending.SparesBlank := fun p hp => ⟨hp, nofun⟩
    refine hpending.bind fun size => ?_
    exact (elements h opened.position (size + 1)).bind fun rest => pure _

/-- One level deeper, or the fault that there is none. -/
private theorem descend {inner : Option (ParseM Datum)} {body : ParseM Datum → ParseM Datum}
    (h : ∀ act, inner = some act → (body act).SparesBlank) (token : Token) :
    (ParseM.descend token inner body).SparesBlank := by
  unfold ParseM.descend
  split
  · exact failAt token.position nofun
  · next act => exact nested (h act rfl)

/-- The branch for a blank token is not reached. -/
theorem form {inner : Option (ParseM Datum)}
    (h : ∀ act, inner = some act → act.SparesBlank) : (ParseM.form inner).SparesBlank := by
  refine of_solid fun token hsolid => ?_
  -- Quotes and lists go one level deeper, atoms are consumed, the rest are faults of their own.
  split
  · refine descend (fun act hact => ?_) token
    exact advance_then ((h act hact).bind fun datum => pure _)
  · exact advance_then (pure _)
  · exact advance_then (pure _)
  · exact advance_then (pure _)
  · exact descend (fun act hact => list (h act hact)) token
  · exact failAt token.position nofun
  · exact failAtLast nofun
  -- White space was skipped, and no second blank token follows.
  · next hblank => exact absurd hblank hsolid

/-- An expression with any room for levels. -/
private theorem expressionWithin (room : Nat) : (ParseM.expressionWithin room).SparesBlank := by
  -- One level after the other, starting from the one without room.
  induction room with
  | zero => exact form nofun
  | succ room ih =>
    refine form fun act hact => ?_
    obtain rfl := Option.some.inj hact
    exact ih

/-- The next expression. -/
theorem expression : ParseM.expression.SparesBlank :=
  fun p hp => expressionWithin (maxNesting - p.depth) p hp

/-- The question whether the text is done. -/
private theorem isDone : ParseM.isDone.SparesBlank :=
  skipBlank.bind fun _ => peek.bind fun _ => pure _

/-- Expressions to the end of the text. -/
private theorem expressionsUpTo (fuel : Nat) : (ParseM.expressionsUpTo fuel).SparesBlank := by
  induction fuel with
  | zero => exact pure []
  | succ fuel ih =>
    refine isDone.bind fun done => ?_
    split
    · exact pure []
    · exact expression.bind fun datum => ih.bind fun data => pure (datum :: data)

/-- Every call. -/
private theorem call (call : Parser.Call) : call.act.SparesBlank := by
  cases call with
  | expression => exact expression
  | isDone => exact isDone
  | assertDone =>
    refine isDone.bind fun done => ?_
    split
    · exact pure ()
    · exact peek.bind fun token => failAt token.position nofun
  | expressions => exact fun p hp => expressionsUpTo _ p hp

end SparesBlank

/-! ## Calls after looking ahead -/

/-- The step begins with a look past white space. -/
def LooksFirst (act : ParseM α) : Prop :=
  ∃ f : Token → ParseM α, act = peekSolid >>= f

/-- A step that looks first, followed by any other, looks first. -/
private theorem LooksFirst.bind {act : ParseM α} (h : act.LooksFirst) (f : α → ParseM β) :
    (act >>= f).LooksFirst := by
  obtain ⟨g, rfl⟩ := h
  exact ⟨fun token => g token >>= f, bind_assoc _ _ _⟩

/-- The question whether the text is done looks past white space first. -/
private theorem looksFirst_isDone : isDone.LooksFirst :=
  ⟨_, (bind_assoc _ _ _).symm⟩

/-- An expression looks past white space first. -/
private theorem looksFirst_expressionWithin (room : Nat) : (expressionWithin room).LooksFirst := by
  obtain ⟨inner, hform⟩ := expressionWithin_eq_form room
  rw [hform]
  exact ⟨_, (bind_assoc _ _ _).symm⟩

/-- A step that begins with a look past white space runs alike after such a look. -/
theorem LooksFirst.run_again {act : ParseM α} (h : act.LooksFirst) (hp : p.Scanned) :
    (p.run peekSolid).2.run act = p.run act := by
  obtain ⟨f, rfl⟩ := h
  rw [Parser.run_bind, Parser.run_bind, run_peekSolid_again hp]

/-- The question whether the text is done leaves the parser that a look past white space leaves. -/
private theorem run_isDone_snd (p : Parser) : (p.run isDone).2 = (p.run peekSolid).2 := by
  have hdone : isDone = peekSolid >>= fun token => Pure.pure (decide (token.kind = .endOfInput)) :=
    (bind_assoc _ _ _).symm
  rw [hdone, Parser.run_bind]
  cases p.run peekSolid with
  | mk outcome q =>
    cases outcome with
    | ok token => rfl
    | error fault => rfl

/-- Fuel beyond the length of the text makes no difference, to the data or to the parser. -/
theorem run_expressionsUpTo_of_lt {t : List Char} {fuel fuel' : Nat} (hp : p.At 0 t)
    (h : t.length < fuel) (h' : t.length < fuel') :
    p.run (expressionsUpTo fuel) = p.run (expressionsUpTo fuel') := by
  induction fuel generalizing p t fuel' with
  | zero => omega
  | succ fuel ih =>
    obtain ⟨fuel', rfl⟩ : ∃ f, fuel' = f + 1 := ⟨fuel' - 1, by omega⟩
    unfold expressionsUpTo
    rw [Parser.run_bind, Parser.run_bind]
    -- Both readings go through the same round before they use their fuel again.
    cases hdone : p.run isDone with
    | mk outcome q =>
      cases outcome with
      | error fault => rfl
      | ok done =>
        cases done with
        | true => rfl
        | false =>
          dsimp only
          rw [if_neg Bool.false_ne_true, if_neg Bool.false_ne_true, Parser.run_bind,
            Parser.run_bind]
          cases hexpr : q.run expression with
          | mk outcome r =>
            cases outcome with
            | error fault => rfl
            | ok datum =>
              -- One round has been read, and what it took is at least one character.
              have hround : p.round = .ok (some (datum, r)) := by
                simp only [Parser.round, hdone, hexpr]
              obtain ⟨t', hr, hle⟩ := (Parser.Reads.cons hround (.nil r)).length_le hp
              rw [List.length_singleton] at hle
              have hrest : r.run (expressionsUpTo fuel) = r.run (expressionsUpTo fuel') :=
                ih hr (by omega) (by omega)
              dsimp only
              rw [Parser.run_bind, Parser.run_bind, hrest]

/-- All expressions are read with any fuel beyond the length of the text. -/
private theorem run_expressions_of_lt {t : List Char} {fuel : Nat} (hp : p.At 0 t)
    (h : t.length < fuel) :
    p.run expressions = p.run (expressionsUpTo fuel) := by
  unfold expressions
  rw [Parser.run_bind, run_pending, hp.text_eq]
  exact run_expressionsUpTo_of_lt hp (Nat.lt_succ_self _) h

end ParseM

namespace Parser

variable {p : Parser}

/-- Between two calls no level is open, and the token looked at came from the scanner. -/
structure Idle (p : Parser) : Prop where
  scanned : p.Scanned
  depth_eq : p.depth = 0

/-- A new parser is idle. -/
private theorem idle_ofSource (source : String) : (ofSource source).Idle :=
  ⟨nofun, rfl⟩

/-- An idle parser has no level open and a text before it. -/
private theorem Idle.at (h : p.Idle) : p.At 0 p.text :=
  ⟨rfl, h.depth_eq, h.scanned⟩

/-- After a call the parser is idle again. -/
private theorem Idle.call (h : p.Idle) (call : Call) : (p.run call.act).2.Idle := by
  have hlevel := Coupling.couples_alarmed (pure ()) (Nat.zero_le maxNesting) call
  exact ⟨lawful_scanned.holds_call h.scanned call,
    (Coupling.couples_alone_iff.1 hlevel p h.depth_eq).2⟩

/-- Asking whether the text is done changes nothing about the next call. -/
theorem Idle.run_after_isDone (h : p.Idle) (call : Call) :
    (p.run ParseM.isDone).2.run call.act = p.run call.act := by
  have h' : (p.run ParseM.isDone).2.Idle := h.call .isDone
  -- The state after the question is the one after a look past white space.
  have hagain : ∀ {α : Type} {act : ParseM α}, act.LooksFirst →
      (p.run ParseM.isDone).2.run act = p.run act := by
    intro α act hact
    rw [run_isDone_snd]
    exact hact.run_again h.scanned
  cases call with
  | expression =>
    have hroom : ∀ {q : Parser}, q.Idle →
        q.run ParseM.expression = q.run (expressionWithin maxNesting) := by
      intro q hq
      show q.run (expressionWithin (maxNesting - q.depth)) = _
      rw [hq.depth_eq, Nat.sub_zero]
    show (p.run ParseM.isDone).2.run ParseM.expression = p.run ParseM.expression
    rw [hroom h', hroom h]
    exact hagain (looksFirst_expressionWithin maxNesting)
  | isDone => exact hagain looksFirst_isDone
  | assertDone => exact hagain (looksFirst_isDone.bind _)
  | expressions =>
    -- White space that was skipped is not counted any more, but there is enough fuel anyway.
    have hfuel : p.text.length < p.text.length + (p.run ParseM.isDone).2.text.length + 1 := by
      omega
    have hfuel' : (p.run ParseM.isDone).2.text.length <
        p.text.length + (p.run ParseM.isDone).2.text.length + 1 := by
      omega
    show (p.run ParseM.isDone).2.run ParseM.expressions = p.run ParseM.expressions
    rw [run_expressions_of_lt h.at hfuel, run_expressions_of_lt h'.at hfuel']
    exact hagain (looksFirst_isDone.bind _)

/-- Nor does asking any number of times. -/
private theorem Idle.run_after_questions (h : p.Idle) (call : Call) (n : Nat) :
    (p.afterCalls (List.replicate n .isDone)).run call.act = p.run call.act := by
  induction n generalizing p with
  | zero => rfl
  | succ n ih =>
    calc ((p.run ParseM.isDone).2.afterCalls (List.replicate n .isDone)).run call.act
      _ = (p.run ParseM.isDone).2.run call.act := ih (h.call .isDone)
      _ = p.run call.act := h.run_after_isDone call

end Parser

/-- The wording of a fault tells whether white space was found in place of an expression. -/
theorem SyntaxError.cause_of_reason {fault : SyntaxError}
    (h : fault.reason = "Expected expression, found whitespace") :
    fault.cause = .unexpectedBlank := by
  obtain ⟨position, cause⟩ := fault
  have hstart := congrArg (fun text : String => text.toList.take 11) h
  -- No other wording has the same first characters.
  cases cause with
  | unexpectedBlank => rfl
  | _ => simp [reason] at hstart

namespace Parser

/-- A scanner never gives two blank tokens in a row. So, on every parser that any calls have been
    made on, no call reports that it found white space in place of an expression; and asking any
    number of times whether the text is done changes neither the answer or fault of the next call
    nor the parser after it. -/
theorem looking_ahead_is_transparent (source : String) :
    ((Scanner.ofSource source).remainder.tokens.IsChain
      fun token token' => token.kind = .blank → token'.kind ≠ .blank) ∧
    ∀ calls call, let p := (ofSource source).afterCalls calls
      (∀ fault, (p.run (Call.act call)).1 = .error fault →
        fault.reason ≠ "Expected expression, found whitespace") ∧
      ∀ n, (p.afterCalls (List.replicate n .isDone)).run (Call.act call) =
        p.run (Call.act call) := by
  refine ⟨Scanner.isChain_takeUpTo _ _, fun calls call => ?_⟩
  intro p
  have hp : p.Idle :=
    holds_afterCalls Idle (fun _ call h => h.call call) (idle_ofSource source) calls
  refine ⟨fun fault hfault hreason => ?_, hp.run_after_questions call⟩
  have hcause := (SparesBlank.call call p hp.scanned).2 fault hfault
  exact hcause (SyntaxError.cause_of_reason hreason)

end Parser

end ScopeLisp
