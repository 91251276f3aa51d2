import ScopeLisp.Proofs.Coupling
import ScopeLisp.Proofs.LexemeEnds
import ScopeLisp.Proofs.Positions
import ScopeLisp.Proofs.ProgramReading

/-!
# Programs one after the other

Two programs with a line feed between them are read like one after the other. A line feed breaks
every lexeme, so the expressions of the first program are read from the longer text as well. Where
the first program ends, its white space and comments merge with the line feed and with the white
space at the start of the second. From there on the second program is read as it is on its own,
further down by the lines before it.

## Key results

- `Parser.Reads.append_text`: expressions are read whatever text follows them after a break
- `Coupling.lawful_displacement`: a text is read alike further down
- `Reading.append_newline`: the reading of two programs with a line feed between them
- `execute_append_newline`: running them
-/

namespace ScopeLisp

open Grammar ParseM

/-! ## The first program -/

/-- Expressions are read from a longer text as well, if what follows breaks lexemes. -/
theorem Parser.Reads.append_text {p q p' : Parser} {ds : List Datum} {t more : List Char}
    (h : p.Reads ds q) (hp : p.At 0 t) (hp' : p'.At 0 (t ++ more)) (hmore : Lexeme.Breaks more) :
    ∃ q' t', p'.Reads ds q' ∧ q.At 0 t' ∧ q'.At 0 (t' ++ more) := by
  induction h generalizing p' t with
  | nil p => exact ⟨p', t, .nil p', hp, hp'⟩
  | cons hround _ ih =>
    obtain ⟨ws, ks, t₁, hw, hx, hlex, hp₁⟩ := lexes_of_round hp hround
    -- An expression does not end with white space, so its tokens are the same in the longer text.
    have hlast : (ws ++ ks).getLast? ≠ some .blank := by
      obtain ⟨k, rest, hks, -⟩ := hx.starts
      have hne := hx.getLast?_ne_blank
      rw [List.getLast?_append]
      rw [hks] at hne ⊢
      simpa [List.getLast?_cons] using hne
    obtain ⟨p₁', hround', hp₁'⟩ := round_of_lexes hp' hw hx (hlex.append_text hmore fun _ => hlast)
    obtain ⟨q', t', hreads, hq, hq'⟩ := ih hp₁ hp₁'
    exact ⟨q', t', .cons hround' hreads, hq, hq'⟩

/-! ## Places in a source text -/

/-- The parser has consumed a text and stands behind it: the source is what was consumed with what
    was not, and the token looked at stands where the consumed text ends. -/
structure Parser.StandsAfter (source before : List Char) (p : Parser) : Prop where
  source_eq : before ++ p.text = source
  last_eq : p.last = Position.start.advance before
  position_eq : p.scanner.position = p.last.advance (p.lookahead.elim [] (·.lexeme.toList))

namespace Parser

variable {source before : List Char} {p : Parser}

/-- A new parser has consumed nothing. -/
theorem standsAfter_ofSource (source : String) :
    (ofSource source).StandsAfter source.toList [] :=
  ⟨rfl, rfl, rfl⟩

/-- Looking at a token keeps what was consumed. -/
theorem StandsAfter.peek (h : p.StandsAfter source before) :
    (p.run ParseM.peek).2.StandsAfter source before := by
  rw [run_peek]
  cases hlook : p.lookahead with
  | some token => exact h
  | none =>
    have hplace : p.scanner.position = p.last := by rw [h.position_eq, hlook]; rfl
    have hsource : before ++ p.scanner.rest = source := by
      rw [← h.source_eq, text, hlook]
      rfl
    dsimp only
    obtain ⟨hnil, hnext⟩ | ⟨l, hl, hnext⟩ | ⟨c, cs, -, -, hnext⟩ := p.scanner.nextToken_cases
    · rw [hnext]
      exact ⟨hsource, h.last_eq, hplace⟩
    · -- The lexeme moves from the text that is left to the token looked at.
      obtain ⟨happ, -⟩ := Lexeme.splits_of_scan? hl
      rw [hnext]
      refine ⟨?_, h.last_eq, ?_⟩
      · simp only [text, Option.elim_some, String.toList_ofList, happ]
        exact hsource
      · simp only [Option.elim_some, String.toList_ofList, hplace]
    · rw [hnext]
      exact ⟨hsource, h.last_eq, hplace⟩

/-- Consuming the token looked at moves the parser behind it. -/
theorem StandsAfter.consumed (h : p.StandsAfter source before) :
    p.consumed.StandsAfter source (before ++ p.lookahead.elim [] (·.lexeme.toList)) where
  source_eq := by
    rw [List.append_assoc]
    exact h.source_eq
  last_eq := by
    rw [Position.advance_append, ← h.last_eq, ← h.position_eq]
    rfl
  position_eq := rfl

/-- All steps of reading keep to the places of the source text. -/
theorem lawful_standsAfter (source : List Char) :
    (Coupling.alone fun p => ∃ before, p.StandsAfter source before).Lawful := by
  refine Coupling.lawful_alone ?_ ?_ ?_
  · rintro p ⟨before, h⟩
    exact ⟨before, h.peek⟩
  · rintro p token ⟨before, h⟩ -
    exact ⟨_, h.consumed⟩
  · rintro p depth ⟨before, h⟩
    exact ⟨before, h.source_eq, h.last_eq, h.position_eq⟩

end Parser

/-! ## A text further down -/

/-- The second parser is the first one, with all its places `n` lines further down. -/
structure Parser.Displaced (n : Nat) (p p' : Parser) : Prop where
  rest_eq : p'.scanner.rest = p.scanner.rest
  position_eq : p'.scanner.position = p.scanner.position.down n
  lookahead_eq : p'.lookahead = p.lookahead.map (Token.moved (.down n))
  depth_eq : p'.depth = p.depth
  last_eq : p'.last = p.last.down n

/-- A text read twice, the second time further down. -/
def Coupling.displacement (n : Nat) : Coupling where
  parsers := Parser.Displaced n
  move := .down n

/-- What is wrong at a character does not depend on the place. -/
private theorem Scanner.moved_faultAt (move : Position → Position) (c : Char) :
    (faultAt c).moved move = faultAt c := by
  unfold faultAt
  split
  · rfl
  · rfl

/-- Looking at the next token of a text finds the same token further down. -/
private theorem Coupling.displacement_peek (n : Nat) :
    (displacement n).Couples (displacement n).tokens peek peek := by
  intro p p' h
  rw [Parser.run_peek, Parser.run_peek, h.lookahead_eq]
  cases hlook : p.lookahead with
  | some token => exact .ok rfl h
  | none =>
    simp only [Option.map_none]
    -- Both scanners meet the end, take the same lexeme or find the same fault.
    obtain ⟨hnil, hnext⟩ | ⟨l, hl, hnext⟩ | ⟨c, cs, hrest, hl, hnext⟩ := p.scanner.nextToken_cases
    · rw [hnext, Scanner.nextToken_of_nil (h.rest_eq.trans hnil)]
      dsimp only
      rw [h.position_eq]
      exact .ok rfl ⟨h.rest_eq, rfl, rfl, h.depth_eq, h.last_eq⟩
    · rw [hnext, Scanner.nextToken_of_scan? (h.rest_eq ▸ hl)]
      dsimp only
      rw [h.position_eq, Position.advance_down]
      exact .ok rfl ⟨rfl, rfl, rfl, h.depth_eq, h.last_eq⟩
    · rw [hnext, Scanner.nextToken_of_fault (h.rest_eq.trans hrest) (h.rest_eq ▸ hl)]
      have hfault : (⟨p'.scanner.position, Scanner.faultAt c⟩ : SyntaxError) =
          SyntaxError.moved (.down n) ⟨p.scanner.position, Scanner.faultAt c⟩ := by
        rw [SyntaxError.moved, Scanner.moved_faultAt, h.position_eq]
      dsimp only
      rw [hfault]
      exact .error ⟨h.rest_eq, h.position_eq, rfl, h.depth_eq, h.last_eq⟩

/-- All steps of reading read alike further down. -/
theorem Coupling.lawful_displacement (n : Nat) : (displacement n).Lawful where
  peek := displacement_peek n
  consumed h _ _ := ⟨h.rest_eq, h.position_eq, rfl, h.depth_eq, h.position_eq⟩
  nested _ h := ⟨h.rest_eq, h.position_eq, h.lookahead_eq, rfl, h.last_eq⟩
  depth_eq h := h.depth_eq
  last_eq h := h.last_eq
  length_eq := by
    intro p p' h
    rw [Parser.text, Parser.text, h.rest_eq, h.lookahead_eq]
    cases p.lookahead <;> rfl

/-! ## Rounds side by side -/

namespace Coupling

variable {C : Coupling} {p p' q : Parser} {ds : List Datum}

/-- Rounds that correspond. -/
inductive Rounds (C : Coupling) : Except SyntaxError (Option (Datum × Parser)) →
    Except SyntaxError (Option (Datum × Parser)) → Prop where
  | fault (fault : SyntaxError) : C.Rounds (.error fault) (.error (fault.moved C.move))
  | done : C.Rounds (.ok none) (.ok none)
  | datum {p p' : Parser} (d : Datum) : C.parsers p p' →
      C.Rounds (.ok (some (d, p))) (.ok (some (d, p')))

/-- Rounds correspond if the questions whether the text is done do. -/
private theorem Lawful.rounds_of_isDone (L : C.Lawful)
    (h : C.Outcomes Eq (p.run ParseM.isDone) (p'.run ParseM.isDone)) :
    C.Rounds p.round p'.round := by
  -- A round asks whether the text is done, and reads an expression if not.
  unfold Parser.round
  generalize p.run ParseM.isDone = r, p'.run ParseM.isDone = r' at h
  cases h with
  | error hq => exact .fault _
  | @ok done _ q q' heq hq =>
    subst heq
    cases done with
    | true => exact .done
    -- The parsers still correspond, so the expressions do.
    | false =>
      have hexpr := L.expression q q' hq
      dsimp only
      generalize q.run ParseM.expression = r, q'.run ParseM.expression = r' at hexpr
      cases hexpr with
      | error hq => exact .fault _
      | ok heq hq =>
        subst heq
        exact .datum _ hq

/-- Corresponding parsers go through corresponding rounds. -/
private theorem Lawful.round (L : C.Lawful) (h : C.parsers p p') : C.Rounds p.round p'.round :=
  L.rounds_of_isDone (L.isDone p p' h)

/-- Once a round of one reading corresponds to one of another, all the following do. -/
theorem Lawful.reads_of_rounds (L : C.Lawful) {fault : Option SyntaxError}
    (h : C.Rounds p.round p'.round) (hreads : p.Reads ds q) (hends : q.Ends fault) :
    ∃ q', p'.Reads ds q' ∧ q'.Ends (fault.map (.moved C.move)) := by
  -- By induction on the rounds of the first reading; only the first of them is given as
  -- corresponding.
  induction hreads generalizing p' with
  | nil p =>
    refine ⟨p', .nil p', ?_⟩
    rw [Parser.Ends] at hends ⊢
    rw [hends] at h
    cases fault with
    | none =>
      generalize p'.round = r at h
      cases h
      rfl
    | some fault =>
      generalize p'.round = r at h
      cases h
      rfl
  | @cons p p₁ q d ds hround _ ih =>
    rw [hround] at h
    generalize hround' : p'.round = r at h
    cases h with
    | datum _ hp₁ =>
      obtain ⟨q', hreads', hends'⟩ := ih (L.round hp₁) hends
      exact ⟨q', .cons hround' hreads', hends'⟩

end Coupling

/-- Every parser that is reached from the start of a source text stands somewhere in it. -/
theorem Parser.Reads.standsAfter {p q : Parser} {ds : List Datum} {source : List Char}
    (h : p.Reads ds q) (hp : ∃ before, p.StandsAfter source before) :
    ∃ before, q.StandsAfter source before := by
  induction h with
  | nil p => exact hp
  | @cons p p' q d ds hround _ ih =>
    have hrounds : (Coupling.alone _).Rounds p.round p.round :=
      (lawful_standsAfter source).round ⟨rfl, hp⟩
    rw [hround] at hrounds
    cases hrounds with
    | datum _ hp' => exact ih hp'.2

/-! ## White space at the seam -/

namespace ParseM

/-- Whether the end of input is next. -/
def atEnd : ParseM Bool := do
  return (← peek).kind = .endOfInput

/-- Without white space the question whether the text is done is a look at the next token. -/
private theorem run_isDone_of_ne_blank {p : Parser}
    (h : ∀ token q, p.run peek = (.ok token, q) → token.kind ≠ .blank) :
    p.run isDone = p.run atEnd := by
  unfold isDone skipBlank atEnd
  rw [Parser.run_bind, Parser.run_bind, Parser.run_bind]
  cases hpeek : p.run peek with
  | mk outcome q =>
    cases outcome with
    | error fault => rfl
    | ok token =>
      dsimp only
      rw [if_neg (h token q hpeek), Parser.run_pure]
      dsimp only
      -- The token is looked at a second time.
      rw [Parser.run_bind, Parser.run_peek, lookahead_of_peek hpeek]

/-- White space is consumed before the look at the next token. -/
private theorem run_isDone_of_blank {p q : Parser} {token : Token} (h : p.run peek = (.ok token, q))
    (hkind : token.kind = .blank) : p.run isDone = q.consumed.run atEnd := by
  have hadvance : q.run advance = (.ok token, q.consumed) := by
    refine run_advance_of_peek ?_
    rw [Parser.run_peek, lookahead_of_peek h]
  unfold isDone skipBlank
  rw [Parser.run_bind, Parser.run_bind, h]
  dsimp only
  rw [if_pos hkind, Parser.run_bind, hadvance]
  rfl

end ParseM

/-- A look whether the text is at its end corresponds too. -/
private theorem Coupling.Lawful.atEnd {C : Coupling} (L : C.Lawful) :
    C.Couples Eq ParseM.atEnd ParseM.atEnd := by
  refine L.peek.bind fun token token' htoken => ?_
  subst htoken
  exact .pure rfl

/-- The blank run before a parser is consumed in asking whether the text is done. -/
theorem Parser.At.past_blank {p : Parser} {t source before : List Char} (hp : p.At 0 t)
    (hs : p.StandsAfter source before)
    (h : p.lookahead = none ∨ (Lexeme.blankRun false t).1 ≠ []) :
    ∃ (q : Parser) (before' : List Char),
      p.run isDone = q.run atEnd ∧ q.At 0 (Lexeme.blankRun false t).2 ∧
      q.StandsAfter source before' ∧ q.lookahead = none := by
  by_cases hrun : (Lexeme.blankRun false t).1 = []
  · have hrest : (Lexeme.blankRun false t).2 = t := by
      have happ := Lexeme.blankRun_append false t
      rwa [hrun, List.nil_append] at happ
    rw [hrest]
    refine ⟨p, before, run_isDone_of_ne_blank ?_, hp, hs, h.resolve_right fun hne => hne hrun⟩
    intro token q hpeek hkind
    obtain ⟨-, -, -, rest, hnext⟩ := peek_yields p hp token q hpeek
    -- A blank token would be a blank run at the start of the text.
    obtain ⟨-, hend⟩ | ⟨l, hl, hlkind, -⟩ := hnext.inv
    · rw [hkind] at hend
      exact nomatch hend
    · obtain ⟨hblank, -⟩ | ⟨-, hne, -⟩ := Lexeme.scan?_cases hl
      · rw [Lexeme.blank?_eq_none_iff.2 hrun] at hblank
        exact nomatch hblank
      · exact hne (hlkind.trans hkind)
  · have hnext : Next t .blank (Lexeme.blankRun false t).2 :=
      .lexeme (Lexeme.scan?_of_blankRun hrun)
    obtain ⟨token, q, -, hpeek, -, -, hkind⟩ := peek_succeeds hnext p hp
    obtain ⟨_, _, _, hadvance, hq, -, rfl⟩ := advance_succeeds hnext p hp
    rw [run_advance_of_peek hpeek] at hadvance
    obtain ⟨-, rfl⟩ := Prod.mk.inj hadvance
    have hstands := hs.peek
    rw [hpeek] at hstands
    exact ⟨q.consumed, _, run_isDone_of_blank hpeek hkind, hq, hstands.consumed, rfl⟩

/-- Behind a line feed in a longer text, a parser is displaced by the lines before. -/
theorem Parser.StandsAfter.displaced {p q : Parser} {first second t before before' : List Char}
    (hp : p.StandsAfter second before) (hq : q.StandsAfter (first ++ '\n' :: second) before')
    (hpt : p.At 0 t) (hqt : q.At 0 t) (hpl : p.lookahead = none) (hql : q.lookahead = none) :
    p.Displaced (1 + first.count '\n') q := by
  -- The same text is left, so what was consumed differs by the first program and the line feed.
  have hbefore : before' = first ++ '\n' :: before := by
    have hsource := hq.source_eq
    rw [← hp.source_eq, hpt.text_eq, hqt.text_eq, ← List.cons_append,
      ← List.append_assoc] at hsource
    exact List.append_cancel_right hsource
  have hlast : q.last = p.last.down (1 + first.count '\n') := by
    rw [hq.last_eq, hp.last_eq, hbefore, Position.advance_start_append_newline]
  refine ⟨?_, ?_, ?_, ?_, hlast⟩
  · rw [hpt.rest_eq hpl, hqt.rest_eq hql]
  · rw [hp.position_eq, hq.position_eq, hpl, hql]
    exact hlast
  · rw [hpl, hql]
    rfl
  · rw [hpt.depth_eq, hqt.depth_eq]

/-! ## Two programs -/

/-- Where the first program ends, the second one starts as it does on its own. -/
theorem Parser.rounds_at_seam {q : Parser} {t first before : List Char} {ws : List Token.Kind}
    (second : String) (hw : OptBlank ws) (hlex : Lexes t ws [])
    (hq : q.At 0 (t ++ '\n' :: second.toList))
    (hs : q.StandsAfter (first ++ '\n' :: second.toList) before) :
    (Coupling.displacement (1 + first.count '\n')).Rounds (ofSource second).round q.round := by
  have hblank : (Lexeme.blankRun false t).2 = [] := by
    cases hw with
    | absent =>
      obtain rfl := hlex.eq_of_nil
      rfl
    | present =>
      obtain ⟨l, hl, hkind, hrest⟩ := hlex.cons_inv
      rw [← Lexeme.rest_of_blank hl hkind, hrest.eq_of_nil]
  have hmerged := Lexeme.blankRun_append_newline second.toList hblank
  -- Both parsers go past the white space before them and then have the same text before them.
  obtain ⟨p₁, before₁, hdone₁, hp₁, hs₁, hlook₁⟩ :=
    (at_ofSource second).past_blank (standsAfter_ofSource second) (.inl rfl)
  obtain ⟨q₁, before₂, hdone₂, hq₁, hs₂, hlook₂⟩ :=
    hq.past_blank hs (.inr (by rw [hmerged]; simp))
  rw [hmerged] at hq₁
  have hdisplaced := hs₁.displaced hs₂ hp₁ hq₁ hlook₁ hlook₂
  refine (Coupling.lawful_displacement _).rounds_of_isDone ?_
  rw [hdone₁, hdone₂]
  exact (Coupling.lawful_displacement _).atEnd p₁ q₁ hdisplaced

/-- The reading of two programs with a line feed between them: the data of both, and then the fault
    of the second one, if it has one, further down by the lines before it. -/
theorem Reading.append_newline {first second : String} {ds ds' : List Datum}
    {fault : Option SyntaxError} (h : Reading first ds none) (h' : Reading second ds' fault) :
    Reading (first ++ "\n" ++ second) (ds ++ ds')
      (fault.map (.moved (.down (1 + first.toList.count '\n')))) := by
  obtain ⟨p, hreads, hends⟩ := h
  obtain ⟨r, hreads', hends'⟩ := h'
  have hsource : (first ++ "\n" ++ second).toList = first.toList ++ '\n' :: second.toList := by
    simp
  have hstart := Parser.at_ofSource (first ++ "\n" ++ second)
  have hstands := Parser.standsAfter_ofSource (first ++ "\n" ++ second)
  rw [hsource] at hstart hstands
  -- The first program is read from the longer text, up to its last white space.
  obtain ⟨q, t, hq, hp, hqt⟩ := hreads.append_text (Parser.at_ofSource first) hstart
    (Lexeme.breaks_newline second.toList)
  obtain ⟨ws, hw, hlex⟩ := (Parser.round_eq_none_iff hp).1 hends
  obtain ⟨before, hqs⟩ := hq.standsAfter ⟨[], hstands⟩
  -- From there the second program is read as from its start.
  have hrounds := Parser.rounds_at_seam second hw hlex hqt hqs
  obtain ⟨q', hq', hends''⟩ :=
    (Coupling.lawful_displacement _).reads_of_rounds hrounds hreads' hends'
  exact ⟨q', hq.append hq', hends''⟩

/-- The data of a program are read first when a line feed and more text follow, also if a fault
    follows them in the program itself. -/
theorem Reading.append_newline_of_fault {first : String} {ds : List Datum}
    {fault : Option SyntaxError} (h : Reading first ds fault) (second : String) :
    ∃ ds' fault', Reading (first ++ "\n" ++ second) (ds ++ ds') fault' := by
  obtain ⟨p, hreads, -⟩ := h
  have hstart := Parser.at_ofSource (first ++ "\n" ++ second)
  rw [show (first ++ "\n" ++ second).toList = first.toList ++ '\n' :: second.toList by simp]
    at hstart
  obtain ⟨q, t, hq, -, hqt⟩ := hreads.append_text (Parser.at_ofSource first) hstart
    (Lexeme.breaks_newline second.toList)
  obtain ⟨ds', q', fault', hq', hends'⟩ := Parser.exists_reads hqt
  exact ⟨ds', fault', q', hq.append hq', hends'⟩

/-! ## Running two programs -/

/-- An error with the places of a malformed text `n` lines further down. -/
def Error.down (n : Nat) : Error → Error
  | .malformed fault => .malformed (fault.moved (.down n))
  | e => e

/-- Concluding leaves the machine alone. -/
private theorem Machine.run_conclude (m : Machine) (fault : Option SyntaxError) (last : Value) :
    m.run (conclude fault last) =
      (fault.elim (.ok last) fun fault => .error (.malformed fault), m) := by
  cases fault with
  | none => rfl
  | some fault => rfl

/-- What the value before a program is does not matter unless the program is empty. -/
theorem evaluateData_conclude_eq {ds : List Datum} {fault : Option SyntaxError}
    (h : ¬ (ds = [] ∧ fault = none)) (v w : Value) :
    evaluateData ds v >>= conclude fault = evaluateData ds w >>= conclude fault := by
  by_cases hds : ds = []
  · subst hds
    cases fault with
    | none => exact absurd ⟨rfl, rfl⟩ h
    | some fault => rfl
  · rw [evaluateData_eq_of_ne_nil hds v w]

/-- Evaluating data and then concluding with a fault that is further down only changes the error
    that reports it. -/
theorem Machine.run_evaluateData_conclude_down (m : Machine) (ds : List Datum) (last : Value)
    (fault : Option SyntaxError) (n : Nat) :
    m.run (evaluateData ds last >>= conclude (fault.map (.moved (.down n)))) =
      ((m.run (evaluateData ds last >>= conclude fault)).1.mapError (Error.down n),
        (m.run (evaluateData ds last >>= conclude fault)).2) := by
  rw [run_bind, run_bind]
  have hnot := m.run_evaluateData_ne_malformed ds last
  generalize m.run (evaluateData ds last) = r at hnot
  obtain ⟨outcome, m'⟩ := r
  cases outcome with
  | ok v =>
    dsimp only
    rw [run_conclude, run_conclude]
    cases fault <;> rfl
  | error e =>
    -- An error of evaluation is none of a text, so it stays as it is.
    have hsame : e.down n = e := by
      cases e with
      | malformed fault => exact absurd rfl (hnot fault)
      | _ => rfl
    show (Except.error e, m') = (Except.error (e.down n), m')
    rw [hsame]

/-- Running two programs with a line feed between them from any machine. If the first one fails,
    not by being malformed, then so does the whole, with all the same effects. If it succeeds, the
    whole leaves the machine that running the second one after it leaves, and returns what that
    returns: the value of the first if the second holds no expression and no fault, and a fault of
    the second one line further down for every line before it. -/
theorem execute_append_newline (m : Machine) (first second : String) :
    let r := m.run (execute first)
    let whole := m.run (execute (first ++ "\n" ++ second))
    (∀ e, r.1 = .error e → (∀ fault, e ≠ .malformed fault) → whole = r) ∧
      ∀ v, r.1 = .ok v →
        whole.2 = (r.2.run (execute second)).2 ∧
        (parseAll second = .ok [] → whole.1 = .ok v) ∧
        (parseAll second ≠ .ok [] →
          whole.1 = (r.2.run (execute second)).1.mapError
            (Error.down (1 + first.toList.count '\n'))) := by
  intro r whole
  obtain ⟨ds, fault, hreading⟩ := exists_reading first
  have hr : r = m.run (evaluateData ds .nil >>= conclude fault) := by
    rw [← execute_of_reading hreading]
  rw [Machine.run_bind] at hr
  -- The data of the first program are evaluated first, whatever follows them.
  cases heval : m.run (evaluateData ds .nil) with
  | mk outcome m' =>
    rw [heval] at hr
    cases outcome with
    | error e =>
      -- The data of the first program come first, so the whole stops at the same point.
      obtain ⟨ds', fault', hwhole⟩ := hreading.append_newline_of_fault second
      have hsame : whole = r := by
        show m.run (execute _) = r
        rw [execute_of_reading hwhole, evaluateData_append, bind_assoc, Machine.run_bind, heval, hr]
      refine ⟨fun _ _ _ => hsame, fun v hv => ?_⟩
      rw [hr] at hv
      exact nomatch hv
    | ok v =>
      dsimp only at hr
      rw [Machine.run_conclude] at hr
      cases fault with
      | some fault =>
        refine ⟨fun e he hne => ?_, fun v hv => ?_⟩
        · rw [hr] at he
          exact absurd (Except.error.inj he).symm (hne fault)
        · rw [hr] at hv
          exact nomatch hv
      | none =>
        refine ⟨fun e he => ?_, fun w hw => ?_⟩
        · rw [hr] at he
          exact nomatch he
        · rw [hr] at hw
          obtain rfl := Except.ok.inj hw
          obtain ⟨ds', fault', hreading'⟩ := exists_reading second
          -- The second program goes on from the value and the machine that the first one leaves.
          have hwhole : whole = m'.run (evaluateData ds' v >>=
              conclude (fault'.map (.moved (.down (1 + first.toList.count '\n'))))) := by
            show m.run (execute _) = _
            rw [execute_of_reading (hreading.append_newline hreading'), evaluateData_append,
              bind_assoc, Machine.run_bind, heval]
          rw [Machine.run_evaluateData_conclude_down] at hwhole
          rw [hr, execute_of_reading hreading', parseAll_of_reading hreading', hwhole]
          by_cases hempty : ds' = [] ∧ fault' = none
          · obtain ⟨rfl, rfl⟩ := hempty
            exact ⟨rfl, fun _ => rfl, fun hne => absurd rfl hne⟩
          · rw [evaluateData_conclude_eq hempty v .nil]
            refine ⟨rfl, fun hparse => absurd ?_ hempty, fun _ => rfl⟩
            cases fault' with
            | none => exact ⟨Except.ok.inj hparse, rfl⟩
            | some fault => exact nomatch hparse

end ScopeLisp
