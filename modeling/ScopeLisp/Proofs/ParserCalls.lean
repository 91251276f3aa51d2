import ScopeLisp.Proofs.Concatenation

/-!
# Calls on one parser

A parser serves one call after the other, and goes on after a call that found a fault. Between two
calls no level is open, and the source text is what was consumed, the token looked at and what the
scanner has not read, in this order.

The levels that are open are counted. A call refuses to open a level by the counter alone, and on
the two ways on which it opens one, it closes it again whatever happens in between. To say something
about every moment, expressions are read with a look at the parser on either side of each change of
the counter. Nothing else changes it.

## Key results

- `Coupling.couples_expressionProbed`: expressions read with and without a look at the parser
- `Parser.lawful_keepsPlace`: what all steps of reading keep
- `Parser.calls_keep_parser_sound`: what holds after any calls
-/

namespace ScopeLisp

/-! ## Calls -/

namespace Parser

/-- The calls that a parser serves. -/
inductive Call where
  /-- The next expression. -/
  | expression
  /-- Whether only white space is left. -/
  | isDone
  /-- The demand that only white space is left. -/
  | assertDone
  /-- All expressions that are left. -/
  | expressions
deriving DecidableEq

namespace Call

/-- What a call answers if it finds no fault. -/
def Answer : Call → Type
  | expression => Datum
  | isDone => Bool
  | assertDone => Unit
  | expressions => List Datum

/-- What a call does. -/
def act : (call : Call) → ParseM call.Answer
  | expression => ParseM.expression
  | isDone => ParseM.isDone
  | assertDone => ParseM.assertDone
  | expressions => ParseM.expressions

end Call

/-- The parser after calls, each of which may find a fault. -/
def afterCalls (p : Parser) (calls : List Call) : Parser :=
  calls.foldl (fun p call => (p.run call.act).2) p

/-- What every call keeps holds after any calls. -/
theorem holds_afterCalls (holds : Parser → Prop) {p : Parser}
    (hcall : ∀ p (call : Call), holds p → holds (p.run call.act).2) (hp : holds p)
    (calls : List Call) : holds (p.afterCalls calls) := by
  induction calls generalizing p with
  | nil => exact hp
  | cons call calls ih => exact ih (hcall p call hp)

section Sequence

variable {α β : Type} {p q : Parser} {act : ParseM α} {f : α → ParseM β}

/-- The second step goes on from where the first one succeeded. -/
theorem run_bind_of_ok {a : α} (h : p.run act = (.ok a, q)) : p.run (act >>= f) = q.run (f a) := by
  rw [run_bind, h]

/-- If the first step finds a fault, the second one does not run. -/
theorem run_bind_of_error {fault : SyntaxError} (h : p.run act = (.error fault, q)) :
    p.run (act >>= f) = (.error fault, q) := by
  rw [run_bind, h]

end Sequence

end Parser

/-! ## Reading with a look at the counter -/

namespace ParseM

variable {α : Type}

/-- Steps one level deeper, unless the counter is at the limit. -/
def enter (token : Token) : ParseM Unit := do
  let p ← get
  if p.depth < maxNesting then
    set { p with depth := p.depth + 1 }
  else
    failAt token.position .tooDeep

/-- Steps one level back up. -/
def leave : ParseM Unit :=
  modify fun p => { p with depth := p.depth - 1 }

/-- Runs a step and returns how it ended. -/
def attempt (act : ParseM α) : ParseM (Except SyntaxError α) :=
  ExceptT.mk (Except.ok <$> act.run)

/-- Opens a level, with a look at the parser before and after. -/
def opening (look : (level : Nat) → ParseM Unit) (level : Nat) (token : Token) : ParseM Unit := do
  look level
  enter token
  look (level + 1)

/-- Runs a step and closes a level, however the step ended, with a look at the parser before and
    after. -/
def closing (look : (level : Nat) → ParseM Unit) (level : Nat) (act : ParseM α) : ParseM α := do
  let outcome ← attempt act
  look (level + 1)
  leave
  look level
  MonadExcept.ofExcept outcome

/-- An expression with `level` levels open, with a step for the expressions one level deeper. Only
    that step, or the list around it, runs between opening a level and closing it for certain: the
    mark of a quote is consumed before. -/
def formProbed (look : (level : Nat) → ParseM Unit) (level : Nat) (inner : ParseM Datum) :
    ParseM Datum := do
  let _ ← skipBlank
  let token ← peek
  match token.kind with
  | .quote =>
    opening look level token
    let _ ← advance
    return .quoted (← closing look level inner)
  | .number x =>
    let _ ← advance
    return .number x
  | .string text =>
    let _ ← advance
    return .string text
  | .symbol name =>
    let _ ← advance
    return .symbol name
  | .leftParen =>
    opening look level token
    closing look level (list inner)
  | .rightParen => failAt token.position .unmatchedClose
  | .endOfInput => failAtLast .unexpectedEnd
  | .blank => failAt token.position .unexpectedBlank

/-- Expressions that refuse to open a level by the counter alone. Where no room is left, what they
    would do one level deeper does not matter. -/
def expressionProbed (look : (level : Nat) → ParseM Unit) : (room level : Nat) → ParseM Datum
  | 0, level => formProbed look level (failAtLast .tooDeep)
  | room + 1, level => formProbed look level (expressionProbed look room (level + 1))

/-- Raises an alarm unless the counter shows the level and is within the limit. -/
def alarmOffLevel (alarm : ParseM Unit) (level : Nat) : ParseM Unit := do
  let p ← get
  unless p.depth = level ∧ level ≤ maxNesting do alarm

/-- The next expression, with an alarm at every moment at which the counter is past the limit, or is
    not the number of levels opened and not yet closed on top of those open at the start. -/
def expressionAlarmed (alarm : ParseM Unit) : ParseM Datum := do
  let p ← get
  expressionProbed (alarmOffLevel alarm) (maxNesting - p.depth) p.depth

/-- At most `fuel` expressions, with an alarm in the same way. -/
def expressionsAlarmed (alarm : ParseM Unit) : (fuel : Nat) → ParseM (List Datum)
  | 0 => return []
  | fuel + 1 => do
    if ← isDone then
      return []
    else
      let datum ← expressionAlarmed alarm
      let data ← expressionsAlarmed alarm fuel
      return datum :: data

end ParseM

/-- What a call does, with an alarm where the counter is not what it should be. -/
def Parser.Call.alarmed (alarm : ParseM Unit) : (call : Call) → ParseM call.Answer
  | expression => ParseM.expressionAlarmed alarm
  | isDone => ParseM.isDone
  | assertDone => ParseM.assertDone
  | expressions => do ParseM.expressionsAlarmed alarm ((← ParseM.pending) + 1)

/-! ## The counter is kept -/

namespace Coupling

open ParseM

variable {α : Type} {d room : Nat} {p : Parser}

/-- A reading with `d` levels open. -/
def level (d : Nat) : Coupling :=
  alone (·.depth = d)

/-- Looking at a token opens and closes no level. -/
private theorem depth_run_peek (p : Parser) : (p.run peek).2.depth = p.depth := by
  rw [Parser.run_peek]
  cases p.lookahead with
  | some token => rfl
  | none =>
    dsimp only
    cases p.scanner.nextToken with
    | mk outcome s => cases outcome <;> rfl

/-- All steps of reading, other than the change of level itself, keep the level. -/
private theorem lawfulSteps_level (d : Nat) : (level d).LawfulSteps :=
  lawfulSteps_alone (fun p hp => (depth_run_peek p).trans hp) fun _ _ hp _ => hp

/-- On its level and within the limit no alarm is raised. -/
private theorem run_alarmOffLevel (alarm : ParseM Unit) (hp : p.depth = d) (hd : d ≤ maxNesting) :
    p.run (alarmOffLevel alarm d) = (.ok (), p) := by
  simp [alarmOffLevel, Parser.run_bind, hp, hd]

/-- Below the limit a level is opened, and both looks are quiet. -/
private theorem run_opening (alarm : ParseM Unit) (token : Token) (hp : p.depth = d)
    (hd : d < maxNesting) :
    p.run (opening (alarmOffLevel alarm) d token) = (.ok (), { p with depth := p.depth + 1 }) := by
  have henter : p.run (enter token) = (.ok (), { p with depth := p.depth + 1 }) := by
    rw [enter, Parser.run_bind_of_ok p.run_get, if_pos (by omega)]
    rfl
  have hbefore := run_alarmOffLevel alarm hp (Nat.le_of_lt hd)
  rw [opening, Parser.run_bind_of_ok hbefore, Parser.run_bind_of_ok henter]
  exact run_alarmOffLevel alarm (congrArg (· + 1) hp) hd

/-- At the limit no level is opened. -/
theorem run_opening_of_full (alarm : ParseM Unit) (token : Token) (hp : p.depth = d)
    (hd : d = maxNesting) :
    p.run (opening (alarmOffLevel alarm) d token) = (.error ⟨token.position, .tooDeep⟩, p) := by
  have henter : p.run (enter token) = (.error ⟨token.position, .tooDeep⟩, p) := by
    rw [enter, Parser.run_bind_of_ok p.run_get, if_neg (by omega)]
    rfl
  have hbefore := run_alarmOffLevel alarm hp (Nat.le_of_eq hd)
  rw [opening, Parser.run_bind_of_ok hbefore, Parser.run_bind_of_error henter]

/-- A level is closed, whatever the outcome of the step on it. -/
theorem run_closing {act act' : ParseM α} (alarm : ParseM Unit) (hp : p.depth = d + 1)
    (hd : d < maxNesting) (h : (level (d + 1)).Couples Eq act act') :
    p.run (closing (alarmOffLevel alarm) d act') =
      ((p.run act).1, { (p.run act).2 with depth := (p.run act).2.depth - 1 }) := by
  obtain ⟨heq, hdepth⟩ := couples_alone_iff.1 h p hp
  -- The step itself runs as it does without alarms; only its outcome is held back.
  have hattempt : p.run (attempt act') = (.ok (p.run act).1, (p.run act).2) := by
    rw [← heq]
    rfl
  have hinside := run_alarmOffLevel alarm hdepth hd
  have hleave : (p.run act).2.run leave =
      (.ok (), { (p.run act).2 with depth := (p.run act).2.depth - 1 }) := rfl
  -- One level up the counter is as before, so the look there is quiet, too.
  have hback : ({ (p.run act).2 with depth := (p.run act).2.depth - 1 } : Parser).depth = d :=
    congrArg (· - 1) hdepth
  have houtside := run_alarmOffLevel alarm hback (Nat.le_of_lt hd)
  rw [closing, Parser.run_bind_of_ok hattempt, Parser.run_bind_of_ok hinside,
    Parser.run_bind_of_ok hleave, Parser.run_bind_of_ok houtside]
  cases (p.run act).1 with
  | ok a => rfl
  | error fault => rfl

/-- Two steps correspond if they do so once a token has been looked at. -/
theorem Couples.peek_bind {f f' : Token → ParseM α}
    (h : ∀ (p : Parser) token, p.depth = d → p.lookahead = some token →
      p.run (f' token) = p.run (f token) ∧ (p.run (f token)).2.depth = d) :
    (level d).Couples Eq (peek >>= f) (peek >>= f') := by
  refine couples_alone_iff.2 fun p hp => ?_
  have hdepth := depth_run_peek p
  rw [Parser.run_bind, Parser.run_bind]
  cases hpeek : p.run peek with
  | mk outcome q =>
    rw [hpeek, hp] at hdepth
    cases outcome with
    | error fault => exact ⟨rfl, hdepth⟩
    | ok token => exact h q token hdepth (lookahead_of_peek hpeek)

/-- A list on a level of its own. -/
theorem run_listProbed {inner inner' : ParseM Datum} (alarm : ParseM Unit) (token : Token)
    (hp : p.depth = d) (hd : d < maxNesting) (h : (level (d + 1)).Couples Eq inner inner') :
    p.run (do
        opening (alarmOffLevel alarm) d token
        closing (alarmOffLevel alarm) d (list inner')) =
      p.run (nested (list inner)) := by
  have hlist := (lawfulSteps_level (d + 1)).list h
  rw [Parser.run_bind_of_ok (run_opening alarm token hp hd)]
  exact run_closing alarm (congrArg (· + 1) hp) hd hlist

/-- A quote on a level of its own. Its mark was looked at, so consuming it cannot fail and leave the
    level open. -/
theorem run_quoteProbed {inner inner' : ParseM Datum} (alarm : ParseM Unit) {token : Token}
    (hp : p.depth = d) (hlook : p.lookahead = some token) (hd : d < maxNesting)
    (h : (level (d + 1)).Couples Eq inner inner') :
    p.run (do
        opening (alarmOffLevel alarm) d token
        let _ ← advance
        return Datum.quoted (← closing (alarmOffLevel alarm) d inner')) =
      p.run (nested do let _ ← advance; return Datum.quoted (← inner)) := by
  have hpeek : ({ p with depth := p.depth + 1 } : Parser).run peek =
      (.ok token, { p with depth := p.depth + 1 }) := by
    rw [Parser.run_peek]
    simp only [hlook]
  have hadvance := run_advance_of_peek hpeek
  rw [Parser.run_nested, Parser.run_bind_of_ok (run_opening alarm token hp hd),
    Parser.run_bind_of_ok hadvance, Parser.run_bind_of_ok hadvance]
  -- Both go on with the quoted expression, and close the level after it.
  rw [Parser.run_bind, Parser.run_bind, run_closing alarm (congrArg (· + 1) hp) hd h]
  generalize Parser.run _ inner = r
  obtain ⟨outcome, q⟩ := r
  cases outcome with
  | ok datum => rfl
  | error fault => rfl

/-- Coming back up, the counter is what it was. -/
theorem depth_run_nested {act act' : ParseM α} (hp : p.depth = d)
    (h : (level (d + 1)).Couples Eq act act') : (p.run (nested act)).2.depth = d := by
  have hdepth := (couples_alone_iff.1 h { p with depth := p.depth + 1 } (congrArg (· + 1) hp)).2
  rw [Parser.run_nested]
  exact congrArg (· - 1) hdepth

/-- One level: an expression with a look at the counter is read like one without, if those one level
    deeper are. -/
private theorem couples_formProbed {inner : Option (ParseM Datum)} {inner' : ParseM Datum}
    (alarm : ParseM Unit) (hnone : inner = none → d = maxNesting)
    (hsome : ∀ act, inner = some act →
      d < maxNesting ∧ (level (d + 1)).Couples Eq act inner') :
    (level d).Couples Eq (form inner) (formProbed (alarmOffLevel alarm) d inner') := by
  have L := lawfulSteps_level d
  refine L.skipBlank.bind fun _ _ _ => Couples.peek_bind fun p token hp hlook => ?_
  -- Atoms are the same steps on both sides, and so are faults.
  have hatom : ∀ datum : Datum, (level d).Couples Eq (do let _ ← advance; return datum)
      (do let _ ← advance; return datum) := fun datum => L.advance_then (.pure rfl)
  have hfull : ∀ {act : Unit → ParseM Datum}, inner = none →
      p.run (opening (alarmOffLevel alarm) d token >>= act) =
        (.error ⟨token.position, .tooDeep⟩, p) := by
    intro act h
    exact Parser.run_bind_of_error (run_opening_of_full alarm token hp (hnone h))
  cases token.kind with
  | quote =>
    -- Without a level to go to the counter is at the limit, and both refuse.
    cases inner with
    | none => exact ⟨hfull rfl, hp⟩
    | some act =>
      obtain ⟨hd, h⟩ := hsome act rfl
      have hquote : (level (d + 1)).Couples Eq (do let _ ← advance; return Datum.quoted (← act))
          (do let _ ← advance; return Datum.quoted (← inner')) :=
        (lawfulSteps_level (d + 1)).advance_then (h.bind fun _ _ hdatum => .pure (by rw [hdatum]))
      exact ⟨run_quoteProbed alarm hp hlook hd h, depth_run_nested hp hquote⟩
  | leftParen =>
    cases inner with
    | none => exact ⟨hfull rfl, hp⟩
    | some act =>
      obtain ⟨hd, h⟩ := hsome act rfl
      have hlist := (lawfulSteps_level (d + 1)).list h
      exact ⟨run_listProbed alarm token hp hd h, depth_run_nested hp hlist⟩
  | number x => exact couples_alone_iff.1 (hatom (.number x)) p hp
  | string text => exact couples_alone_iff.1 (hatom (.string text)) p hp
  | symbol name => exact couples_alone_iff.1 (hatom (.symbol name)) p hp
  | rightParen => exact ⟨rfl, hp⟩
  | endOfInput => exact ⟨rfl, hp⟩
  | blank => exact ⟨rfl, hp⟩

/-- Expressions are read alike with a look at the counter, where the levels that are open and the
    room that is left add up to the limit. -/
theorem couples_expressionProbed (alarm : ParseM Unit) (h : d + room = maxNesting) :
    (level d).Couples Eq (expressionWithin room)
      (expressionProbed (alarmOffLevel alarm) room d) := by
  -- One level more is open for every one that there is room for less.
  induction room generalizing d with
  | zero => exact couples_formProbed alarm (fun _ => h) nofun
  | succ room ih =>
    refine couples_formProbed alarm nofun fun act hact => ?_
    obtain rfl := Option.some.inj hact
    exact ⟨by omega, ih (by omega)⟩

section Calls

variable (alarm : ParseM Unit) (hd : d ≤ maxNesting)

include hd

/-- The next expression, with and without alarms. -/
private theorem couples_expressionAlarmed :
    (level d).Couples Eq expression (expressionAlarmed alarm) := by
  refine couples_alone_iff.2 fun p hp => ?_
  have hroom : d + (maxNesting - d) = maxNesting := by omega
  have hrun := couples_alone_iff.1 (couples_expressionProbed alarm hroom) p hp
  rw [← hp] at hrun ⊢
  exact hrun

/-- Several expressions, with and without alarms. -/
private theorem couples_expressionsAlarmed (fuel : Nat) :
    (level d).Couples Eq (expressionsUpTo fuel) (expressionsAlarmed alarm fuel) := by
  -- By induction on the fuel. Only the expressions themselves can raise an alarm.
  induction fuel with
  | zero => exact .pure rfl
  | succ fuel ih =>
    refine (lawfulSteps_level d).isDone.bind fun done _ hdone => ?_
    subst hdone
    refine .ite Iff.rfl (.pure rfl) ?_
    refine (couples_expressionAlarmed alarm hd).bind fun datum _ hdatum => ?_
    subst hdatum
    refine ih.bind fun data _ hdata => ?_
    subst hdata
    exact .pure rfl

/-- A call runs like the call with alarms, and leaves the counter as it was. -/
theorem couples_alarmed (call : Parser.Call) :
    (level d).Couples Eq call.act (call.alarmed alarm) := by
  cases call with
  | expression => exact couples_expressionAlarmed alarm hd
  | isDone => exact (lawfulSteps_level d).isDone
  | assertDone => exact (lawfulSteps_level d).assertDone
  | expressions =>
    refine (lawfulSteps_level d).pending.bind fun size _ hsize => ?_
    subst hsize
    exact couples_expressionsAlarmed alarm hd (size + 1)

end Calls

/-- All calls are made of steps that keep a coupling. -/
theorem Lawful.call {C : Coupling} (L : C.Lawful) (call : Parser.Call) :
    C.Couples Eq call.act call.act := by
  cases call with
  | expression => exact L.expression
  | isDone => exact L.isDone
  | assertDone => exact L.assertDone
  | expressions => exact L.expressions

/-- What all steps keep, every call keeps. -/
theorem Lawful.holds_call {holds : Parser → Prop} (L : (alone holds).Lawful) (hp : holds p)
    (call : Parser.Call) : holds (p.run call.act).2 :=
  (couples_alone_iff.1 (L.call call) p hp).2

end Coupling

/-! ## The place is kept -/

/-- The token that a scanner finds depends on its text and its place alone. -/
theorem Scanner.nextToken_fst_congr {s s' : Scanner} (hrest : s'.rest = s.rest)
    (hposition : s'.position = s.position) : s'.nextToken.1 = s.nextToken.1 := by
  -- Whether there is an end, a lexeme or a fault is decided by the text alone.
  obtain ⟨hnil, hnext⟩ | ⟨l, hl, hnext⟩ | ⟨c, cs, hcons, hl, hnext⟩ := s.nextToken_cases
  · rw [hnext, nextToken_of_nil (hrest.trans hnil), hposition]
  · rw [hnext, nextToken_of_scan? (hrest ▸ hl), hposition]
  · rw [hnext, nextToken_of_fault (hrest.trans hcons) (hrest ▸ hl), hposition]

namespace Parser

variable {source before : List Char} {p : Parser}

/-- The token looked at is the one that any scanner finds behind what was consumed. -/
def LooksAhead (p : Parser) : Prop :=
  ∀ token, p.lookahead = some token → ∀ s : Scanner, s.rest = p.text → s.position = p.last →
    s.nextToken.1 = .ok token

/-- The token that is looked at now is the one found behind what was consumed. -/
private theorem LooksAhead.peek (hlook : p.LooksAhead) (h : p.StandsAfter source before) :
    (p.run ParseM.peek).2.LooksAhead := by
  have hpeek := h.peek
  have htext : (p.run ParseM.peek).2.text = p.text :=
    List.append_cancel_left (hpeek.source_eq.trans h.source_eq.symm)
  have hlast : (p.run ParseM.peek).2.last = p.last := hpeek.last_eq.trans h.last_eq.symm
  intro token htoken s hrest hposition
  rw [htext] at hrest
  rw [hlast] at hposition
  rw [run_peek] at htoken
  cases hahead : p.lookahead with
  | some token' =>
    rw [hahead] at htoken
    exact hlook token htoken s hrest hposition
  | none =>
    -- The token comes from the scanner, which stands where the consumed text ends.
    have hscanner : p.scanner.rest = p.text ∧ p.scanner.position = p.last := by
      rw [h.position_eq, text, hahead]
      exact ⟨rfl, rfl⟩
    rw [Scanner.nextToken_fst_congr (hrest.trans hscanner.1.symm)
      (hposition.trans hscanner.2.symm)]
    rw [hahead] at htoken
    dsimp only at htoken
    cases hnext : p.scanner.nextToken with
    | mk outcome scanner =>
      rw [hnext] at htoken
      cases outcome with
      | ok token' => exact congrArg Except.ok (Option.some.inj htoken)
      | error fault => cases htoken

/-- All steps of reading keep to the places of the source text, and only add to what was
    consumed. -/
theorem lawful_keepsPlace (source before : List Char) :
    (Coupling.alone fun p => p.LooksAhead ∧
      ∃ after, p.StandsAfter source (before ++ after)).Lawful := by
  refine Coupling.lawful_alone ?_ ?_ ?_
  · rintro p ⟨hlook, after, h⟩
    exact ⟨hlook.peek h, after, h.peek⟩
  · rintro p token ⟨-, after, h⟩ -
    have hconsumed := h.consumed
    rw [List.append_assoc] at hconsumed
    exact ⟨nofun, _, hconsumed⟩
  · rintro p depth ⟨hlook, after, h⟩
    exact ⟨hlook, after, h.source_eq, h.last_eq, h.position_eq⟩

/-- Between two calls: no level is open, and at least the text `before` has been consumed. -/
structure Between (source before : List Char) (p : Parser) : Prop where
  depth_eq : p.depth = 0
  looksAhead : p.LooksAhead
  standsAfter : ∃ after, p.StandsAfter source (before ++ after)

/-- A new parser is between two calls. -/
private theorem between_ofSource (source : String) : (ofSource source).Between source.toList [] :=
  ⟨rfl, nofun, [], standsAfter_ofSource source⟩

/-- A call runs from one state between calls to another. -/
theorem Between.call (h : p.Between source before) (call : Call) :
    (p.run call.act).2.Between source before := by
  have hlevel := Coupling.couples_alarmed (pure ()) (Nat.zero_le maxNesting) call
  have hdepth := (Coupling.couples_alone_iff.1 hlevel p h.depth_eq).2
  obtain ⟨hlook, hstands⟩ :=
    (lawful_keepsPlace source before).holds_call ⟨h.looksAhead, h.standsAfter⟩ call
  exact ⟨hdepth, hlook, hstands⟩

/-- A parser stays between calls, whatever calls are made. -/
private theorem Between.afterCalls (h : p.Between source before) (calls : List Call) :
    (p.afterCalls calls).Between source before :=
  holds_afterCalls (Between source before) (fun _ call h => h.call call) h calls

/-- What holds between two calls of a parser that has consumed exactly the text `before`. -/
structure Sound (source before : List Char) (p : Parser) : Prop where
  /-- No level is open. -/
  depth_eq : p.depth = 0
  /-- The source is what was consumed, the token looked at, and what the scanner has not read. -/
  source_eq : before ++ p.lookahead.elim [] (·.lexeme.toList) ++ p.scanner.rest = source
  /-- The place remembered is the end of what was consumed. -/
  last_eq : p.last = .after before
  /-- The token looked at is the one that a scanner finds there. -/
  lookahead_eq : ∀ token, p.lookahead = some token → ∀ s : Scanner, before ++ s.rest = source →
    s.position = .after before → s.nextToken.1 = .ok token

/-- Between two calls, a parser is sound for the text that was consumed exactly. -/
private theorem Between.sound {after : List Char} (h : p.Between source before)
    (hstands : p.StandsAfter source (before ++ after)) : p.Sound source (before ++ after) where
  depth_eq := h.depth_eq
  source_eq := by
    rw [List.append_assoc _ _ p.scanner.rest]
    exact hstands.source_eq
  last_eq := by
    rw [hstands.last_eq, Position.advance_start]
  lookahead_eq := by
    intro token htoken s hrest hposition
    -- The token ahead was scanned from where the consumed text ends.
    refine h.looksAhead token htoken s ?_ ?_
    · exact List.append_cancel_left (hrest.trans hstands.source_eq.symm)
    · rw [hposition, hstands.last_eq, Position.advance_start]

/-- After any calls, failing ones included, no level is open; the source is what was consumed, the
    token looked at and what is left; the place remembered is the end of what was consumed; and the
    token looked at is the next one there. Further calls only add to what was consumed. During a
    call the counter of levels shows, at every moment, the levels opened and not yet closed, and
    never more than the limit: raising an alarm at any other moment changes nothing. -/
theorem calls_keep_parser_sound (source : String) (calls : List Call) :
    let p := (ofSource source).afterCalls calls
    (∃ before, p.Sound source.toList before ∧
      ∀ more, ∃ after, (p.afterCalls more).Sound source.toList (before ++ after)) ∧
    ∀ call alarm, p.run (Call.alarmed alarm call) = p.run call.act := by
  intro p
  have h : p.Between source.toList [] := (between_ofSource source).afterCalls calls
  obtain ⟨before, hbefore⟩ := h.standsAfter
  rw [List.nil_append] at hbefore
  refine ⟨⟨before, h.sound hbefore, fun more => ?_⟩, fun call alarm => ?_⟩
  · -- What is consumed now stays the start of what is consumed later.
    have hnow : p.Between source.toList before :=
      ⟨h.depth_eq, h.looksAhead, [], by rwa [List.append_nil]⟩
    have hlater := hnow.afterCalls more
    obtain ⟨after, hafter⟩ := hlater.standsAfter
    exact ⟨after, hlater.sound hafter⟩
  · have hlevel := Coupling.couples_alarmed alarm (Nat.zero_le maxNesting) call
    exact (Coupling.couples_alone_iff.1 hlevel p h.depth_eq).1

end Parser

end ScopeLisp
