import ScopeLisp.Proofs.Reading

/-!
# Two readings side by side

A `Coupling` relates the parsers of two readings and says where the second one finds what the first
one finds at a place. If looking at a token and consuming it keep parsers related
(`Coupling.LawfulSteps`), and so do opening and closing a level (`Coupling.Lawful`), then all steps
of reading do: both give the same data, or both find the same fault, each at its own place. A
statement about a single reading is one about that reading beside itself.

## Key results

- `Couples.bind`: steps in sequence
- `Coupling.Lawful.expression`, `Coupling.LawfulSteps.isDone`: the steps that a program is read with
-/

namespace ScopeLisp

open ParseM

/-! ## Places moved -/

/-- A token as it is found at another place. -/
def Token.moved (move : Position → Position) (token : Token) : Token :=
  { token with position := move token.position }

/-- A cause with the place that it names moved. -/
def SyntaxError.Cause.moved (move : Position → Position) : Cause → Cause
  | .unclosedList opened => .unclosedList (move opened)
  | cause => cause

/-- A fault with all places that it names moved. -/
def SyntaxError.moved (move : Position → Position) (fault : SyntaxError) : SyntaxError :=
  ⟨move fault.position, fault.cause.moved move⟩

private theorem SyntaxError.moved_id (fault : SyntaxError) : fault.moved id = fault := by
  obtain ⟨position, cause⟩ := fault
  cases cause <;> rfl

/-- The parser after its lookahead has been consumed. -/
def Parser.consumed (p : Parser) : Parser :=
  { p with lookahead := none, last := p.scanner.position }

/-! ## Outcomes that correspond -/

/-- What two readings have to do with each other. -/
structure Coupling where
  /-- Parsers that are related between two steps. -/
  parsers : Parser → Parser → Prop
  /-- Where the second reading finds what the first one finds at a place. -/
  move : Position → Position

namespace Coupling

variable (C : Coupling) {α β : Type}

/-- Tokens that correspond. -/
def tokens (token token' : Token) : Prop :=
  token' = token.moved C.move

/-- Outcomes that correspond. -/
inductive Outcomes (R : α → α → Prop) :
    Except SyntaxError α × Parser → Except SyntaxError α × Parser → Prop where
  | ok {a a' : α} {p p' : Parser} : R a a' → C.parsers p p' → Outcomes R (.ok a, p) (.ok a', p')
  | error {fault : SyntaxError} {p p' : Parser} : C.parsers p p' →
      Outcomes R (.error fault, p) (.error (fault.moved C.move), p')

/-- From related parsers, two steps lead to outcomes that correspond. -/
def Couples (R : α → α → Prop) (act act' : ParseM α) : Prop :=
  ∀ p p' : Parser, C.parsers p p' → C.Outcomes R (p.run act) (p'.run act')

/-- What single steps have to satisfy, as long as no level is opened or closed. -/
structure LawfulSteps : Prop where
  peek : C.Couples C.tokens ParseM.peek ParseM.peek
  consumed : ∀ {p p' : Parser} {token token' : Token}, C.parsers p p' →
    p.lookahead = some token → p'.lookahead = some token' → C.parsers p.consumed p'.consumed
  last_eq : ∀ {p p' : Parser}, C.parsers p p' → p'.last = C.move p.last
  length_eq : ∀ {p p' : Parser}, C.parsers p p' → p'.text.length = p.text.length

/-- What single steps have to satisfy. -/
structure Lawful : Prop extends C.LawfulSteps where
  nested : ∀ {p p' : Parser} (depth : Nat), C.parsers p p' →
    C.parsers { p with depth } { p' with depth }
  depth_eq : ∀ {p p' : Parser}, C.parsers p p' → p'.depth = p.depth

variable {C}

/-! ## Steps in sequence -/

/-- Results that correspond. -/
theorem Couples.pure {R : α → α → Prop} {a a' : α} (h : R a a') :
    C.Couples R (Pure.pure a) (Pure.pure a') :=
  fun _ _ hp => .ok h hp

/-- Steps in sequence correspond if the second ones do for all results that correspond. -/
theorem Couples.bind {R : α → α → Prop} {S : β → β → Prop} {act act' : ParseM α}
    {f f' : α → ParseM β} (h : C.Couples R act act')
    (hf : ∀ a a', R a a' → C.Couples S (f a) (f' a')) :
    C.Couples S (act >>= f) (act' >>= f') := by
  intro p p' hp
  rw [Parser.run_bind, Parser.run_bind]
  have hout := h p p' hp
  generalize p.run act = r, p'.run act' = r' at hout
  cases hout with
  | ok ha hp₁ => exact hf _ _ ha _ _ hp₁
  -- The second steps do not run, and the faults correspond already.
  | error hp₁ => exact .error hp₁

/-- Two steps that give the same fault, each at its own place, correspond. -/
private theorem Couples.failAt {R : α → α → Prop} (position : Position)
    (cause : SyntaxError.Cause) :
    C.Couples R (ParseM.failAt position cause)
      (ParseM.failAt (C.move position) (cause.moved C.move)) :=
  fun _ _ hp => .error hp

/-- Two readings that decide alike. -/
theorem Couples.ite {R : α → α → Prop} {c c' : Prop} [Decidable c] [Decidable c'] (hc : c' ↔ c)
    {act act' other other' : ParseM α} (h : C.Couples R act act')
    (hother : C.Couples R other other') :
    C.Couples R (if c then act else other) (if c' then act' else other') := by
  by_cases hpos : c
  · rw [if_pos hpos, if_pos (hc.2 hpos)]
    exact h
  · rw [if_neg hpos, if_neg (mt hc.1 hpos)]
    exact hother

namespace LawfulSteps

variable (L : C.LawfulSteps)

include L

/-- Two steps that give the same fault, at the end of what each has consumed, correspond. -/
private theorem failAtLast {R : α → α → Prop} (cause : SyntaxError.Cause) :
    C.Couples R (ParseM.failAtLast cause) (ParseM.failAtLast (cause.moved C.move)) := by
  intro p p' hp
  rw [Parser.run_failAtLast, Parser.run_failAtLast, L.last_eq hp]
  exact .error hp

/-! ## Tokens and white space -/

/-- Consuming the next token. -/
private theorem advance : C.Couples C.tokens ParseM.advance ParseM.advance := by
  intro p p' hp
  have hout := L.peek p p' hp
  generalize hr : p.run ParseM.peek = r at hout
  generalize hr' : p'.run ParseM.peek = r' at hout
  cases hout with
  | ok htoken hq =>
    rw [run_advance_of_peek hr, run_advance_of_peek hr']
    exact .ok htoken (L.consumed hq (lookahead_of_peek hr) (lookahead_of_peek hr'))
  -- Without a token nothing is consumed.
  | error hq =>
    unfold ParseM.advance
    rw [Parser.run_bind, Parser.run_bind, hr, hr']
    exact .error hq

/-- Skipping white space. -/
theorem skipBlank : C.Couples Eq ParseM.skipBlank ParseM.skipBlank := by
  refine L.peek.bind fun token token' htoken => ?_
  subst htoken
  exact .ite Iff.rfl (L.advance.bind fun _ _ _ => .pure rfl) (.pure rfl)

/-- Counting the characters not consumed: both readings have as many left. -/
theorem pending : C.Couples Eq ParseM.pending ParseM.pending := by
  intro p p' hp
  rw [run_pending, run_pending, L.length_eq hp]
  exact .ok rfl hp

/-- Consuming a token and then going on without it. -/
theorem advance_then {R : α → α → Prop} {act act' : ParseM α} (h : C.Couples R act act') :
    C.Couples R (do let _ ← ParseM.advance; act) (do let _ ← ParseM.advance; act') :=
  L.advance.bind fun _ _ _ => h

/-! ## Expressions -/

variable {inner inner' : ParseM Datum}

/-- The further elements of a list. -/
private theorem elements (h : C.Couples Eq inner inner') (opened : Position) (fuel : Nat) :
    C.Couples Eq (ParseM.elements inner opened fuel)
      (ParseM.elements inner' (C.move opened) fuel) := by
  -- Both readings spend one unit of fuel on each element.
  induction fuel with
  | zero => exact L.failAtLast (.unclosedList opened)
  | succ fuel ih =>
    unfold ParseM.elements
    refine L.skipBlank.bind fun separated _ hsep => ?_
    subst hsep
    refine L.peek.bind fun token token' htoken => ?_
    subst htoken
    simp only [Token.moved]
    split
    -- A closing parenthesis, the end of input, or an element if white space was skipped.
    · exact L.advance_then (.pure rfl)
    · exact L.failAtLast (.unclosedList opened)
    · split
      · refine h.bind fun item _ hitem => ?_
        subst hitem
        refine ih.bind fun items _ hitems => ?_
        subst hitems
        exact .pure rfl
      · exact .failAt token.position (.missingSpace _)

/-- A list, from its opening parenthesis on. -/
theorem list (h : C.Couples Eq inner inner') :
    C.Couples Eq (ParseM.list inner) (ParseM.list inner') := by
  unfold ParseM.list
  refine L.advance.bind fun opened opened' hopened => ?_
  subst hopened
  refine L.skipBlank.bind fun _ _ _ => ?_
  refine L.peek.bind fun token token' htoken => ?_
  subst htoken
  -- Either the list is closed at once, or it has a first element.
  refine .ite Iff.rfl (L.advance_then (.pure rfl)) ?_
  refine h.bind fun first _ hfirst => ?_
  subst hfirst
  refine L.pending.bind fun fuel _ hfuel => ?_
  subst hfuel
  refine (L.elements h opened.position (fuel + 1)).bind fun rest _ hrest => ?_
  subst hrest
  exact .pure rfl

/-- The question whether only white space is left. -/
theorem isDone : C.Couples Eq ParseM.isDone ParseM.isDone := by
  refine L.skipBlank.bind fun _ _ _ => ?_
  refine L.peek.bind fun token token' htoken => ?_
  subst htoken
  exact .pure rfl

/-- The demand that only white space is left. -/
theorem assertDone : C.Couples Eq ParseM.assertDone ParseM.assertDone := by
  refine L.isDone.bind fun done _ hdone => ?_
  subst hdone
  refine .ite Iff.rfl (.pure rfl) ?_
  refine L.peek.bind fun token token' htoken => ?_
  subst htoken
  exact .failAt token.position (.trailingInput token.kind)

end LawfulSteps

/-! ## Levels -/

namespace Lawful

variable (L : C.Lawful)

include L

/-- A step one level deeper: both counters go up and come down alike. -/
private theorem inNested {R : α → α → Prop} {act act' : ParseM α} (h : C.Couples R act act') :
    C.Couples R (ParseM.nested act) (ParseM.nested act') := by
  intro p p' hp
  rw [Parser.run_nested, Parser.run_nested, L.depth_eq hp]
  have hout := h _ _ (L.nested (p.depth + 1) hp)
  revert hout
  generalize ({ p with depth := p.depth + 1 } : Parser).run act = r,
    ({ p' with depth := p.depth + 1 } : Parser).run act' = r'
  intro hout
  -- Both come back up from the same level, with a result or a fault.
  cases hout with
  | @ok a a' q q' ha hq =>
    dsimp only
    rw [L.depth_eq hq]
    exact .ok ha (L.nested (q.depth - 1) hq)
  | @error fault q q' hq =>
    dsimp only
    rw [L.depth_eq hq]
    exact .error (L.nested (q.depth - 1) hq)

/-- One level deeper, or the fault that there is none. -/
private theorem descend {inner : Option (ParseM Datum)} {body : ParseM Datum → ParseM Datum}
    (h : ∀ act, inner = some act → C.Couples Eq (body act) (body act)) (token : Token) :
    C.Couples Eq (ParseM.descend token inner body)
      (ParseM.descend (token.moved C.move) inner body) := by
  unfold ParseM.descend
  split
  · exact .failAt token.position .tooDeep
  · next act => exact L.inNested (h act rfl)

/-- An expression, if those one level deeper are read alike. -/
private theorem form {inner : Option (ParseM Datum)}
    (h : ∀ act, inner = some act → C.Couples Eq act act) :
    C.Couples Eq (ParseM.form inner) (ParseM.form inner) := by
  unfold ParseM.form
  refine L.skipBlank.bind fun _ _ _ => ?_
  refine L.peek.bind fun token token' htoken => ?_
  subst htoken
  -- Both tokens are of the same kind, so both readings take the same branch.
  have hkind : (token.moved C.move).kind = token.kind := rfl
  rw [hkind]
  split
  -- A quote, the atoms, a list, and then the faults.
  · refine L.descend (fun act hact => ?_) token
    exact L.advance_then ((h act hact).bind fun d _ hd => .pure (by rw [hd]))
  · exact L.advance_then (.pure rfl)
  · exact L.advance_then (.pure rfl)
  · exact L.advance_then (.pure rfl)
  · exact L.descend (fun act hact => L.list (h act hact)) token
  · exact .failAt token.position .unmatchedClose
  · exact L.failAtLast .unexpectedEnd
  · exact .failAt token.position .unexpectedBlank

/-- An expression with any room for levels. -/
private theorem expressionWithin (room : Nat) :
    C.Couples Eq (ParseM.expressionWithin room) (ParseM.expressionWithin room) := by
  induction room with
  | zero => exact L.form nofun
  | succ room ih =>
    refine L.form fun act hact => ?_
    obtain rfl := Option.some.inj hact
    exact ih

/-- The next expression: both readings have as much room. -/
theorem expression : C.Couples Eq ParseM.expression ParseM.expression := by
  intro p p' hp
  unfold ParseM.expression
  rw [Parser.run_bind, Parser.run_bind, Parser.run_get, Parser.run_get]
  dsimp only
  rw [L.depth_eq hp]
  exact L.expressionWithin _ p p' hp

/-- Expressions to the end of the text. -/
private theorem expressionsUpTo (fuel : Nat) :
    C.Couples Eq (ParseM.expressionsUpTo fuel) (ParseM.expressionsUpTo fuel) := by
  -- Both ask whether the text is done; if not, they read an expression and go on.
  induction fuel with
  | zero => exact .pure rfl
  | succ fuel ih =>
    refine L.isDone.bind fun done _ hdone => ?_
    subst hdone
    refine .ite Iff.rfl (.pure rfl) ?_
    refine L.expression.bind fun datum _ hdatum => ?_
    subst hdatum
    refine ih.bind fun data _ hdata => ?_
    subst hdata
    exact .pure rfl

/-- All expressions that are left. -/
theorem expressions : C.Couples Eq ParseM.expressions ParseM.expressions := by
  refine L.pending.bind fun size _ hsize => ?_
  subst hsize
  exact L.expressionsUpTo (size + 1)

end Lawful

/-! ## A single reading -/

/-- A reading beside itself, along which something holds between two steps. -/
def alone (holds : Parser → Prop) : Coupling where
  parsers p p' := p' = p ∧ holds p
  move := id

/-- An outcome corresponds to itself. -/
theorem outcomes_alone {holds : Parser → Prop} {R : α → α → Prop} (hR : ∀ a, R a a)
    {r : Except SyntaxError α × Parser} (h : holds r.2) : (alone holds).Outcomes R r r := by
  obtain ⟨outcome, q⟩ := r
  cases outcome with
  | ok a => exact .ok (hR a) ⟨rfl, h⟩
  | error fault =>
    have hout : (alone holds).Outcomes R (.error fault, q) (.error (fault.moved id), q) :=
      .error ⟨rfl, h⟩
    rw [fault.moved_id] at hout
    exact hout

/-- What looking at a token and consuming it keep is kept along a single reading. -/
theorem lawfulSteps_alone {holds : Parser → Prop}
    (hpeek : ∀ p, holds p → holds (p.run ParseM.peek).2)
    (hconsumed : ∀ p token, holds p → p.lookahead = some token → holds p.consumed) :
    (alone holds).LawfulSteps where
  peek := by
    rintro p p' ⟨rfl, hp⟩
    have htoken : ∀ token : Token, (alone holds).tokens token token := fun _ => rfl
    exact outcomes_alone htoken (hpeek p' hp)
  consumed := by
    rintro p p' token token' ⟨rfl, hp⟩ hlook -
    exact ⟨rfl, hconsumed p' token hp hlook⟩
  last_eq h := h.1 ▸ rfl
  length_eq h := h.1 ▸ rfl

/-- What looking ahead, consuming and the change of levels keep is lawful for a parser alone. -/
theorem lawful_alone {holds : Parser → Prop} (hpeek : ∀ p, holds p → holds (p.run ParseM.peek).2)
    (hconsumed : ∀ p token, holds p → p.lookahead = some token → holds p.consumed)
    (hnested : ∀ p depth, holds p → holds { p with depth }) : (alone holds).Lawful where
  toLawfulSteps := lawfulSteps_alone hpeek hconsumed
  nested := by
    rintro p p' depth ⟨rfl, hp⟩
    exact ⟨rfl, hnested p' depth hp⟩
  depth_eq h := h.1 ▸ rfl

/-- Along a single reading, two steps correspond if they run alike and keep what holds. -/
theorem couples_alone_iff {holds : Parser → Prop} {act act' : ParseM α} :
    (alone holds).Couples Eq act act' ↔
      ∀ p, holds p → p.run act' = p.run act ∧ holds (p.run act).2 := by
  constructor
  · intro h p hp
    have hout := h p p ⟨rfl, hp⟩
    generalize p.run act = r, p.run act' = r' at hout
    cases hout with
    | ok ha hq =>
      obtain ⟨rfl, hq⟩ := hq
      exact ⟨by rw [ha], hq⟩
    -- A fault that is not moved is the same fault.
    | @error fault q q' hq =>
      obtain ⟨rfl, hq⟩ := hq
      have hfault : fault.moved (alone holds).move = fault := fault.moved_id
      exact ⟨by rw [hfault], hq⟩
  · rintro h p p' ⟨rfl, hp⟩
    obtain ⟨heq, hkeeps⟩ := h p' hp
    rw [heq]
    exact outcomes_alone (fun _ => rfl) hkeeps

end Coupling

end ScopeLisp
