import ScopeLisp.Datum
import ScopeLisp.Scanner

/-!
# Parsers

A parser reads one datum after another off a source text, with one token of lookahead, so that a
caller can evaluate a datum before the next one is read. It stays usable after a fault: a token
that was looked at and not consumed is looked at again.

Nesting of lists and quotes is bounded by `maxNesting`. The bound is also what the recursion runs
on: `ParseM.expressionWithin room` may open `room` more levels.
-/

namespace ScopeLisp

/-- The state of reading a source text. -/
structure Parser where
  scanner : Scanner
  /-- The token looked at and not yet consumed. -/
  lookahead : Option Token
  /-- Lists and quotes that are open. -/
  depth : Nat
  /-- The end of the last token consumed. -/
  last : Position

/-- A step of reading that may find a fault. -/
abbrev ParseM := ExceptT SyntaxError (StateM Parser)

namespace ParseM

/-- Reports a fault at a place. -/
def failAt {α : Type} (position : Position) (cause : SyntaxError.Cause) : ParseM α :=
  throw ⟨position, cause⟩

/-- Reports a fault at the end of what was consumed. -/
def failAtLast {α : Type} (cause : SyntaxError.Cause) : ParseM α := do
  failAt (← get).last cause

/-- The next token, left where it is. -/
def peek : ParseM Token := do
  let p ← get
  match p.lookahead with
  | some token => return token
  | none =>
    match p.scanner.nextToken with
    | (.ok token, scanner) =>
      set { p with scanner, lookahead := some token }
      return token
    | (.error fault, scanner) =>
      set { p with scanner }
      throw fault

/-- Consumes the next token. -/
def advance : ParseM Token := do
  let token ← peek
  modify fun p => { p with lookahead := none, last := p.scanner.position }
  return token

/-- Consumes the next token if it is blank, and says whether it was. Blank tokens never follow each
    other, so one is enough. -/
def skipBlank : ParseM Bool := do
  if (← peek).kind = .blank then
    let _ ← advance
    return true
  else
    return false

/-- Runs a step one level deeper, and comes back up whether it succeeds or not. -/
def nested {α : Type} (act : ParseM α) : ParseM α := ExceptT.mk do
  modify fun p => { p with depth := p.depth + 1 }
  let outcome ← act.run
  modify fun p => { p with depth := p.depth - 1 }
  return outcome

/-- The elements of a list after its first, up to the closing parenthesis. Each one takes at least
    the white space before it, so fuel beyond the length of the text does not run out. -/
def elements (inner : ParseM Datum) (opened : Position) : (fuel : Nat) → ParseM (List Datum)
  | 0 => failAtLast (.unclosedList opened)
  | fuel + 1 => do
    let separated ← skipBlank
    let token ← peek
    match token.kind with
    | .rightParen =>
      let _ ← advance
      return []
    | .endOfInput => failAtLast (.unclosedList opened)
    | kind =>
      if separated then
        let item ← inner
        let items ← elements inner opened fuel
        return item :: items
      else
        -- The element runs into the one before it.
        failAt token.position (.missingSpace kind)

/-- The number of characters not consumed. -/
def pending : ParseM Nat := do
  let p ← get
  return (p.lookahead.elim 0 (·.lexeme.length)) + p.scanner.rest.length

/-- A list, from its opening parenthesis on, with a step for its elements. -/
def list (inner : ParseM Datum) : ParseM Datum := do
  let opened ← advance
  let _ ← skipBlank
  if (← peek).kind = .rightParen then
    let _ ← advance
    return .nil
  else
    let first ← inner
    -- Counted behind the first element, where the others start.
    let fuel ← pending
    let rest ← elements inner opened.position (fuel + 1)
    return .ofList (first :: rest)

/-- Runs a step on the expressions one level deeper; without such a level the nesting is too
    deep at the token. -/
def descend (token : Token) (inner : Option (ParseM Datum))
    (body : ParseM Datum → ParseM Datum) : ParseM Datum :=
  match inner with
  | none => failAt token.position .tooDeep
  | some inner => nested (body inner)

/-- An expression, with a step for the expressions one level deeper, if one may be opened. -/
def form (inner : Option (ParseM Datum)) : ParseM Datum := do
  let _ ← skipBlank
  let token ← peek
  match token.kind with
  | .quote => descend token inner fun inner => do
    let _ ← advance
    return .quoted (← inner)
  | .number x =>
    let _ ← advance
    return .number x
  | .string text =>
    let _ ← advance
    return .string text
  | .symbol name =>
    let _ ← advance
    return .symbol name
  | .leftParen => descend token inner list
  | .rightParen => failAt token.position .unmatchedClose
  | .endOfInput => failAtLast .unexpectedEnd
  | .blank => failAt token.position .unexpectedBlank

/-- An expression that may open `room` levels. -/
def expressionWithin : (room : Nat) → ParseM Datum
  | 0 => form none
  | room + 1 => form (some (expressionWithin room))

/-- The next expression, after any white space. -/
def expression : ParseM Datum := do
  expressionWithin (maxNesting - (← get).depth)

/-- Whether only white space is left. -/
def isDone : ParseM Bool := do
  let _ ← skipBlank
  return (← peek).kind = .endOfInput

/-- Demands that only white space is left. -/
def assertDone : ParseM Unit := do
  unless ← isDone do
    let token ← peek
    failAt token.position (.trailingInput token.kind)

/-- The next expression, which must be the last. -/
def single : ParseM Datum := do
  let datum ← expression
  assertDone
  return datum

/-- At most `fuel` expressions, up to the end of the text. -/
def expressionsUpTo : (fuel : Nat) → ParseM (List Datum)
  | 0 => return []
  | fuel + 1 => do
    if ← isDone then
      return []
    else
      let datum ← expression
      let data ← expressionsUpTo fuel
      return datum :: data

/-- All expressions that are left. Each one takes at least one character. -/
def expressions : ParseM (List Datum) := do
  expressionsUpTo ((← pending) + 1)

end ParseM

namespace Parser

/-- A parser at the start of a text. -/
def ofSource (source : String) : Parser :=
  ⟨.ofSource source, none, 0, .start⟩

/-- Runs a step of reading. -/
def run {α : Type} (p : Parser) (act : ParseM α) : Except SyntaxError α × Parser :=
  StateT.run (ExceptT.run act) p

/-! ## What each step does to a parser -/

variable {α β : Type} (p : Parser)

/-- A result leaves the parser alone. -/
@[simp] theorem run_pure (a : α) : p.run (pure a) = (.ok a, p) := rfl

/-- A fault leaves the parser alone. -/
@[simp] theorem run_throw (e : SyntaxError) : p.run (throw e : ParseM α) = (.error e, p) := rfl

/-- Looking at the parser leaves it alone. -/
@[simp] theorem run_get : p.run get = (.ok p, p) := rfl

/-- A fault is reported at the place that is given. -/
@[simp] theorem run_failAt (position : Position) (cause : SyntaxError.Cause) :
    p.run (ParseM.failAt position cause : ParseM α) = (.error ⟨position, cause⟩, p) := rfl

/-- A fault is reported at the end of what was consumed. -/
@[simp] theorem run_failAtLast (cause : SyntaxError.Cause) :
    p.run (ParseM.failAtLast cause : ParseM α) = (.error ⟨p.last, cause⟩, p) := rfl

/-- The second of two steps runs on the parser that the first leaves, unless that found a fault. -/
theorem run_bind (act : ParseM α) (next : α → ParseM β) :
    p.run (act >>= next) =
      match p.run act with
      | (.ok a, p') => p'.run (next a)
      | (.error e, p') => (.error e, p') := by
  unfold Parser.run ExceptT.run StateT.run
  simp only [bind, ExceptT.bind, ExceptT.mk, StateT.bind, ExceptT.bindCont]
  cases act p with
  | mk outcome p' => cases outcome <;> rfl

/-- A nested step runs one level deeper and comes back up, whatever its outcome. -/
theorem run_nested (act : ParseM α) :
    p.run (ParseM.nested act) =
      let (outcome, p') := { p with depth := p.depth + 1 }.run act
      (outcome, { p' with depth := p'.depth - 1 }) := rfl

/-- Looking at the next token scans it if it was not looked at before. -/
theorem run_peek :
    p.run ParseM.peek =
      match p.lookahead with
      | some token => (.ok token, p)
      | none =>
        match p.scanner.nextToken with
        | (.ok token, scanner) => (.ok token, { p with scanner, lookahead := some token })
        | (.error fault, scanner) => (.error fault, { p with scanner }) := by
  unfold ParseM.peek
  rw [run_bind, run_get]
  dsimp only
  -- A token that was looked at is kept; only without one the scanner moves.
  cases p.lookahead with
  | some token => rfl
  | none =>
    dsimp only
    cases p.scanner.nextToken with
    | mk outcome scanner => cases outcome <;> rfl

end Parser

/-- All data of a source text. -/
def parseAll (source : String) : Except SyntaxError (List Datum) :=
  ((Parser.ofSource source).run ParseM.expressions).1

/-- The one datum of a source text. -/
def parseSingle (source : String) : Except SyntaxError Datum :=
  ((Parser.ofSource source).run ParseM.single).1

end ScopeLisp
