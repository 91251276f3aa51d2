import ScopeLisp.Lexeme
import ScopeLisp.SyntaxError

/-!
# Scanners

A scanner stands at a place in a source text and takes tokens off it one at a time. The end of the
text is a token of its own. Once that token or a fault has come up the scanner is finished: it
gives no more tokens to a caller that asks for the next one (`Scanner.next`), though
`Scanner.nextToken` keeps repeating the last outcome.
-/

namespace ScopeLisp

/-- A place in a source text, with the text after it. -/
structure Scanner where
  rest : List Char
  position : Position
  /-- The end of the text or a fault has come up. -/
  finished : Bool

namespace Scanner

/-- A scanner at the start of a text. -/
def ofSource (source : String) : Scanner :=
  ⟨source.toList, .start, false⟩

/-- Why no lexeme starts here. -/
def faultAt (c : Char) : SyntaxError.Cause :=
  if c = '"' then .unterminatedString else .unexpectedCharacter c

/-- The token at the scanner's place, whether the scanner is finished or not. -/
def nextToken (s : Scanner) : Except SyntaxError Token × Scanner :=
  match s.rest with
  | [] => (.ok ⟨.endOfInput, "", s.position⟩, { s with finished := true })
  | c :: _ =>
    match Lexeme.scan? s.rest with
    | some l =>
      (.ok ⟨l.kind, String.ofList l.text, s.position⟩,
        { s with rest := l.rest, position := s.position.advance l.text })
    | none => (.error ⟨s.position, faultAt c⟩, { s with finished := true })

/-- The next token of a scanner that is not finished. -/
def next (s : Scanner) : Option (Except SyntaxError Token) × Scanner :=
  if s.finished then (none, s)
  else
    let (outcome, s) := s.nextToken
    (some outcome, s)

/-- What is left of a scan: its tokens, the fault that ends them, if any, and the scanner
    afterwards. -/
structure Remainder where
  tokens : List Token
  fault : Option SyntaxError
  scanner : Scanner

/-- Takes at most `fuel` tokens, up to the end or the first fault. -/
def takeUpTo : Nat → Scanner → Remainder
  | 0, s => ⟨[], none, s⟩
  | fuel + 1, s =>
    match s.next with
    | (none, s) => ⟨[], none, s⟩
    | (some (.error e), s) => ⟨[], some e, s⟩
    | (some (.ok token), s) =>
      let r := takeUpTo fuel s
      { r with tokens := token :: r.tokens }

/-- All that is left. A token other than the end takes at least one character, so the fuel lasts
    until the scanner is finished. -/
def remainder (s : Scanner) : Remainder :=
  takeUpTo (s.rest.length + 2) s

/-- All tokens that are left, the end of input last. -/
def scanTokens (s : Scanner) : Except SyntaxError (List Token) × Scanner :=
  let r := s.remainder
  (match r.fault with
    | none => .ok r.tokens
    | some e => .error e, r.scanner)

/-- A token other than the end makes the rest of the text shorter. -/
theorem length_rest_nextToken_lt {s t : Scanner} {token : Token}
    (h : s.nextToken = (.ok token, t)) (hend : token.kind ≠ .endOfInput) :
    t.rest.length < s.rest.length := by
  unfold nextToken at h
  split at h
  · simp only [Prod.mk.injEq, Except.ok.injEq] at h
    exact absurd (by rw [← h.1]) hend
  · split at h
    · next l hl =>
      -- What was taken off is not empty, so the rest is shorter by at least one character.
      obtain ⟨happ, hne⟩ := Lexeme.splits_of_scan? hl
      simp only [Prod.mk.injEq] at h
      obtain ⟨-, rfl⟩ := h
      have := List.length_pos_iff.2 hne
      rw [← happ, List.length_append]
      dsimp only
      omega
    · simp at h

end Scanner

end ScopeLisp
