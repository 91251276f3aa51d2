import ScopeLisp.Token

/-!
# Faults in a source text

A fault is a cause at a place. Its wording is `SyntaxError.reason`.
-/

namespace ScopeLisp

/-- The deepest nesting of lists and quotes that a source text may have. -/
def maxNesting : Nat := 256

/-- What is wrong with a source text. -/
inductive SyntaxError.Cause where
  /-- A string that is opened here is never closed. -/
  | unterminatedString
  /-- No lexeme starts with this character. -/
  | unexpectedCharacter (c : Char)
  /-- An expression was expected and the text ends. -/
  | unexpectedEnd
  /-- A list is closed that is not open. -/
  | unmatchedClose
  /-- The text ends inside the list opened at a place. -/
  | unclosedList (opened : Position)
  /-- A list element is not set off from the one before it. -/
  | missingSpace (found : Token.Kind)
  /-- The text goes on after the expression that it should hold. -/
  | trailingInput (found : Token.Kind)
  /-- Lists and quotes are nested too deeply. -/
  | tooDeep
  /-- White space stands where it was already skipped. -/
  | unexpectedBlank
deriving DecidableEq

/-- A fault at a place in a source text. -/
structure SyntaxError where
  position : Position
  cause : SyntaxError.Cause
deriving DecidableEq

/-- The wording of a fault, without its place. -/
def SyntaxError.reason (e : SyntaxError) : String :=
  match e.cause with
  | .unterminatedString => "Unterminated string starting at " ++ e.position.text
  | .unexpectedCharacter c => "Unexpected character '" ++ c.toString ++ "'"
  | .unexpectedEnd => "Unexpected end of input"
  | .unmatchedClose => "Unexpected `)` without matching `(`"
  | .unclosedList opened => "Unclosed `(` opened at " ++ opened.text
  | .missingSpace found => "Expected whitespace between list elements, found " ++ found.text
  | .trailingInput found => "Expected end of input, found " ++ found.text
  | .tooDeep => "Expression too deeply nested (max depth: " ++ maxNesting.repr ++ ")"
  | .unexpectedBlank => "Expected expression, found whitespace"

end ScopeLisp
