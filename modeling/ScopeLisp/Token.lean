import ScopeLisp.Position
import ScopeLisp.Double.Text

/-!
# Tokens

A source text is a sequence of tokens: atoms (strings, numbers, symbols), the marks `(`, `)` and
`'`, runs of white space and line comments, and the end of input.
-/

namespace ScopeLisp

/-- What a token is, with the value that an atom carries. -/
inductive Token.Kind where
  /-- A string literal; the text between its quotes. -/
  | string (text : String)
  /-- A number literal. -/
  | number (value : Double)
  /-- A name. -/
  | symbol (name : String)
  | leftParen
  | rightParen
  | quote
  /-- A run of white space and line comments. -/
  | blank
  | endOfInput
deriving DecidableEq

/-- A token with its text and the place where it starts. -/
structure Token where
  kind : Token.Kind
  lexeme : String
  position : Position
deriving DecidableEq

namespace Token.Kind

/-- The name of the class of a token. -/
def describe : Kind → String
  | string _ => "string"
  | number _ => "number"
  | symbol _ => "symbol"
  | leftParen => "`(`"
  | rightParen => "`)`"
  | quote => "`'`"
  | blank => "whitespace"
  | endOfInput => "end of input"

/-- Whether a token is an expression on its own. -/
def isAtom : Kind → Bool
  | string _ | number _ | symbol _ => true
  | _ => false

/-- A token as messages show it: an atom by its value, any other token by its class. -/
def text : Kind → String
  | string s => "\"" ++ s ++ "\""
  | number x => x.text "inf"
  | symbol name => name
  | kind => kind.describe

end Token.Kind

end ScopeLisp
