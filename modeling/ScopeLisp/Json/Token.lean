import ScopeLisp.Json.Number
import ScopeLisp.Json.Reader
import ScopeLisp.Text.Quoted
import ScopeLisp.Token

/-!
# Tokens as JSON

A token is an object of its kind, lexeme, line and column, in this order when it is written. A kind
without a value is a string, a kind with one an object with one member. When it is read the
members may come in any order, other members are ignored, the four parts may also stand in
an array, and a kind without a value may also be an object with one member that is `null`.
-/

namespace ScopeLisp.Json

/-! ## Writing -/

/-- One character of a string. -/
def escaped (c : Char) : String :=
  match c with
  | '"' => "\\\""
  | '\\' => "\\\\"
  | '\n' => "\\n"
  | '\r' => "\\r"
  | '\t' => "\\t"
  | c =>
    if c.toNat = 0x08 then "\\b"
    else if c.toNat = 0x0C then "\\f"
    else if c.toNat < 0x10 then "\\u000" ++ Text.hexadecimal c.toNat
    else if c.toNat < 0x20 then "\\u00" ++ Text.hexadecimal c.toNat
    else c.toString

/-- The text of a string. -/
def stringText (s : String) : String :=
  "\"" ++ String.join (s.toList.map escaped) ++ "\""

/-- The text of an object, from the texts of its members. -/
def objectText (members : List (String × String)) : String :=
  "\x7b" ++ ",".intercalate (members.map fun (key, text) => stringText key ++ ":" ++ text) ++
    "\x7d"

/-- The text of the kind of a token. -/
def kindText : Token.Kind → String
  | .string text => objectText [("String", stringText text)]
  | .number x => objectText [("Number", numberText x)]
  | .symbol name => objectText [("Symbol", stringText name)]
  | .leftParen => stringText "LeftParen"
  | .rightParen => stringText "RightParen"
  | .quote => stringText "Quote"
  | .blank => stringText "Whitespace"
  | .endOfInput => stringText "Eof"

/-- The text of a token, on one line. -/
def tokenText (t : Token) : String :=
  objectText
    [("kind", kindText t.kind), ("lexeme", stringText t.lexeme),
     ("line", t.position.line.repr), ("column", t.position.column.repr)]

/-! ## Reading -/

/-- The kinds without a value, by name. -/
def plainKind? : String → Option Token.Kind
  | "LeftParen" => some .leftParen
  | "RightParen" => some .rightParen
  | "Quote" => some .quote
  | "Whitespace" => some .blank
  | "Eof" => some .endOfInput
  | _ => none

/-- The kind of a token. -/
def kind? : Tree → Option Token.Kind
  | .string (some name) => plainKind? name
  | .object [(some "String", .string (some text))] => some (.string text)
  | .object [(some "Symbol", .string (some name))] => some (.symbol name)
  | .object [(some "Number", .number n)] => .number <$> n.toDouble?
  | .object [(some name, .null)] => plainKind? name
  | _ => none

/-- A text. -/
def text? : Tree → Option String
  | .string text => text
  | _ => none

/-- A line or a column. -/
def word? : Tree → Option Nat
  | .number n => n.toWord?
  | _ => none

/-- A token from its four parts. -/
def ofParts? (kind lexeme line column : Tree) : Option Token := do
  return ⟨← kind? kind, ← text? lexeme, ⟨← word? line, ← word? column⟩⟩

/-- The one member of a name. -/
def member? (members : List (Option String × Tree)) (name : String) : Option Tree :=
  match members.filter (·.1 = some name) with
  | [(_, item)] => some item
  | _ => none

/-- A token from a tree. -/
def ofTree? : Tree → Option Token
  | .array [kind, lexeme, line, column] => ofParts? kind lexeme line column
  | .object members =>
    if members.all (·.1.isSome) then do
      ofParts? (← member? members "kind") (← member? members "lexeme")
        (← member? members "line") (← member? members "column")
    else none
  | _ => none

/-- The token in a JSON text. -/
def readToken (text : String) : Option Token := do
  ofTree? (← read text)

end ScopeLisp.Json
