import ScopeLisp.Text.Extender
import ScopeLisp.Text.Invisible

/-!
# Quoted text in diagnostics

A text between double quotes. The quote, the backslash, and every character that would not be seen
for what it is are escaped, so that a diagnostic stays on one line and shows all that it holds.
-/

namespace ScopeLisp.Text

/-- The hexadecimal digits of a number, in lower case. -/
def hexadecimal (n : Nat) : String :=
  String.ofList (Nat.toDigits 16 n)

/-- One character of a quoted text. -/
def escaped (c : Char) : String :=
  if c = '\t' then "\\t"
  else if c = '\r' then "\\r"
  else if c = '\n' then "\\n"
  else if c = '\\' then "\\\\"
  else if c = '"' then "\\\""
  else if c.toNat = 0 then "\\0"
  else if isExtender c || isInvisible c then "\\u\x7b" ++ hexadecimal c.toNat ++ "\x7d"
  else c.toString

/-- A text between double quotes, escaped. -/
def quoted (text : String) : String :=
  "\"" ++ String.join (text.toList.map escaped) ++ "\""

end ScopeLisp.Text
