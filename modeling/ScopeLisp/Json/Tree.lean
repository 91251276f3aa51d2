/-!
# JSON texts as trees

A JSON text, read without interpreting its numbers. A string may spell a lone surrogate, which is
no text; such a string is kept as `none` and fails only where its text is needed.
-/

namespace ScopeLisp.Json

/-- A number as it was written. -/
structure Numeral where
  negative : Bool
  /-- Digits before the point. -/
  whole : List Char
  /-- Digits after the point, if there is a point. -/
  fraction : Option (List Char)
  /-- Whether the exponent is negative, and its digits, if there is an exponent. -/
  exponent : Option (Bool × List Char)

/-- A JSON value. -/
inductive Tree where
  | null
  | bool (b : Bool)
  | number (n : Numeral)
  | string (text : Option String)
  | array (items : List Tree)
  | object (members : List (Option String × Tree))

end ScopeLisp.Json
