/-!
# Types of values

The names under which a program sees the types of its values, and the words for what an operation
wanted instead.
-/

namespace ScopeLisp

/-- The type of a value, as programs see it. -/
inductive Tag where
  | list
  | boolean
  | number
  | string
  | symbol
  | quoted
  | builtin
  | specialForm
  | function
  /-- A user-defined form that expands to code. -/
  | expander
  | environment
deriving DecidableEq

/-- The name of a type. -/
def Tag.name : Tag → String
  | list => "list"
  | boolean => "boolean"
  | number => "number"
  | string => "string"
  | symbol => "symbol"
  | quoted => "quoted"
  | builtin => "builtin"
  | specialForm => "specialform"
  | function => "function"
  | expander => "macro"
  | environment => "environment"

/-- What an operation wanted a value to be. -/
inductive Expectation where
  | list
  | numberOrBoolean
  | string
  | symbol
  | parameterList
  | lambda
  | environment
deriving DecidableEq

/-- The words for what an operation wanted. -/
def Expectation.text : Expectation → String
  | list => "list"
  | numberOrBoolean => "number or boolean"
  | string => "string"
  | symbol => "symbol"
  | parameterList => "parameter list"
  | lambda => "function or macro"
  | environment => "environment"

end ScopeLisp
