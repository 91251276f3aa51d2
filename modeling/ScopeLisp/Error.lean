import ScopeLisp.Arity
import ScopeLisp.Tag
import ScopeLisp.SyntaxError
import ScopeLisp.Text.Record

/-!
# Errors

Every way in which reading or evaluating a program can fail. `Error.message` is the wording for
users, `Error.record` the same facts field by field.
-/

namespace ScopeLisp

/-- Why a program failed. -/
inductive Error where
  /-- The source text is malformed. -/
  | malformed (fault : SyntaxError)
  /-- No scope of the chain binds a name. -/
  | undefined (name : String)
  /-- The current scope does not bind a name. -/
  | undefinedHere (name : String)
  /-- The current scope already binds a name. -/
  | duplicateDefinition (name : String)
  /-- A callable received the wrong number of arguments. -/
  | arity (callee : String) (expected : Arity) (got : Nat) (mismatch : Arity.Mismatch)
  /-- A value has the wrong type. -/
  | type (expected : Expectation) (got : Tag)
  /-- The empty list has no part of the kind that the callee takes. -/
  | emptyList (callee : String)
  /-- A condition is not a boolean. -/
  | notBoolean (got : Tag)
  /-- A value that is not callable was called. -/
  | notCallable (got : Tag)
  /-- Evaluation is nested deeper than allowed. -/
  | recursionLimit (limit : Nat)
deriving DecidableEq

namespace Error

/-- The class of an error, as shells show it. -/
def className : Error → String
  | malformed _ => "SyntaxError"
  | undefined _ | undefinedHere _ => "NameError"
  | duplicateDefinition _ => "DuplicateDefinitionError"
  | arity .. => "ArityError"
  | type .. => "TypeError"
  | emptyList _ | notBoolean _ => "ArgumentError"
  | notCallable _ => "NotCallableError"
  | recursionLimit _ => "RecursionError"

/-- The words for an argument that the callee does not accept. -/
def emptyListReason (callee : String) : String :=
  "cannot take " ++ callee ++ " of empty list (nil)"

/-- The words for a condition that is not a boolean. -/
def notBooleanReason (got : Tag) : String :=
  "condition must be boolean, got " ++ got.name

/-- What distinguishes a missing name in the current scope from one in the whole chain. -/
def currentScopeReason : String := " in the current scope"

/-- The wording of a count that misses an arity. -/
def mismatchText : Arity.Mismatch → String
  | .tooFew => "Too few"
  | .tooMany => "Too many"

/-- The wording of an error. -/
def message : Error → String
  | malformed fault =>
    "Syntax error at line " ++ fault.position.line.repr ++ ", column " ++
      fault.position.column.repr ++ ": " ++ fault.reason
  | undefined name => name ++ " is undefined"
  | undefinedHere name => name ++ " is undefined" ++ currentScopeReason
  | duplicateDefinition name => name ++ " is already defined"
  | arity callee expected got mismatch =>
    mismatchText mismatch ++ " arguments to " ++ callee ++ ", expected " ++ expected.expected ++
      ", got " ++ got.repr
  | type expected got => "Type error: expected " ++ expected.text ++ ", got " ++ got.name
  | emptyList callee => "Invalid argument to " ++ callee ++ ": " ++ emptyListReason callee
  | notBoolean got => "Invalid argument to if: " ++ notBooleanReason got
  | notCallable got => "Value of type " ++ got.name ++ " cannot be applied"
  | recursionLimit limit => "Maximum evaluation depth exceeded (limit: " ++ limit.repr ++ ")"

/-- An error with its facts field by field, for debugging. -/
def record : Error → String
  | malformed fault =>
    Text.record "SyntaxError"
      [("line", fault.position.line.repr), ("col", fault.position.column.repr),
       ("message", Text.quoted fault.reason)]
  | undefined name =>
    Text.record "NameError" [("name", Text.quoted name), ("reason", Text.quoted "")]
  | undefinedHere name =>
    Text.record "NameError"
      [("name", Text.quoted name), ("reason", Text.quoted currentScopeReason)]
  | duplicateDefinition name => Text.record "DuplicateDefinition" [("name", Text.quoted name)]
  | arity callee expected got mismatch =>
    Text.record "ArityError"
      [("callee", Text.quoted callee), ("expected", Text.quoted expected.expected),
       ("got", got.repr),
       ("kind", match mismatch with | .tooFew => "TooFew" | .tooMany => "TooMany")]
  | type expected got =>
    Text.record "TypeError"
      [("expected", Text.quoted expected.text), ("got", Text.quoted got.name)]
  | emptyList callee =>
    Text.record "ArgumentError"
      [("callee", Text.quoted callee), ("reason", Text.quoted (emptyListReason callee))]
  | notBoolean got =>
    Text.record "ArgumentError"
      [("callee", Text.quoted "if"), ("reason", Text.quoted (notBooleanReason got))]
  | notCallable got => Text.record "NotCallable" [("type_name", Text.quoted got.name)]
  | recursionLimit limit => Text.record "RecursionLimit" [("limit", limit.repr)]

end Error

/-- Accepts an argument count or says which callee it misses, and how. -/
def Arity.check (a : Arity) (callee : String) (got : Nat) : Except Error Unit :=
  match a.mismatch? got with
  | none => .ok ()
  | some mismatch => .error (.arity callee a got mismatch)

/-- The check passes exactly the admitted numbers of arguments. -/
theorem Arity.check_eq_ok_iff {a : Arity} {callee : String} {got : Nat} :
    a.check callee got = .ok () ↔ a.Admits got := by
  rw [← mismatch?_eq_none_iff]
  unfold check
  split <;> simp_all

end ScopeLisp
