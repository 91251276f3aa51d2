import ScopeLisp.Double.Basic
import ScopeLisp.Error
import ScopeLisp.Builtin.Basic

/-!
# Values

Code and data share one type. Values that a program can tell apart by identity carry one: strings,
list cells, quoted values and lambdas have it from a store, natives from their registry. Scopes are
referred to by their number in a store, so a value is a finite tree even where scopes refer to
themselves.

There are two relations of sameness. `Value.identical` is identity: by value for `nil`, booleans,
numbers (as bits) and symbols, by identity for the rest. `Value.equals` compares structure, with
numeric equality for numbers, and falls back to identity for callables and scopes.
-/

namespace ScopeLisp

/-- The number of a scope in a store. -/
abbrev ScopeId := Nat

/-- The two kinds of user-defined callables. -/
inductive LambdaKind where
  /-- Takes evaluated arguments. -/
  | function
  /-- Takes argument forms and computes code. -/
  | expander
deriving DecidableEq

/-- A value of the language. -/
inductive Value where
  /-- The empty list. -/
  | nil
  | bool (b : Bool)
  | number (x : Double)
  | string (id : Identity) (text : String)
  | symbol (name : String)
  /-- A list cell. -/
  | pair (id : Identity) (head tail : Value)
  /-- A value marked as data. -/
  | quoted (id : Identity) (inner : Value)
  | native (builtin : Native)
  /-- A user-defined callable over the scope that it captured. -/
  | lambda (kind : LambdaKind) (id : Identity) (params : List String) (body : Value)
      (scope : ScopeId)
  /-- A scope as a value. -/
  | environment (scope : ScopeId)
deriving DecidableEq

namespace Value

/-- The type of a value. -/
def tag : Value → Tag
  | nil | pair .. => .list
  | bool _ => .boolean
  | number _ => .number
  | string .. => .string
  | symbol _ => .symbol
  | quoted .. => .quoted
  | native b =>
    match b.kind with
    | .function => .builtin
    | .specialForm => .specialForm
  | lambda kind .. =>
    match kind with
    | .function => .function
    | .expander => .expander
  | environment _ => .environment

/-- Whether a value is the empty list. -/
def isNil : Value → Bool
  | nil => true
  | _ => false

/-- Whether a value is a list. -/
def isList : Value → Bool
  | nil | pair .. => true
  | _ => false

/-- Whether a value can be called. -/
def isCallable : Value → Bool
  | native _ | lambda .. => true
  | _ => false

/-- The elements of a list; a value that is no list has none. -/
def items : Value → List Value
  | pair _ head tail => head :: tail.items
  | _ => []

/-- The first element of a list that is not empty. -/
def head? : Value → Option Value
  | pair _ head _ => some head
  | _ => none

/-- A list that is not empty, without its first element. -/
def tail? : Value → Option Value
  | pair _ _ tail => some tail
  | _ => none

/-- The number of elements of a list. -/
def length (v : Value) : Nat :=
  v.items.length

/-- The name of a symbol. -/
def asSymbol : Value → Except Error String
  | symbol name => .ok name
  | v => .error (.type .symbol v.tag)

/-- The text of a string. -/
def asString : Value → Except Error String
  | string _ text => .ok text
  | v => .error (.type .string v.tag)

/-- The elements of a list of a given length, or which callee wanted that many. -/
def expectArgs (n : Nat) (callee : String) (args : Value) : Except Error (Vector Value n) :=
  let items := args.items.toArray
  if h : items.size = n then .ok ⟨items, h⟩
  else
    .error (.arity callee (.exactly n) items.size (if items.size < n then .tooFew else .tooMany))

/-- Whether two values are one and the same. -/
def identical : Value → Value → Bool
  | nil, nil => true
  | bool a, bool b => a = b
  | number x, number y => x = y
  | symbol a, symbol b => a = b
  | string i _, string j _ => i = j
  | pair i .., pair j .. => i = j
  | quoted i _, quoted j _ => i = j
  | native a, native b => a.kind = b.kind && a.id = b.id
  | lambda k i .., lambda l j .. => k = l && i = j
  | environment e, environment f => e = f
  | _, _ => false

/-- Whether two values have the same structure. -/
def equals : Value → Value → Bool
  | nil, nil => true
  | number x, number y => x.equals y
  | string _ s, string _ t => s = t
  | pair _ a as, pair _ b bs => a.equals b && as.equals bs
  | quoted _ a, quoted _ b => a.equals b
  | v, w => v.identical w

/-- The parameter list of a lambda, as messages show it. -/
def paramList (params : List String) : String :=
  "(" ++ " ".intercalate params ++ ")"

end Value

end ScopeLisp
