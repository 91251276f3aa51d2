import ScopeLisp.Arity

/-!
# Builtins

A builtin is an operation under a name, with the way in which it takes its arguments and their
number. Registering a builtin makes a `Native` of it, which is what values refer to: the same
builtin registered twice gives two natives that a program can tell apart.
-/

namespace ScopeLisp

/-- What a builtin does. -/
inductive Operation where
  /-- The argument form as data. -/
  | quote
  /-- One of two branches, by a condition. -/
  | branch
  /-- A new binding in the current scope. -/
  | define
  /-- A changed binding in the current scope. -/
  | assign
  /-- A changed binding in the nearest scope that has one. -/
  | assignNonLocal
  /-- A function over the current scope. -/
  | makeFunction
  /-- A code-computing form over the current scope. -/
  | makeExpander
  /-- Forms in order. -/
  | sequence
  | add
  | concat
  | cons
  | list
  | head
  | tail
  | isNil
  /-- A value evaluated as code. -/
  | eval
  /-- The body of a lambda. -/
  | body
  /-- The scope that a lambda captured. -/
  | closure
  | isSame
  | typeOf
  | print
  | display
  | render
  /-- The calling scope. -/
  | currentScope
  /-- The global scope. -/
  | globalScope
  /-- The name of the builtin in front of its arguments. -/
  | echo
deriving DecidableEq

/-- How a builtin takes its arguments. -/
inductive Builtin.Kind where
  /-- Evaluated, from left to right. -/
  | function
  /-- As forms. -/
  | specialForm
deriving DecidableEq

/-- An operation with its name and calling convention. -/
structure Builtin where
  name : String
  /-- One line on what it does. -/
  description : String
  kind : Builtin.Kind
  arity : Arity
  operation : Operation
deriving DecidableEq

/-- What tells apart values that look the same. -/
abbrev Identity := Nat

/-- A builtin as it was registered. -/
structure Native extends Builtin where
  /-- What tells this registration apart from others in the registry. -/
  id : Identity
deriving DecidableEq

instance : Coe Native Builtin := ⟨Native.toBuiltin⟩

end ScopeLisp
