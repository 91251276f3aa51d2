import ScopeLisp.Builtin.Basic

/-!
# The catalogue

All builtins of the language.
-/

namespace ScopeLisp

/-- A builtin that takes its arguments as forms. -/
private def formEntry (name : String) (arity : Arity) (operation : Operation)
    (description : String) : Builtin :=
  ⟨name, description, .specialForm, arity, operation⟩

/-- A builtin that takes its arguments evaluated. -/
private def functionEntry (name : String) (arity : Arity) (operation : Operation)
    (description : String) : Builtin :=
  ⟨name, description, .function, arity, operation⟩

/-- Binding, control and construction of lambdas. -/
def specialForms : List Builtin :=
  [formEntry "quote" (.exactly 1) .quote "Return the argument form without evaluating it",
   formEntry "if" (.exactly 3) .branch
     "Evaluate the then-branch on true, the else-branch on false",
   formEntry "def" (.exactly 2) .define "Define a new variable in the current scope",
   formEntry "set!" (.exactly 2) .assign "Change a variable bound in the current scope",
   formEntry "set*" (.exactly 2) .assignNonLocal
     "Change the nearest variable of that name in any enclosing scope",
   formEntry "fn" (.exactly 2) .makeFunction
     "Create a function from a parameter list and a body",
   formEntry "macro" (.exactly 2) .makeExpander
     "Create a macro: its body computes code that runs in the caller's scope",
   formEntry "begin" .any .sequence "Evaluate each form in order and return the last value"]

/-- Lists. -/
def listFunctions : List Builtin :=
  [functionEntry "cons" (.exactly 2) .cons "Prepend a value to a list",
   functionEntry "list" .any .list "Return the arguments as a list",
   functionEntry "head" (.exactly 1) .head "First element of a non-empty list",
   functionEntry "tail" (.exactly 1) .tail "List of all elements after the first",
   functionEntry "nil?" (.exactly 1) .isNil "True if the argument is the empty list"]

/-- Numbers and strings. -/
def foldFunctions : List Builtin :=
  [functionEntry "+" .any .add "Sum of the arguments (booleans count as 0/1); 0 with no arguments",
   functionEntry "concat" .any .concat "Concatenation of the string arguments"]

/-- Code, scopes and values as such. -/
def introspectionFunctions : List Builtin :=
  [functionEntry "eval" (.exactly 1) .eval "Evaluate a value as an expression in the calling scope",
   functionEntry "body" (.exactly 1) .body "Body expression of a function or macro",
   functionEntry "closure" (.exactly 1) .closure "Scope captured by a function or macro",
   functionEntry "is?" (.exactly 2) .isSame
     "True if both arguments are the same value (identity, not structure)",
   functionEntry "type-of" (.exactly 1) .typeOf "Type tag of the argument as a string",
   functionEntry "print" .any .print "Print the representations of the arguments, space separated",
   functionEntry "str" (.exactly 1) .display
     "Display string of the argument (strings without quotes)",
   functionEntry "repr" (.exactly 1) .render "Source-like representation of the argument",
   functionEntry "env" (.exactly 0) .currentScope "The current scope",
   functionEntry "globals" (.exactly 0) .globalScope "The global scope"]

/-- The builtins of the language. -/
def catalogue : List Builtin :=
  specialForms ++ listFunctions ++ foldFunctions ++ introspectionFunctions

end ScopeLisp
