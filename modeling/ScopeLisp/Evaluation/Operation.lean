import ScopeLisp.Machine

/-!
# What builtins do

Each operation on an argument list, called from a scope. Operations that evaluate forms are given
the evaluation to use: the argument `evaluate` stands for the evaluation one level deeper.
-/

namespace ScopeLisp

/-- Evaluation of a value as code in a scope. -/
abbrev Evaluate := Value → ScopeId → EvalM Value

namespace Builtin

open EvalM

/-! ## Control and binding -/

/-- One of two branches, by a condition that must be a boolean. -/
def runBranch (evaluate : Evaluate) (condition yes no : Value) (scope : ScopeId) :
    EvalM Value := do
  match ← evaluate condition scope with
  | .bool true => evaluate yes scope
  | .bool false => evaluate no scope
  | v => throw (.notBoolean v.tag)

/-- Evaluates a form and binds a symbol to its value in the way given. -/
def runBinding (evaluate : Evaluate) (change : Store → String → Value → Except Error Store)
    (symbol form : Value) (scope : ScopeId) : EvalM Value := do
  let name ← demand symbol.asSymbol
  -- The form is evaluated before it is asked whether the name may be bound.
  let v ← evaluate form scope
  update (change · name v)
  return .nil

/-- The names in a parameter list. -/
def parameterNames (params : Value) : Except Error (List String) :=
  if params.isList then params.items.mapM Value.asSymbol
  else .error (.type .parameterList params.tag)

/-- A lambda over a scope, from a parameter list and a body. -/
def runLambda (kind : LambdaKind) (params body : Value) (scope : ScopeId) : EvalM Value := do
  let names ← demand (parameterNames params)
  allocate (·.newLambda kind names body scope)

/-- Forms in order; the value of the last, or `nil` if there is none. -/
def runSequence (evaluate : Evaluate) (forms : List Value) (scope : ScopeId) : EvalM Value :=
  forms.foldlM (fun _ form => evaluate form scope) .nil

/-! ## Numbers and strings -/

/-- What a value adds to a sum; booleans count as zero and one. -/
def addend : Value → Except Error Double
  | .number x => .ok x
  | .bool b => .ok (if b then .one else .zero)
  | v => .error (.type .numberOrBoolean v.tag)

/-- The sum from left to right, rounded at each step. -/
def sum (values : List Value) : Except Error Double :=
  values.foldlM (fun acc v => acc.add <$> addend v) .zero

/-- The strings one after the other. -/
def joined (values : List Value) : Except Error String :=
  String.join <$> values.mapM Value.asString

/-! ## Parts of values -/

/-- The head and the tail of a list that is not empty. -/
def uncons (callee : String) : Value → Except Error (Value × Value)
  | .pair _ head tail => .ok (head, tail)
  | .nil => .error (.emptyList callee)
  | v => .error (.type .list v.tag)

/-- The body and the captured scope of a lambda. -/
def lambdaParts : Value → Except Error (Value × ScopeId)
  | .lambda _ _ _ body scope => .ok (body, scope)
  | v => .error (.type .lambda v.tag)

/-- A value in front of a list. -/
def runCons (head tail : Value) : EvalM Value :=
  transact (·.cons head tail)

/-- Prints the texts of values on a line, with spaces between them. -/
def runPrint (values : List Value) : EvalM Value := do
  let texts ← readStore fun s => values.map s.render
  write (" ".intercalate texts ++ "\n")
  return .nil

/-! ## Calls -/

/-- Passes the only argument to a step. -/
def unary (callee : String) (args : Value) (step : Value → EvalM Value) : EvalM Value := do
  let vs ← demand (args.expectArgs 1 callee)
  step (vs.get ⟨0, by decide⟩)

/-- Passes the two arguments to a step. -/
def binary (callee : String) (args : Value) (step : Value → Value → EvalM Value) :
    EvalM Value := do
  let vs ← demand (args.expectArgs 2 callee)
  step (vs.get ⟨0, by decide⟩) (vs.get ⟨1, by decide⟩)

/-- Passes the three arguments to a step. -/
def ternary (callee : String) (args : Value) (step : Value → Value → Value → EvalM Value) :
    EvalM Value := do
  let vs ← demand (args.expectArgs 3 callee)
  step (vs.get ⟨0, by decide⟩) (vs.get ⟨1, by decide⟩) (vs.get ⟨2, by decide⟩)

/-- Runs a builtin on its argument list, which holds values or forms according to its kind. -/
def run (b : Builtin) (evaluate : Evaluate) (args : Value) (scope : ScopeId) : EvalM Value :=
  match b.operation with
  | .quote => unary b.name args pure
  | .branch => ternary b.name args fun condition yes no =>
    runBranch evaluate condition yes no scope
  | .define => binary b.name args fun symbol form =>
    runBinding evaluate (fun s => s.define scope) symbol form scope
  | .assign => binary b.name args fun symbol form =>
    runBinding evaluate (fun s => s.assign scope) symbol form scope
  | .assignNonLocal => binary b.name args fun symbol form =>
    runBinding evaluate (fun s => s.assignNonLocal scope) symbol form scope
  | .makeFunction => binary b.name args fun params body => runLambda .function params body scope
  | .makeExpander => binary b.name args fun params body => runLambda .expander params body scope
  | .sequence => runSequence evaluate args.items scope
  | .add => do return .number (← demand (sum args.items))
  | .concat => do
    let text ← demand (joined args.items)
    allocate (·.newString text)
  | .cons => binary b.name args runCons
  | .list => return args
  | .head => unary b.name args fun v => do return (← demand (uncons b.name v)).1
  | .tail => unary b.name args fun v => do return (← demand (uncons b.name v)).2
  | .isNil => unary b.name args fun v => return .bool v.isNil
  | .eval => unary b.name args fun v => evaluate v scope
  | .body => unary b.name args fun v => do return (← demand (lambdaParts v)).1
  | .closure => unary b.name args fun v => do return .environment (← demand (lambdaParts v)).2
  | .isSame => binary b.name args fun v w => return .bool (v.identical w)
  | .typeOf => unary b.name args fun v => allocate (·.newString v.tag.name)
  | .print => runPrint args.items
  | .display => unary b.name args fun v => allocate fun s => s.newString (s.display v)
  | .render => unary b.name args fun v => allocate fun s => s.newString (s.render v)
  | .currentScope => return .environment scope
  | .globalScope => do return .environment (← get).globals
  | .echo => runCons (.symbol b.name) args

end Builtin

end ScopeLisp
