import ScopeLisp.Evaluation.Operation

/-!
# Evaluation

Symbols stand for what they are bound to, quoted values for what is quoted, and a list that is not
empty is a call: its head is evaluated and applied to its tail. Everything else stands for itself.

Functions take their arguments evaluated, special forms and code-computing forms take them as they
are written. The code that such a form computes is evaluated once more, in the scope of the
caller.

Evaluations are nested at most as deeply as the settings allow, and that bound is what the
recursion runs on: `evaluateWithin room` may nest `room` more evaluations.
-/

namespace ScopeLisp

open EvalM

/-- A list of the values of argument forms, evaluated from left to right. -/
def evaluateArgs (evaluate : Evaluate) (args : Value) (scope : ScopeId) : EvalM Value := do
  let values ← args.items.mapM (evaluate · scope)
  allocate (·.newList values)

/-- Defines parameters in a frame one by one, each as the value of its argument. -/
def bindParams (valueOf : Value → EvalM Value) (frame : ScopeId) :
    List (String × Value) → EvalM Unit
  | [] => return
  | (param, arg) :: rest => do
    let v ← valueOf arg
    update (·.define frame param v)
    bindParams valueOf frame rest

/-- A new scope under the captured one, with the parameters bound in it. -/
def enterFrame (valueOf : Value → EvalM Value) (captured : ScopeId) (params : List String)
    (args : Value) : EvalM ScopeId := do
  let frame ← allocate (·.newScope (some captured))
  bindParams valueOf frame (params.zip args.items)
  return frame

/-- Calls a user-defined function: the arguments are evaluated in the scope of the caller, and the
    body in a new frame. -/
def applyFunction (evaluate : Evaluate) (params : List String) (body : Value)
    (captured : ScopeId) (args : Value) (scope : ScopeId) : EvalM Value := do
  demand ((Arity.exactly params.length).check (Value.paramList params) args.length)
  -- The call is in the log before anything that its arguments log.
  emit (.call (Value.paramList params) (← get).depth)
  let frame ← enterFrame (evaluate · scope) captured params args
  evaluate body frame

/-- Calls a code-computing form: the body is evaluated in a new frame that binds the argument forms,
    and its value in the scope of the caller. -/
def applyExpander (evaluate : Evaluate) (params : List String) (body : Value)
    (captured : ScopeId) (args : Value) (scope : ScopeId) : EvalM Value := do
  demand ((Arity.exactly params.length).check (Value.paramList params) args.length)
  -- The forms are bound as they are written, so nothing is evaluated yet.
  let frame ← enterFrame pure captured params args
  let code ← evaluate body frame
  if (← get).config.traceExpansions then
    emit (← readStore fun s =>
      .expansion (Value.paramList params) (s.render args) (s.render code))
  evaluate code scope

/-- Applies a value to an argument list that is not evaluated yet, called from a scope. -/
def applyWith (evaluate : Evaluate) (callee args : Value) (scope : ScopeId) : EvalM Value :=
  match callee with
  | .native b =>
    match b.kind with
    | .function => do
      -- Counted only after all of them have been evaluated.
      let values ← evaluateArgs evaluate args scope
      demand (b.arity.check b.name values.length)
      b.run evaluate values scope
    | .specialForm => do
      demand (b.arity.check b.name args.length)
      b.run evaluate args scope
  | .lambda .function _ params body captured =>
    applyFunction evaluate params body captured args scope
  | .lambda .expander _ params body captured =>
    applyExpander evaluate params body captured args scope
  | v => throw (.notCallable v.tag)

/-- Evaluates a value, with the evaluation of its parts given. -/
def evaluateStep (evaluate : Evaluate) : Evaluate
  | .symbol name, scope => do demand (← readStore (·.lookup scope name))
  | .quoted _ inner, _ => return inner
  | .pair _ head tail, scope => do
    let callee ← evaluate head scope
    applyWith evaluate callee tail scope
  | v, _ => return v

/-- Refuses an evaluation that is nested too deeply. -/
def refuseDepth : EvalM Value := do
  let limit := (← get).config.maxDepth
  emit (.depthLimit limit)
  throw (.recursionLimit limit)

/-- Evaluates a value as code in a scope, where `room` more evaluations may be nested. -/
def evaluateWithin : (room : Nat) → Evaluate
  | 0 => fun _ _ => refuseDepth
  | room + 1 => fun v scope => nested (evaluateStep (evaluateWithin room) v scope)

/-- How many more evaluations may be nested. -/
def roomLeft : EvalM Nat := do
  let m ← get
  return m.config.maxDepth - m.depth

/-- Evaluates a value as code in a scope. -/
def evaluate (v : Value) (scope : ScopeId) : EvalM Value := do
  evaluateWithin (← roomLeft) v scope

/-- Applies a value to an argument list that is not evaluated yet, called from a scope. -/
def apply (callee args : Value) (scope : ScopeId) : EvalM Value := do
  applyWith (evaluateWithin (← roomLeft)) callee args scope

end ScopeLisp
