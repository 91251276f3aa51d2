import ScopeLisp.Evaluation.Basic
import ScopeLisp.Parser

/-!
# Programs

A program is a source text whose expressions are read and evaluated one at a time in the global
scope, so that everything before a fault has run. A line is a source text with one expression,
read to its end before it is evaluated.
-/

namespace ScopeLisp

open EvalM

/-- A datum evaluated in the global scope. -/
def evaluateDatum (datum : Datum) : EvalM Value := do
  let v ← allocate (·.load datum)
  evaluate v (← get).globals

/-- Evaluates at most `fuel` expressions that a parser still holds. The value of the last one, or
    the value given if there is none. -/
def executeUpTo : (fuel : Nat) → Parser → (last : Value) → EvalM Value
  | 0, _, last => return last
  | fuel + 1, p, last =>
    match p.run ParseM.isDone with
    | (.error fault, _) => throw (.malformed fault)
    | (.ok true, _) => return last
    | (.ok false, p) =>
      match p.run ParseM.expression with
      | (.error fault, _) => throw (.malformed fault)
      | (.ok datum, p) => do
        let last ← evaluateDatum datum
        executeUpTo fuel p last

/-- Runs a program; the value of its last expression, or `nil` if it has none. Each expression
    takes at least one character, so the fuel lasts. -/
def execute (source : String) : EvalM Value :=
  executeUpTo (source.length + 1) (.ofSource source) .nil

/-- Reads the one expression of a text, as a value. -/
def readSingle (text : String) : EvalM Value := do
  match parseSingle text with
  | .error fault => throw (.malformed fault)
  | .ok datum => allocate (·.load datum)

/-- Runs a line. -/
def executeLine (line : String) : EvalM Value := do
  let v ← readSingle line
  evaluate v (← get).globals

/-- Runs a program, applies its value to the argument forms in a text, and calls from the global
    scope. -/
def executeCall (callee args : String) : EvalM Value := do
  let f ← execute callee
  let forms ← readSingle args
  apply f forms (← get).globals

/-- Reads the one expression of a text, runs a program whose value must be a scope, and evaluates
    the expression there. -/
def executeIn (scope text : String) : EvalM Value := do
  let v ← readSingle text
  match ← execute scope with
  | .environment e => evaluate v e
  | other => throw (.type .environment other.tag)

/-- The names of the global scope that are bound to something else than in `before`, with what they
    are bound to. -/
def Machine.changedGlobals (m : Machine) (before : NameMap Value) : List (String × Value) :=
  (m.store.bindings m.globals).entries.filter fun (name, v) =>
    !((before.find? name).any v.identical)

end ScopeLisp
