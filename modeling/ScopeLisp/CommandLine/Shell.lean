import ScopeLisp.Evaluation.Program
import ScopeLisp.Json.Token

/-!
# Shells

What the program writes: listings of builtins, tokens and expressions, and the answers of a shell
that runs files and lines one after the other on one machine. A shell goes on after an error in a
program and reports it.
-/

namespace ScopeLisp.CommandLine

/-- One line for each builtin of the language. -/
def builtinListing : String :=
  String.join (Registry.full.builtins.entries.map fun (_, b) => Registry.line b ++ "\n")

/-- One line for each token of a source text, and the fault that ends them, if there is one. -/
def tokenListing (source : String) : String × Option SyntaxError :=
  let r := (Scanner.ofSource source).remainder
  (String.join (r.tokens.map fun t => Json.tokenText t ++ "\n"), r.fault)

/-- One line for each of a list of data. -/
def datumListing (data : List Datum) : String :=
  String.join (data.map fun d =>
    let (v, store) := Store.empty.load d
    store.render v ++ "\n")

/-- One line for each expression of a source text. -/
def expressionListing (source : String) : Except SyntaxError String :=
  datumListing <$> parseAll source

/-- Evaluates in a scope at most `fuel` expressions that a parser still holds, for what they do. -/
def runUpTo (scope : ScopeId) : (fuel : Nat) → Parser → EvalM Unit
  | 0, _ => return
  | fuel + 1, p =>
    match p.run ParseM.isDone with
    | (.error fault, _) => throw (.malformed fault)
    | (.ok true, _) => return
    | (.ok false, p) =>
      match p.run ParseM.expression with
      | (.error fault, _) => throw (.malformed fault)
      | (.ok datum, p) => do
        let v ← EvalM.allocate (·.load datum)
        let _ ← evaluate v scope
        runUpTo scope fuel p

/-- Reads one expression of a source text and evaluates it, until the text is exhausted or
    something fails. Each expression takes at least one character, so the fuel lasts. -/
def runSource (source : String) : EvalM Unit := do
  runUpTo (← get).globals (source.length + 1) (.ofSource source)

/-- What a step wrote to the two output streams. -/
structure Report where
  out : String
  err : String

/-- A machine that runs one program after the other. -/
structure Shell where
  machine : Machine
  /-- Report errors field by field. -/
  stack : Bool

namespace Shell

/-- A shell that has run nothing yet. -/
def start (config : Config) (stack : Bool) : Shell :=
  ⟨.start .full config, stack⟩

/-- The line that reports an error. -/
def errorLine (sh : Shell) (e : Error) : String :=
  e.className ++ ": " ++ (if sh.stack then e.record else e.message) ++ "\n"

/-- Runs a step of evaluation, with the text to write for its result. -/
def run {α : Type} (sh : Shell) (act : EvalM α) (answer : Store → α → String) : Report × Shell :=
  let (outcome, m) := { sh.machine with output := "", events := #[] }.run act
  let report := match outcome with
    | .ok a => ⟨m.output ++ answer m.store a, ""⟩
    | .error e => ⟨m.output, sh.errorLine e⟩
  (report, { sh with machine := m })

/-- Runs a file. -/
def runFile (sh : Shell) (source : String) : Report × Shell :=
  sh.run (runSource source) fun _ _ => ""

/-- Runs a line and writes its value; a blank line does nothing. -/
def runLine (sh : Shell) (line : String) : Report × Shell :=
  if Text.isAllBlank line then (⟨"", ""⟩, sh)
  else sh.run (executeLine line) fun s v => s.render v ++ "\n"

end Shell

end ScopeLisp.CommandLine
