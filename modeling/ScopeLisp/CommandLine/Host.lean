import ScopeLisp.CommandLine.Depth
import ScopeLisp.CommandLine.Options
import ScopeLisp.CommandLine.Shell

/-!
# The program on a host

The whole program, over whatever host provides files, a setting, lines of input and two output
streams.
-/

namespace ScopeLisp.CommandLine

/-- Why a file cannot be read. -/
inductive ReadFault where
  | missing
  | isDirectory
  /-- Its bytes are no text. -/
  | notText
  | other (reason : String)

/-- The wording for bytes that are no text. -/
def notTextReason : String := "stream did not contain valid UTF-8"

/-- The wording of a fault in reading a file. -/
def ReadFault.text : ReadFault → String
  | missing => "No such file or directory (os error 2)"
  | isDirectory => "Is a directory (os error 21)"
  | notText => notTextReason
  | other reason => reason

/-- What ends the program with a failure. -/
inductive Failure where
  /-- The arguments make no sense. -/
  | options (reason : String)
  | unreadable (path : String) (fault : ReadFault)
  | badDepth (text : String) (fault : DepthFault)
  /-- A line of input is no text. -/
  | badInput
  /-- A source text to be listed is malformed. -/
  | malformed (fault : SyntaxError)

/-- What is written about a failure: a message and, where there is one, its cause. -/
def Failure.text : Failure → String
  | options reason => "Error: " ++ reason ++ "\n"
  | unreadable path fault => caused ("failed to read " ++ path) fault.text
  | badDepth text fault =>
    caused (depthVariable ++ " must be a number, got " ++ Text.quoted text) fault.text
  | badInput => "Error: " ++ notTextReason ++ "\n"
  | malformed fault => "Error: " ++ (Error.malformed fault).message ++ "\n"
where
  caused (message cause : String) : String :=
    "Error: " ++ message ++ "\n\nCaused by:\n    " ++ cause ++ "\n"

/-- What the program runs on. -/
structure Host (m : Type → Type) where
  /-- The depth limit as it was set from outside. -/
  depthSetting : m (Option String)
  /-- The text of a file. -/
  readFile : String → m (Except ReadFault String)
  /-- Passes the lines of input to a step one by one; ends with nothing at a line that is no
      text. -/
  foldLines {σ : Type} : (σ → String → m σ) → σ → m (Option σ)
  /-- Writes to the output stream. -/
  writeOut : String → m Unit
  /-- Writes to the error stream. -/
  writeErr : String → m Unit

/-- What is written before each line of input. -/
def prompt : String := "> "

namespace Host

variable {m : Type → Type} [Monad m] (host : Host m)

/-- Writes a report. -/
def write (r : Report) : m Unit := do
  host.writeOut r.out
  host.writeErr r.err

/-- The text of a file, or the end of the program. -/
def demandFile (path : String) : ExceptT Failure m String := do
  match ← host.readFile path with
  | .ok text => return text
  | .error fault => throw (.unreadable path fault)

/-- Runs files in order. -/
def runFiles (sh : Shell) : List String → ExceptT Failure m Shell
  | [] => return sh
  | path :: rest => do
    let (report, sh) := sh.runFile (← host.demandFile path)
    host.write report
    runFiles sh rest

/-- Runs a line of input and asks for the next. -/
def runLine (sh : Shell) (line : String) : m Shell := do
  let (report, sh) := sh.runLine line
  host.write report
  host.writeOut prompt
  return sh

/-- Runs the lines of input. -/
def runLines (sh : Shell) : ExceptT Failure m Unit := do
  host.writeOut prompt
  match ← host.foldLines host.runLine sh with
  | some _ => host.writeOut "\n"
  | none => throw .badInput

/-- Runs the files and, if there are none or the user wants it, the lines of input. -/
def runPrograms (o : Options) : ExceptT Failure m Unit := do
  -- A bad setting ends the program before any file is read.
  match config (← host.depthSetting) with
  | .error (text, fault) => throw (.badDepth text fault)
  | .ok config =>
    let sh ← host.runFiles (.start config o.stack) o.files
    if o.files.isEmpty || o.interactive then
      host.runLines sh

/-- Lists the tokens of a file. -/
def listTokens (path : String) : ExceptT Failure m Unit := do
  let (listing, fault) := tokenListing (← host.demandFile path)
  host.writeOut listing
  match fault with
  | some fault => throw (.malformed fault)
  | none => return

/-- Lists the expressions of a file. -/
def listExpressions (path : String) : ExceptT Failure m Unit := do
  match expressionListing (← host.demandFile path) with
  | .ok listing => host.writeOut listing
  | .error fault => throw (.malformed fault)

/-- Does what the options ask for; listing builtins comes before listing tokens, that before listing
    expressions, and that before running programs. -/
def perform (o : Options) : ExceptT Failure m Unit :=
  if o.builtins then host.writeOut builtinListing
  else
    match o.tokens, o.parse with
    | some path, _ => host.listTokens path
    | none, some path => host.listExpressions path
    | none, none => host.runPrograms o

/-- Does what the arguments ask for. -/
def performArgs (args : List String) : ExceptT Failure m Unit :=
  match Options.read args with
  | .help => host.writeOut (usage ++ "\n")
  | .refused reason => throw (.options reason)
  | .accepted o => host.perform o

/-- The program, with its exit code. -/
def main (args : List String) : m UInt32 := do
  match ← (host.performArgs args).run with
  | .ok () => return 0
  | .error failure =>
    host.writeErr failure.text
    return 1

end Host

end ScopeLisp.CommandLine
