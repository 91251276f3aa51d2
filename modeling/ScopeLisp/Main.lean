import ScopeLisp.CommandLine.Host

/-!
# The program

The program on the machine that it is started on.
-/

namespace ScopeLisp

open CommandLine

/-- Reads a file as text. -/
def readTextFile (path : String) : IO (Except ReadFault String) := do
  try
    match String.fromUTF8? (← IO.FS.readBinFile path) with
    | some text => return .ok text
    | none => return .error .notText
  catch
    | .noFileOrDirectory .. => return .error .missing
    | .inappropriateType .. => return .error .isDirectory
    | e => return .error (.other (toString e))

/-- A line without its line feed and one carriage return before it. -/
def withoutLineEnd (line : String) : String :=
  match line.toList.reverse with
  | '\n' :: '\r' :: rest | '\n' :: rest => String.ofList rest.reverse
  | _ => line

/-- Passes the lines of standard input to a step one by one. -/
partial def foldStandardInput {σ : Type} (step : σ → String → IO σ) (s : σ) :
    IO (Option σ) := do
  let line? ← try some <$> (← IO.getStdin).getLine catch _ => pure none
  match line? with
  | none => return none
  | some "" => return some s
  | some line => foldStandardInput step (← step s (withoutLineEnd line))

/-- The host that the program is started on. -/
def systemHost : Host IO where
  depthSetting := IO.getEnv depthVariable
  readFile := readTextFile
  foldLines := foldStandardInput
  writeOut text := do
    let out ← IO.getStdout
    out.putStr text
    out.flush
  writeErr text := IO.eprint text

end ScopeLisp

/-- Runs the program with the arguments that it was started with. -/
def main (args : List String) : IO UInt32 :=
  ScopeLisp.systemHost.main args
