import ScopeLisp.CommandLine.Host
import ScopeLisp.Text.Lines

/-!
# A simulated host

A host whose files and input are given beforehand and whose output is collected, so that a whole
run of the program is a function.
-/

namespace ScopeLisp.CommandLine

/-- What a run finds on its host. -/
structure World where
  depthSetting : Option String := none
  /-- The bytes of a file. -/
  file : String → Except ReadFault (List UInt8)
  /-- The bytes of the input. -/
  input : List UInt8 := []

/-- What a run leaves behind. -/
structure Result where
  exitCode : UInt32
  out : String
  err : String

/-- Passes lines to a step one by one, up to one that is no text. -/
def foldDecoded {m : Type → Type} [Monad m] {σ : Type} (step : σ → String → m σ) :
    List (List UInt8) → σ → m (Option σ)
  | [], s => return some s
  | line :: rest, s =>
    match Text.decode? line with
    | some text => do foldDecoded step rest (← step s text)
    | none => return none

/-- The host of a world, which collects what is written. -/
def World.host (w : World) : Host (StateM Report) where
  depthSetting := pure w.depthSetting
  readFile path := pure do
    match Text.decode? (← w.file path) with
    | some text => .ok text
    | none => .error .notText
  foldLines step s := foldDecoded step (Text.splitLines w.input) s
  writeOut text := modify fun r => { r with out := r.out ++ text }
  writeErr text := modify fun r => { r with err := r.err ++ text }

/-- A run of the program in a world. -/
def World.run (w : World) (args : List String) : Result :=
  let (exitCode, r) := StateT.run (w.host.main args) ⟨"", ""⟩
  ⟨exitCode, r.out, r.err⟩

end ScopeLisp.CommandLine
