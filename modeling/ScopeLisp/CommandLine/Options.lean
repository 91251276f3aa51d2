/-!
# Command line options

Options are read from left to right. Asking for help and an unknown option end the reading at once;
of a repeated option the last counts.
-/

namespace ScopeLisp.CommandLine

/-- How the program is called. -/
def usage : String :=
  "usage: egglisp [-i] [--stack] [--builtins | --tokens FILE | --parse FILE] [FILE...]"

/-- What the user asked for. -/
structure Options where
  /-- Read lines after the files. -/
  interactive : Bool := false
  /-- Report errors field by field. -/
  stack : Bool := false
  /-- List the builtins. -/
  builtins : Bool := false
  /-- A file whose tokens to write. -/
  tokens : Option String := none
  /-- A file whose expressions to write. -/
  parse : Option String := none
  /-- Files to run. -/
  files : List String := []

/-- The outcome of reading options. -/
inductive Command where
  | help
  | refused (reason : String)
  | accepted (options : Options)

namespace Options

/-- Reads arguments on top of options already read. -/
def readFrom (o : Options) : List String → Command
  | [] => .accepted o
  | arg :: rest =>
    if arg = "-i" then readFrom { o with interactive := true } rest
    else if arg = "--stack" then readFrom { o with stack := true } rest
    else if arg = "--builtins" then readFrom { o with builtins := true } rest
    else if arg = "--tokens" then
      match rest with
      | path :: rest => readFrom { o with tokens := some path } rest
      | [] => .refused usage
    else if arg = "--parse" then
      match rest with
      | path :: rest => readFrom { o with parse := some path } rest
      | [] => .refused usage
    else if arg = "-h" ∨ arg = "--help" then .help
    else if arg.toList.head? = some '-' then
      .refused ("unknown option " ++ arg ++ "\n" ++ usage)
    else readFrom { o with files := o.files ++ [arg] } rest

/-- Reads the arguments of the program. -/
def read (args : List String) : Command :=
  readFrom {} args

end Options

end ScopeLisp.CommandLine
