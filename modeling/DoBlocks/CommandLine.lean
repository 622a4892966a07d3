import DoBlocks.CommandLine.Arguments
import DoBlocks.FileTree

/-!
# The command line

There are two commands: one expands a file or the files of a directory, the other only reports what
an expansion would report.
-/

namespace DoBlocks

/-- A command. -/
inductive Command where
  | expand (path : TreePath) (out : Option TreePath) (check : Bool) (trace : Option TreePath)
      (keyword : Option String)
  | check (path : TreePath) (keyword : Option String)
  deriving Repr, DecidableEq, Inhabited

namespace CommandLine

def programName : String := "letmatch"

def version : String := "0.1.0"

def helpOption : OptionSpec := ⟨["-h", "--help"], .help⟩

def mainSpec : ArgumentSpec :=
  ⟨programName, [helpOption, ⟨["--version"], .version⟩], "command", true⟩

def expandSpec : ArgumentSpec :=
  ⟨programName ++ " expand",
   [helpOption, ⟨["--out"], .value⟩, ⟨["--no-check"], .flag⟩, ⟨["--json-trace"], .value⟩,
    ⟨["--keyword"], .value⟩], "path", false⟩

def checkSpec : ArgumentSpec :=
  ⟨programName ++ " check", [helpOption, ⟨["--keyword"], .value⟩], "path", false⟩

def commands : List (String × ArgumentSpec) := [("expand", expandSpec), ("check", checkSpec)]

/-- Reads the arguments of a command; words that fit nowhere come back with it. -/
def readCommand (name : String) (spec : ArgumentSpec) (words : List String) :
    Except Stop (Command × List String) := do
  let a ← spec.read words
  match a.positional with
  | some [path] =>
    let path := TreePath.ofString path
    let keyword := a.value? "--keyword"
    let command := if name == "expand" then
        .expand path ((a.value? "--out").map .ofString) (!a.has "--no-check")
          ((a.value? "--json-trace").map .ofString) keyword
      else .check path keyword
    return (command, a.extras)
  | _ => spec.missingPositional

def read (words : List String) : Except Stop Command := do
  let a ← mainSpec.read words
  match a.positional with
  | some (name :: rest) =>
    match commands.find? fun c => c.1 == name with
    | none =>
      mainSpec.refuse (s!"argument command: invalid choice: {Text.quoted name} (choose from " ++
        ", ".intercalate (commands.map fun c => Text.quoted c.1) ++ ")")
    | some (name, spec) =>
      let (command, extras) ← readCommand name spec rest
      let extras := a.extras ++ extras
      if extras.isEmpty then return command
      else mainSpec.refuse ("unrecognized arguments: " ++ " ".intercalate extras)
  | _ => mainSpec.missingPositional

end CommandLine

end DoBlocks
