import DoBlocks.CommandLine.Session
import DoBlocks.Console
import DoBlocks.Trace.Json

/-!
# The program

Takes the files below the working directory as a file tree, runs a command on it, and writes back
what has changed. No type checker is at hand, so modules with catch-alls are warned about.
-/

open DoBlocks

namespace DoBlocks.Program

def terminalWidth : Nat := 80

/-- The files in a directory that is reached by `parts`. -/
partial def entriesOf (parts : List String) : IO (List (List String × TreeEntry)) := do
  let directory ← IO.FS.realPath ("/".intercalate ("." :: parts))
  let mut found := [(parts, TreeEntry.directory)]
  for entry in ← directory.readDir do
    let inner := parts ++ [entry.fileName]
    if ← entry.path.isDir then found := found ++ (← entriesOf inner)
    else found := found ++ [(inner, .file (.bytes (← IO.FS.readBinFile entry.path).toList))]
  return found

def writeFile (parts : List String) (content : FileContent) : IO Unit := do
  IO.FS.createDirAll ("/".intercalate ("." :: parts.dropLast))
  let bytes : ByteArray ← match content with
    | .bytes bs => pure ⟨bs.toArray⟩
    | .trace t => do
      let now ← IO.monoMsNow
      pure (t.toJson (now / 1000)).toUTF8
  IO.FS.writeBinFile ("/".intercalate ("." :: parts)) bytes

/-- What a command has logged and printed, as lines. -/
def shown (s : Session) : List String :=
  let step := fun (c : Consoles) (r : Except Markup.Unmatched Consoles) => r.toOption.getD c
  let c := s.log.foldl (fun c l => step c (c.log l)) (.start terminalWidth)
  let c := s.printed.foldl (fun c p => match p with
    | .text t => step c (c.print t)
    | .table title columns rows =>
      (title :: (columns :: rows).map fun r => " | ".intercalate r).foldl
        (fun c l => step c (c.print l)) c) c
  c.recorded.flatten

/-- Why a command ended without an exit code. -/
def abortText : Abort → String
  | .undecodable => "a source file is not UTF-8"
  | .files e => e.message
  | .settings .undecodable => "the configuration file is not UTF-8"
  | .settings _ => "the configuration has no usable table"
  | .expansion _ => "a module cannot be written"

/-- A type checker that is never there. -/
def noChecker : Session.Checker := fun _ => { stdout := "", stderr := "not available", status := 2 }

def usage (program : String) : String :=
  if program == CommandLine.expandSpec.program then
    s!"usage: {program} [-h] [--out OUT] [--no-check] [--json-trace JSON_TRACE] [--keyword KEYWORD] path"
  else if program == CommandLine.checkSpec.program then s!"usage: {program} [-h] [--keyword KEYWORD] path"
  else s!"usage: {program} [-h] [--version] \x7bexpand,check\x7d ..."

def runCommand (command : Command) : IO UInt32 := do
  let before : FileTree := ⟨← entriesOf []⟩
  let (ending, s) := Session.run noChecker before command
  for (parts, content) in before.changes s.tree do writeFile parts content
  IO.print s.output
  for line in shown s do IO.println line
  match ending with
  | .ok code => return code.toUInt32
  | .error e =>
    IO.eprintln (abortText e)
    return 1

end DoBlocks.Program

def main (words : List String) : IO UInt32 := do
  match CommandLine.read words with
  | .ok command => Program.runCommand command
  | .error (.help program) =>
    IO.println (Program.usage program)
    return 0
  | .error .version =>
    IO.println s!"{CommandLine.programName} {CommandLine.version}"
    return 0
  | .error (.usage program message) =>
    IO.eprintln (Program.usage program)
    IO.eprintln s!"{program}: error: {message}"
    return 2
