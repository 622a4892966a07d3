import DoBlocks.CommandLine
import DoBlocks.Expansion
import DoBlocks.Log
import DoBlocks.Markup
import DoBlocks.Settings.Load

/-!
# Sessions

A command runs on a file tree. It reads and writes files there, logs, prints, and calls the type
checker; it ends with an exit code. Both commands load the settings, list the files and expand each
in the same way.
-/

namespace DoBlocks

/-- Something printed besides the log. -/
inductive Printed where
  | text (s : String)
  | table (title : String) (columns : List String) (rows : List (List String))
  deriving Repr, DecidableEq, Inhabited

/-- The state of a running command. -/
structure Session where
  tree : FileTree
  log : List LogLine := []
  printed : List Printed := []
  /-- The standard output. -/
  output : String := ""
  /-- The argument lists that the type checker was called with. -/
  calls : List (List String) := []
  deriving Repr, Inhabited

/-- Why a command ends without an exit code. -/
inductive Abort where
  /-- A source file holds bytes that spell no text. -/
  | undecodable
  | files (e : FileError)
  | settings (e : LoadFailure)
  | expansion (e : ExpansionFailure)
  deriving Repr, Inhabited

namespace Session

abbrev Run := ExceptT Abort (StateM Session)

def tell (l : LogLine) : Run Unit := modify fun s => { s with log := s.log ++ [l] }

/-- Logs a text that holds no markup as an error. -/
def complain (message : String) : Run Unit := tell (.error (Markup.escape message))

def print (p : Printed) : Run Unit := modify fun s => { s with printed := s.printed ++ [p] }

def onTree (f : FileTree → Except FileError FileTree) : Run (Except FileError Unit) := do
  let s ← get
  match f s.tree with
  | .ok tree =>
    set { s with tree }
    return .ok ()
  | .error e => return .error e

/-- Writes a file, and makes the directories on the way to it. -/
def save (p : TreePath) (c : FileContent) : Run (Except FileError Unit) := do
  match ← onTree fun t => t.ensureDirectories p.parent with
  | .ok () => onTree fun t => t.write p c
  | .error e => return .error e

def sourceSuffix : String := ".py"

/-- The source files below a directory, as parts from there. -/
def sources (directory : TreePath) : Run (List (List String)) := do
  let s ← get
  match s.tree.locate? directory with
  | some place => return s.tree.named place sourceSuffix
  | none => return []

/-- Reads a source file; a file that cannot be read is reported. -/
def readSource (p : TreePath) : Run (Option String) := do
  match (← get).tree.read p with
  | .error e =>
    complain s!"Failed to read {p.render}: {e.message}"
    return none
  | .ok c =>
    match c.text? with
    | some text => return some text
    | none => throw .undecodable

/-- Loads the settings for a file or directory; wrong settings are reported. -/
def loadSettings (p : TreePath) (overrides : List (String × Datum)) : Run (Option Settings) := do
  let tree := (← get).tree
  let directory := if tree.pathIsDirectory p then p else p.parent
  match Settings.load tree directory overrides with
  | .ok s => return some s
  | .error (.invalid es) =>
    complain ("Invalid [tool.letmatch] configuration: " ++ "\n".intercalate (es.map FieldError.render))
    return none
  | .error e => throw (.settings e)

def keywordOverride (keyword : Option String) : List (String × Datum) :=
  keyword.toList.map fun k => ("block_keyword", .text k)

/-- What checks modules, given the settings. -/
abbrev Checker := List String → CheckerReport

/-- Expands a source file; its warnings are logged. `none` if it cannot be read. -/
def expandSource (checker : Checker) (settings : Settings) (p : TreePath) :
    Run (Option Expansion) := do
  match ← readSource p with
  | none => return none
  | some code =>
    let check := ModuleCheck.host settings checker
    match (Expansion.run settings check (Expansion.freshNames settings) p.render code).1 with
    | .error e => throw (.expansion e)
    | .ok e =>
      modify fun s => { s with calls := s.calls ++ e.call.toList }
      e.warnings.forM fun w => tell (.warning w)
      return some e

def report (e : Expansion) : Run Unit := e.errors.forM complain

/-! ### Expanding -/

/-- What remains of the expansion of one file. -/
structure FileResult where
  succeeded : Bool
  sites : Nat
  errors : List String
  deriving Repr, DecidableEq, Inhabited

/-- Saves the trace of an expansion; that this fails is only reported. -/
def saveTrace (p : TreePath) (t : Trace) : Run Unit := do
  match ← save p (.trace t) with
  | .ok () => tell (.info s!"Trace saved to [path]{p.render}[/path]")
  | .error e => complain s!"Failed to write trace: {e.message}"

/-- Puts expanded code where it belongs: in a file, or on the standard output. -/
def deliverCode (input : TreePath) (code : String) : Option TreePath → Run Unit
  | some out => do
    match ← save out (.ofText code) with
    | .ok () =>
      tell (.success s!"Expanded: [path]{input.render}[/path] -> [path]{out.render}[/path]")
    | .error e => throw (.files e)
  | none => modify fun s => { s with output := s.output ++ code }

def expandFile (checker : Checker) (settings : Settings) (input : TreePath)
    (out trace : Option TreePath) : Run FileResult := do
  match ← expandSource checker settings input with
  | none => return ⟨false, 0, []⟩
  | some e =>
    trace.forM fun p => saveTrace p e.trace
    if e.succeeded then deliverCode input e.code out else report e
    return ⟨e.succeeded, e.sites, e.errors⟩

/-- Sums up the expansion of several files, given with their paths. -/
def summarise (results : List (String × FileResult)) : Run Unit := do
  let failures := results.filter fun r => !r.2.succeeded
  let total := results.length
  if failures.isEmpty then tell (.success s!"Batch Complete: {total}/{total} files expanded.")
  else
    let row := fun (r : String × FileResult) =>
      [r.1, toString r.2.sites, if r.2.errors.isEmpty then "Unknown Error"
        else Markup.escape ("; ".intercalate r.2.errors)]
    print (.table "Expansion Report" ["File", "Sites", "Issues"] (failures.map row))
    let passed := total - failures.length
    print (.text s!"\n[bold]Summary:[/bold] {passed} Passed, {failures.length} with Issues.")

def expandDirectory (checker : Checker) (settings : Settings) (input out : TreePath)
    (traced : Bool) : Run Nat := do
  let files ← sources input
  if files.isEmpty then
    tell (.warning s!"No .py files found in {input.render}")
    return 0
  tell (.info s!"Processing {files.length} files from {input.render}...")
  let results ← files.mapM fun parts => do
    let target := out.append parts
    let trace := if traced then some (target.withSuffix ".trace.json") else none
    let r ← expandFile checker settings (input.append parts) (some target) trace
    return ("/".intercalate parts, r)
  summarise results
  return if results.all fun r => r.2.succeeded then 0 else 1

/-- Says that there is no input. -/
def missingInput (p : TreePath) : Run Nat := do
  tell (.error s!"Input not found: {p.render}")
  return 1

def expand (checker : Checker) (input : TreePath) (out : Option TreePath) (check : Bool)
    (trace : Option TreePath) (keyword : Option String) : Run Nat := do
  if !(← get).tree.pathExists input then return ← missingInput input
  let overrides := keywordOverride keyword ++
    if check then [] else [("check_exhaustiveness", .bool false)]
  match ← loadSettings input overrides with
  | none => return 1
  | some settings =>
    if !(← get).tree.pathIsDirectory input then
      let r ← expandFile checker settings input out trace
      return if r.succeeded then 0 else 1
    match out with
    | none =>
      tell (.error "Directory expansion requires --out destination directory.")
      return 1
    | some out => expandDirectory checker settings input out trace.isSome

/-! ### Checking -/

/-- The outcome of checking files: how many have problems, and how many sites there are. -/
structure CheckCount where
  failed : Nat := 0
  sites : Nat := 0
  deriving Repr, DecidableEq, Inhabited

def checkFile (checker : Checker) (settings : Settings) (count : CheckCount) (p : TreePath) :
    Run CheckCount := do
  match ← expandSource checker settings p with
  | none => return { count with failed := count.failed + 1 }
  | some e =>
    let sites := count.sites + e.sites
    if e.succeeded then return { count with sites }
    report e
    return ⟨count.failed + 1, sites⟩

def check (checker : Checker) (input : TreePath) (keyword : Option String) : Run Nat := do
  if !(← get).tree.pathExists input then return ← missingInput input
  match ← loadSettings input (keywordOverride keyword) with
  | none => return 1
  | some settings =>
    let files ← if (← get).tree.pathIsDirectory input then
        pure ((← sources input).map input.append)
      else pure [input]
    if files.isEmpty then
      tell (.warning s!"No .py files found in {input.render}")
      return 0
    let count ← files.foldlM (checkFile checker settings) {}
    if count.failed == 0 then
      tell (.success s!"Checked {files.length} file(s), {count.sites} extended block(s).")
      return 0
    tell (.error s!"{count.failed} of {files.length} file(s) have problems.")
    return 1

/-! ### Commands -/

/-- Runs a command on a file tree: how it ends, and the session after it. -/
def run (checker : Checker) (tree : FileTree) (command : Command) :
    Except Abort Nat × Session :=
  let step : Run Nat := match command with
    | .expand path out check trace keyword => expand checker path out check trace keyword
    | .check path keyword => check checker path keyword
  (ExceptT.run step).run { tree }

end Session

end DoBlocks
