import DoBlocks.FileTree
import DoBlocks.Settings
import DoBlocks.Toml

/-!
# Settings from files

Settings come from the table `tool.letmatch` of the nearest configuration file and from overrides. A
file that is no document counts as an empty one.
-/

namespace DoBlocks

/-- Why settings cannot be loaded. -/
inductive LoadFailure where
  /-- Some field has a wrong value. -/
  | invalid (errors : List FieldError)
  /-- The bytes of the file spell no text. -/
  | undecodable
  /-- Something that has to be a table is none. -/
  | notTable
  /-- Arguments that have to be listed cannot be. -/
  | notIterable
  /-- There is no override of that name. -/
  | unknownOverride (name : String)
  deriving Repr, DecidableEq, Inhabited

namespace Settings

def fileName : String := "pyproject.toml"

/-- The place of a directory and of the directories around it, innermost first. -/
def placesAround (directory : List String) : List (List String) :=
  (List.range (directory.length + 1)).reverse.map directory.take

def nearest? (tree : FileTree) (directory : List String) : Option FileContent :=
  (placesAround directory).findSome? fun d => tree.file? (d ++ [fileName])

/-- The entry of a value that has to be a table; a missing one is an empty table. -/
def subtable (d : Datum) (name : String) : Except LoadFailure Datum :=
  match d with
  | .table entries => .ok ((Datum.entry? entries name).getD (.table []))
  | _ => .error .notTable

def entriesOf (content : FileContent) : Except LoadFailure (List (String × Datum)) := do
  match content.characters? with
  | none => throw .undecodable
  | some text =>
    match Toml.parse? text with
    | none => return []
    | some document =>
      let tool ← subtable (.table document) "tool"
      match ← subtable tool "letmatch" with
      | .table entries => return entries.filter fun e => fieldNames.contains e.1
      | _ => throw .notTable

/-- The things that a value lists: the items of a list, the characters of a text, the names of a
table. -/
def listed? : Datum → Option (List Datum)
  | .list ds => some ds
  | .text s => some (s.toList.map fun c => .text (String.singleton c))
  | .table entries => some (entries.map fun e => .text e.1)
  | _ => none

def isGiven : Datum → Bool
  | .null => false
  | .bool b => b
  | .int n => n != 0
  | .real m _ => m != 0
  | .text s => !s.isEmpty
  | .list ds => !ds.isEmpty
  | .table entries => !entries.isEmpty
  | .notFinite | .time _ => true

def replacing : List String := ["block_keyword", "check_exhaustiveness", "emit_exhaustiveness_guard"]

def override (entries : List (String × Datum)) (o : String × Datum) :
    Except LoadFailure (List (String × Datum)) :=
  if replacing.contains o.1 then
    match o.2 with
    | .null => .ok entries
    | d => .ok (Datum.setEntry entries o.1 d)
  else if o.1 == "checker_args" then
    if isGiven o.2 then
      match listed? ((Datum.entry? entries o.1).getD (.list [])), listed? o.2 with
      | some before, some more => .ok (Datum.setEntry entries o.1 (.list (before ++ more)))
      | _, _ => .error .notIterable
    else .ok entries
  else .error (.unknownOverride o.1)

def load (tree : FileTree) (directory : TreePath) (overrides : List (String × Datum)) :
    Except LoadFailure Settings := do
  for o in overrides do
    if !replacing.contains o.1 && o.1 != "checker_args" then throw (.unknownOverride o.1)
  let entries ← match directory.resolve?.bind (nearest? tree) with
    | some content => entriesOf content
    | none => pure []
  let entries ← overrides.foldlM override entries
  match ofTable entries with
  | .ok s => return s
  | .error es => throw (.invalid es)

end Settings

end DoBlocks
