import DoBlocks.Text.Quoted
import DoBlocks.Trace

/-!
# File trees

The files a command works on, as a value: a tree of directories and files below one root. Paths keep
the way they were written for messages; a path that leaves the root leads nowhere.
-/

namespace DoBlocks

/-- A path: the slashes it starts with, if any, and its parts. -/
structure TreePath where
  root : String
  parts : List String
  deriving Repr, DecidableEq, Inhabited

namespace TreePath

/-- Reads a path; empty parts and single dots are left out. -/
def ofString (s : String) : TreePath :=
  let slashes := (s.toList.takeWhile (· == '/')).length
  let root := if slashes == 0 then "" else if slashes == 2 then "//" else "/"
  ⟨root, (s.splitOn "/").filter fun p => !p.isEmpty && p != "."⟩

def render (p : TreePath) : String :=
  if p.root.isEmpty && p.parts.isEmpty then "." else p.root ++ "/".intercalate p.parts

def parent (p : TreePath) : TreePath := { p with parts := p.parts.dropLast }

def append (p : TreePath) (parts : List String) : TreePath := { p with parts := p.parts ++ parts }

/-- A file name without its last suffix; a name that only starts with a dot has none. -/
def stem (name : String) : String :=
  let cs := name.toList
  let suffix := cs.reverse.takeWhile (· != '.')
  let before := cs.take (cs.length - suffix.length - 1)
  if suffix.isEmpty || suffix.length == cs.length || before.isEmpty then name
  else String.ofList before

/-- The path with another suffix of its last part. -/
def withSuffix (p : TreePath) (suffix : String) : TreePath :=
  match p.parts.getLast? with
  | some name => { p with parts := p.parts.dropLast ++ [stem name ++ suffix] }
  | none => p

/-- The parts below the root that remain when two dots take the part before them away; `none` if
they leave the root. -/
def resolveParts : List String → List String → Option (List String)
  | taken, [] => some taken.reverse
  | taken, ".." :: rest =>
    match taken with
    | _ :: outer => resolveParts outer rest
    | [] => none
  | taken, name :: rest => resolveParts (name :: taken) rest

/-- Where a path leads, whether something is there or not. -/
def resolve? (p : TreePath) : Option (List String) :=
  if p.root.isEmpty then resolveParts [] p.parts else none

end TreePath

/-- What a file holds. -/
inductive FileContent where
  | bytes (bs : List UInt8)
  | trace (t : Trace)
  deriving Repr, DecidableEq, Inhabited

/-- What is at a place of a tree. -/
inductive TreeEntry where
  | directory
  | file (content : FileContent)
  deriving Repr, DecidableEq, Inhabited

/-- Why an operation on files fails. -/
inductive FileFault where
  | missing
  | alreadyThere
  | notDirectory
  | isDirectory
  deriving Repr, DecidableEq, Inhabited

/-- A fault and the path that was asked for. -/
structure FileError where
  fault : FileFault
  path : String
  deriving Repr, DecidableEq, Inhabited

namespace FileFault

def number : FileFault → Nat
  | missing => 2
  | alreadyThere => 17
  | notDirectory => 20
  | isDirectory => 21

def text : FileFault → String
  | missing => "No such file or directory"
  | alreadyThere => "File exists"
  | notDirectory => "Not a directory"
  | isDirectory => "Is a directory"

end FileFault

def FileError.message (e : FileError) : String :=
  s!"[Errno {e.fault.number}] {e.fault.text}: {Text.quoted e.path}"

/-- Directories and files by their parts from the root. A directory with something in it need not be
listed. -/
structure FileTree where
  entries : List (List String × TreeEntry)
  deriving Repr, DecidableEq, Inhabited

namespace FileTree

def file? (t : FileTree) (place : List String) : Option FileContent :=
  match t.entries.find? fun e => e.1 == place with
  | some (_, .file c) => some c
  | _ => none

def isDirectory (t : FileTree) (place : List String) : Bool :=
  place.isEmpty ||
    t.entries.any fun e => place.isPrefixOf e.1 && (e.1 != place || e.2 == .directory)

def isFile (t : FileTree) (place : List String) : Bool := (t.file? place).isSome

/-- Walks along a path; whatever a part is taken from has to be a directory. -/
def walk (t : FileTree) : List String → List String → Except FileFault (List String)
  | taken, [] => .ok taken
  | taken, part :: rest =>
    if t.isDirectory taken then
      if part != ".." then t.walk (taken ++ [part]) rest
      else if taken.isEmpty then .error .missing
      else t.walk taken.dropLast rest
    else .error (if t.isFile taken then .notDirectory else .missing)

/-- The place that a path leads to; all but the last part have to be directories. -/
def locate (t : FileTree) (p : TreePath) : Except FileError (List String) :=
  match if p.root.isEmpty then t.walk [] p.parts else .error .missing with
  | .ok l => .ok l
  | .error f => .error ⟨f, p.render⟩

/-- The place that a path leads to, if it leads to one. -/
def locate? (t : FileTree) (p : TreePath) : Option (List String) := (t.locate p).toOption

def pathExists (t : FileTree) (p : TreePath) : Bool :=
  (t.locate? p).any fun l => t.isFile l || t.isDirectory l

def pathIsDirectory (t : FileTree) (p : TreePath) : Bool := (t.locate? p).any t.isDirectory

def set (t : FileTree) (place : List String) (e : TreeEntry) : FileTree :=
  ⟨(t.entries.filter fun x => x.1 != place) ++ [(place, e)]⟩

def read (t : FileTree) (p : TreePath) : Except FileError FileContent := do
  let l ← t.locate p
  match t.file? l with
  | some c => return c
  | none => throw ⟨if t.isDirectory l then .isDirectory else .missing, p.render⟩

def write (t : FileTree) (p : TreePath) (c : FileContent) : Except FileError FileTree := do
  let l ← t.locate p
  if t.isDirectory l then throw ⟨.isDirectory, p.render⟩
  return t.set l (.file c)

def makeDirectory (t : FileTree) (p : TreePath) : Except FileError FileTree := do
  let l ← t.locate p
  if t.isDirectory l || t.isFile l then throw ⟨.alreadyThere, p.render⟩
  return t.set l .directory

/-- Makes one directory unless it is there. -/
def ensureDirectory (t : FileTree) (p : TreePath) : Except FileError FileTree :=
  match t.makeDirectory p with
  | .ok t' => .ok t'
  | .error e => if t.pathIsDirectory p then .ok t else .error e

/-- Makes the directory of a path, given by its parts from the last one on, and those on the way to
it where they are missing. -/
def ensureAlong (t : FileTree) (root : String) : List String → Except FileError FileTree
  | [] => t.ensureDirectory ⟨root, []⟩
  | last :: outer => do
    let p : TreePath := ⟨root, (last :: outer).reverse⟩
    match t.makeDirectory p with
    | .ok t' => return t'
    | .error ⟨.missing, _⟩ => (← t.ensureAlong root outer).ensureDirectory p
    | .error e => if t.pathIsDirectory p then return t else throw e

def ensureDirectories (t : FileTree) (p : TreePath) : Except FileError FileTree :=
  t.ensureAlong p.root p.parts.reverse

def pathLe : List String → List String → Bool
  | [], _ => true
  | _ :: _, [] => false
  | a :: as, b :: bs => if a == b then pathLe as bs else decide (a < b)

/-- The places below a directory, each once. -/
def below (t : FileTree) (directory : List String) : List (List String) :=
  ((t.entries.filter fun e => directory.isPrefixOf e.1).flatMap fun e =>
    ((List.range (e.1.length + 1)).drop (directory.length + 1)).map fun n => e.1.take n).eraseDups

/-- The places below a directory whose names end in `suffix`, in order, as parts from there. -/
def named (t : FileTree) (directory : List String) (suffix : String) : List (List String) :=
  let found := (t.below directory).filter fun l => (l.getLast?.getD "").endsWith suffix
  (found.mergeSort pathLe).map fun l => l.drop directory.length

/-- The files that another tree has and this one has not, or has with another content. -/
def changes (before after : FileTree) : List (List String × FileContent) :=
  after.entries.filterMap fun e =>
    match e.2 with
    | .file c => if before.file? e.1 == some c then none else some (e.1, c)
    | .directory => none

end FileTree

/-! ### Text files -/

def unifyBreaks : List Char → List Char
  | '\r' :: '\n' :: rest => '\n' :: unifyBreaks rest
  | '\r' :: rest => '\n' :: unifyBreaks rest
  | c :: rest => c :: unifyBreaks rest
  | [] => []

namespace FileContent

/-- The characters of a file; `none` if its bytes spell none. -/
def characters? : FileContent → Option String
  | .bytes bs => String.fromUTF8? ⟨bs.toArray⟩
  | .trace _ => some ""

def text? (c : FileContent) : Option String :=
  c.characters?.map fun s => String.ofList (unifyBreaks s.toList)

def ofText (s : String) : FileContent := .bytes s.toUTF8.toList

end FileContent

end DoBlocks
