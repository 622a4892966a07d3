import DoBlocks.Toml.Scalar

/-!
# TOML documents

A document is a list of entries and headers. Entries after a header go into the table that it names.
A table may be opened by one header only, entries written with dots close the tables they go through
to later headers, and inline values cannot be extended.
-/

namespace DoBlocks.Toml

abbrev Path := List String

abbrev Entries := List (String × Datum)

/-! ### Keys and blanks -/

def isBareKey (c : Char) : Bool := c.isAlphanum || c == '-' || c == '_'

def keyPart : Reader String := fun cs =>
  let bare := cs.takeWhile isBareKey
  if bare.isEmpty then shortString cs else some (String.ofList bare, cs.drop bare.length)

/-- A key: parts with points between them, and the blanks after it. -/
def key : Nat → Reader Path
  | 0, _ => none
  | fuel + 1, cs => do
    let (part, rest) ← keyPart cs
    match rest.dropWhile isSpace with
    | '.' :: more => do
      let (parts, rest) ← key fuel (more.dropWhile isSpace)
      return (part :: parts, rest)
    | rest => return ([part], rest)

/-- Skips a comment; `none` if a control character stands in it. -/
def comment (cs : List Char) : Option (List Char) :=
  match cs with
  | '#' :: rest =>
    let text := rest.takeWhile (· != '\n')
    if text.any isControl then none else some (rest.drop text.length)
  | _ => some cs

/-- Skips blanks, line feeds and comments inside an array. -/
def arrayBlanks : Nat → List Char → Option (List Char)
  | 0, cs => some cs
  | fuel + 1, cs =>
    match cs.dropWhile fun c => isSpace c || c == '\n' with
    | '#' :: rest => (comment ('#' :: rest)).bind (arrayBlanks fuel)
    | rest => some rest

/-! ### Tables -/

/-- Changes the entries of the table at a path; tables on the way are made if they are missing, and
the last table of a list stands for the list if `lists` allows it. -/
def atTable (lists : Bool) (f : Entries → Option Entries) : Path → Entries → Option Entries
  | [], entries => f entries
  | k :: path, entries =>
    match Datum.entry? entries k with
    | none => (atTable lists f path []).map fun inner => Datum.setEntry entries k (.table inner)
    | some (.table inner) =>
      (atTable lists f path inner).map fun inner' => Datum.setEntry entries k (.table inner')
    | some (.list items) =>
      match lists, items.getLast? with
      | true, some (.table inner) =>
        (atTable lists f path inner).map fun inner' =>
          Datum.setEntry entries k (.list (items.dropLast ++ [.table inner']))
      | _, _ => none
    | some _ => none

/-- Adds an entry that is not there yet. -/
def addEntry (k : String) (value : Datum) (entries : Entries) : Option Entries :=
  if (Datum.entry? entries k).isSome then none else some (entries ++ [(k, value)])

/-- Adds an empty table to the list `k`, which is made if it is missing. -/
def addToList (k : String) (entries : Entries) : Option Entries :=
  match Datum.entry? entries k with
  | none => some (entries ++ [(k, .list [.table []])])
  | some (.list items) => some (Datum.setEntry entries k (.list (items ++ [.table []])))
  | some _ => none

def isClosed : Datum → Bool
  | .table _ | .list _ => true
  | _ => false

/-- Some path of the list leads to `p` or to a table around it. -/
def covers (paths : List Path) (p : Path) : Bool := paths.any fun q => q.isPrefixOf p

/-- Adds an entry to an inline table; `frozen` are the paths of the closed values in it. -/
def addInline (frozen : List Path) (path : Path) (value : Datum) (entries : Entries) :
    Option (Entries × List Path) :=
  if covers frozen path then none
  else do
    let entries ← atTable false (addEntry (path.getLast?.getD "") value) path.dropLast entries
    return (entries, if isClosed value then path :: frozen else frozen)

/-! ### Values -/

mutual

def value : Nat → Reader Datum
  | 0, _ => none
  | fuel + 1, cs =>
    match cs with
    | [] => none
    | '[' :: rest => array fuel [] rest
    | '\x7b' :: rest => inlineTable fuel [] [] true rest
    | c :: _ =>
      if c == '\x22' || c == '\x27' then (string cs).map fun r => (.text r.1, r.2)
      else if startsWith "true" cs then some (.bool true, cs.drop 4)
      else if startsWith "false" cs then some (.bool false, cs.drop 5)
      else numeric cs

/-- The items of an array up to its end; `items` came before, latest first. -/
def array : Nat → List Datum → Reader Datum
  | 0, _, _ => none
  | fuel + 1, items, cs => do
    let rest ← arrayBlanks (cs.length + 1) cs
    match rest with
    | ']' :: more => return (.list items.reverse, more)
    | _ =>
      let (item, rest) ← value fuel rest
      match ← arrayBlanks (rest.length + 1) rest with
      | ']' :: more => return (.list (item :: items).reverse, more)
      | ',' :: more => array fuel (item :: items) more
      | _ => none

/-- The entries of an inline table up to its end. `mayEnd` holds before the first entry. -/
def inlineTable : Nat → Entries → List Path → Bool → Reader Datum
  | 0, _, _, _, _ => none
  | fuel + 1, entries, frozen, mayEnd, cs =>
    match mayEnd, cs.dropWhile isSpace with
    | true, '\x7d' :: rest => some (.table entries, rest)
    | _, rest => do
      let (path, rest) ← key (rest.length + 1) rest
      match rest with
      | '=' :: rest => do
        let (v, rest) ← value fuel (rest.dropWhile isSpace)
        let (entries, frozen) ← addInline frozen path v entries
        match rest.dropWhile isSpace with
        | '\x7d' :: more => return (.table entries, more)
        | ',' :: more => inlineTable fuel entries frozen false more
        | _ => none
      | _ => none

end

/-! ### Documents -/

/-- A document as far as it was read. -/
structure Document where
  entries : Entries
  /-- The header that entries belong to. -/
  header : Path
  /-- Paths that no header may name. -/
  declared : List Path
  /-- Paths that entries went through since the last header. -/
  pending : List Path
  /-- Paths of values that cannot be extended. -/
  frozen : List Path
  deriving Repr, Inhabited

namespace Document

def empty : Document := ⟨[], [], [], [], []⟩

def closePending (d : Document) : Document :=
  { d with declared := d.pending ++ d.declared, pending := [] }

def through (header : Path) (path : Path) : List Path :=
  (List.range path.length).tail.map fun n => header ++ path.take n

def addValue (d : Document) (path : Path) (v : Datum) : Option Document :=
  let passed := through d.header path
  let parent := d.header ++ path.dropLast
  if passed.any fun p => d.declared.contains p then none
  else if covers d.frozen parent then none
  else do
    let entries ← atTable true (addEntry (path.getLast?.getD "") v) parent d.entries
    return { d with
      entries := entries
      pending := passed ++ d.pending
      frozen := if isClosed v then (d.header ++ path) :: d.frozen else d.frozen }

def openTable (d : Document) (path : Path) : Option Document :=
  let d := d.closePending
  if d.declared.contains path || covers d.frozen path then none
  else do
    let entries ← atTable true some path d.entries
    return { d with entries := entries, header := path, declared := path :: d.declared }

/-- Adds a table to the list that a header names; what was declared below it is open again. -/
def openListed (d : Document) (path : Path) : Option Document :=
  let d := d.closePending
  if covers d.frozen path then none
  else do
    let entries ← atTable true (addToList (path.getLast?.getD "")) path.dropLast d.entries
    return { d with
      entries := entries
      header := path
      declared := path :: d.declared.filter fun q => !path.isPrefixOf q
      frozen := d.frozen.filter fun q => !path.isPrefixOf q }

/-- Reads one statement that is no comment. -/
def statement (d : Document) (cs : List Char) : Option (Document × List Char) :=
  if startsWith "[[" cs then do
    let (path, rest) ← key cs.length ((cs.drop 2).dropWhile isSpace)
    let d ← d.openListed path
    if startsWith "]]" rest then return (d, rest.drop 2) else none
  else if startsWith "[" cs then do
    let (path, rest) ← key cs.length ((cs.drop 1).dropWhile isSpace)
    let d ← d.openTable path
    if startsWith "]" rest then return (d, rest.drop 1) else none
  else do
    let (path, rest) ← key (cs.length + 1) cs
    match rest with
    | '=' :: rest => do
      let (v, rest) ← value (rest.length + 1) (rest.dropWhile isSpace)
      let d ← d.addValue path v
      return (d, rest)
    | _ => none

/-- Reads the lines of a document, at most `fuel` of them. -/
def lines : Nat → Document → List Char → Option Document
  | 0, _, _ => none
  | fuel + 1, d, cs =>
    match cs.dropWhile isSpace with
    | [] => some d
    | '\n' :: rest => lines fuel d rest
    | c :: rest => do
      let (d, rest) ← if c == '#' then some (d, c :: rest) else d.statement (c :: rest)
      match ← comment (rest.dropWhile isSpace) with
      | [] => return d
      | '\n' :: rest => lines fuel d rest
      | _ => none

end Document

def joinBreaks : List Char → List Char
  | '\r' :: '\n' :: rest => '\n' :: joinBreaks rest
  | c :: rest => c :: joinBreaks rest
  | [] => []

def parse? (text : String) : Option Entries :=
  let cs := joinBreaks text.toList
  (Document.lines (cs.length + 1) .empty cs).map fun d => d.entries

end DoBlocks.Toml
