import DoBlocks.Host.Literal
import DoBlocks.Host.Tree

/-!
# Imports from `__future__`

Such an import changes how the module is read, so it may stand only at the start of a module, after
at most a documentation string, and only known features may be asked for.
-/

namespace DoBlocks.Host.Future

def features : List String :=
  ["nested_scopes", "generators", "division", "absolute_import", "with_statement", "print_function",
   "unicode_literals", "barry_as_FLUFL", "generator_stop", "annotations"]

/-- The statement imports from `__future__`; dots before the name do not matter. -/
def isImport (t : Tree) : Bool :=
  t.is .importNames && (t.partsOf .dottedName).any fun n => n.word? == some "__future__"

def importedNames (t : Tree) : List String :=
  (t.partsOf .importAlias).filterMap fun a => a.lexemes.head?.map fun l => l.text

/-- Only known features are asked for, and not all names at once. -/
def isKnown (t : Tree) : Bool :=
  !t.hasSign "*" && (importedNames t).all fun n => features.contains n

/-- A string without fields that is no byte string. -/
def isPlainString (t : Tree) : Bool :=
  let plain (u : Tree) : Bool :=
    u.is .string && u.lexemes.all fun l => !(StringParts.ofText l.text.toList).isBytes
  plain t || (t.is .concatenated && t.parts.all plain)

def isDocumentation : Tree → Bool
  | .node .expressionStatement [value] => isPlainString value.bare
  | _ => false

/-- The simple statements at the top of a module, up to the first compound statement. -/
def openingStatements (module : Tree) : List Tree :=
  (module.parts.takeWhile fun t => t.is .line).flatMap Tree.parts

mutual

/-- The number of imports from `__future__` anywhere in a tree. -/
def count : Tree → Nat
  | .leaf _ => 0
  | .node k children => (if isImport (.node k children) then 1 else 0) + countAll children

def countAll : List Tree → Nat
  | [] => 0
  | t :: rest => count t + countAll rest

end

/-- The imports from `__future__` at the start of a module. -/
def leading (module : Tree) : List Tree :=
  let statements := openingStatements module
  let statements := match statements with
    | t :: rest => if isDocumentation t then rest else statements
    | [] => []
  statements.takeWhile isImport

/-- The imports from `__future__` stand where they may and ask for known features. -/
def fits (module : Tree) : Bool :=
  let imports := leading module
  imports.all isKnown && imports.length == count module

def keepsTypes (module : Tree) : Bool :=
  (leading module).any fun t => (importedNames t).contains "annotations"

end DoBlocks.Host.Future
