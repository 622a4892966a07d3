import DoBlocks.Host.Lexeme.Lexer
import DoBlocks.Host.Reading

/-!
# Imports after the prologue of a module

The prologue of a module is its documentation string and the imports from `__future__` right after
it. `insertAfterPrologue` adds one line behind it and changes nothing else.
-/

namespace DoBlocks.Prologue

open Host (Tree)

def isDocumentation (statement : Tree) : Bool :=
  statement.is .line &&
    match statement.parts with
    | [.node .expressionStatement [value]] => value.bare.is .string || value.bare.is .concatenated
    | _ => false

/-- The small statement imports from the module `__future__`. -/
def importsFuture (small : Tree) : Bool :=
  small.is .importNames &&
    (small.partsOf .dottedName).any fun name => name.word? == some "__future__"

/-- The statement is a line with an import from `__future__`. -/
def isFutureImport (statement : Tree) : Bool :=
  statement.is .line && statement.parts.any importsFuture

def length (statements : List Tree) : Nat :=
  let documentation := (statements.take 1).countP isDocumentation
  documentation + ((statements.drop documentation).takeWhile isFutureImport).length

/-- The offset at which a line can be added behind the prologue: the end of its last line, or the
first statement if it has none. -/
def stop (module : Tree) : Nat :=
  let statements := module.parts
  match length statements with
  | 0 => ((statements.flatMap Tree.lexemes).head?.map fun l => l.start).getD 0
  | n + 1 => (((statements.take (n + 1)).flatMap Tree.lexemes).getLast?.map fun l => l.stop).getD 0

def insertAfterPrologue (line text : String) : Except Host.Refusal String := do
  let module ← Host.readModule text
  let cs := text.toList
  let offset := stop module
  return String.ofList
    (cs.take offset ++ line.toList ++ Host.Lexer.firstBreak cs ++ cs.drop offset)

end DoBlocks.Prologue
