import DoBlocks.Host.Grammar

/-!
# Accepted host text

Fragments are read with the tolerant grammar. A few texts that the grammar admits are refused for
how they are written: byte strings next to other strings, a parameter right after `lambda`, and a
number right after a word.
-/

namespace DoBlocks.Host

/-- Why host text is refused. -/
inductive Refusal where
  | grammar
  /-- The text is grammatical and badly written. -/
  | spelling
  deriving Repr, DecidableEq, Inhabited

namespace Tree

def isBytes (t : Tree) : Bool :=
  match t.lexemes with
  | l :: _ => (l.text.toList.takeWhile Char.isAlpha).any fun c => c == 'b' || c == 'B'
  | [] => false

/-- Some number follows a word with no gap. -/
def numberAfterWord : List Lexeme → Bool
  | a :: b :: rest =>
    (a.kind == .name && b.kind == .number && b.gap.isEmpty) || numberAfterWord (b :: rest)
  | _ => false

def nodeWellSpelled (k : Kind) (children : List Tree) : Bool :=
  match k, children with
  | .concatenated, first :: rest => rest.all fun t => t.isBytes == first.isBytes
  | .lambda, _ :: second :: _ =>
    !(second.is .parameters && second.gap.isEmpty &&
      second.children.any fun p => p.kind?.isSome)
  | _, _ => true

mutual

def nodesWellSpelled : Tree → Bool
  | .leaf _ => true
  | .node k children => nodeWellSpelled k children && allWellSpelled children

def allWellSpelled : List Tree → Bool
  | [] => true
  | t :: rest => t.nodesWellSpelled && allWellSpelled rest

end

def wellSpelled (t : Tree) : Bool := t.nodesWellSpelled && !numberAfterWord t.lexemes

end Tree

/-- Accepts a tree that was read if it is well written. -/
def accepted (t? : Option Tree) : Except Refusal Tree :=
  match t? with
  | none => .error .grammar
  | some t => if t.wellSpelled then .ok t else .error .spelling

def readExpression (text : String) : Except Refusal Tree := accepted (expression? .tolerant text)

def readStatement (text : String) : Except Refusal Tree := accepted (statement? .tolerant text)

def readModule (text : String) : Except Refusal Tree := accepted (module? .tolerant text)

end DoBlocks.Host
