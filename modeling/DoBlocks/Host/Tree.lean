import DoBlocks.Host.Lexeme

/-!
# Lossless syntax trees of the host language

A tree keeps every lexeme it was read from, in order: `Tree.lexemes` gives them back, and the printed
form of a tree is the surface of its lexemes. The kinds say what a node is; punctuation stays among
its children.
-/

namespace DoBlocks.Host

/-- What a node of a host tree is. -/
inductive Kind where
  -- values
  | name | constant | ellipsis | number | string | concatenated
  /-- A string with replacement fields, and one such field with its format part. -/
  | joined | field | fieldSpec
  /-- An expression in parentheses. -/
  | paren
  /-- Elements separated by commas, without and with parentheses around them. -/
  | tuple | parenTuple
  | list | set | dict | pair | unpackedPair
  | listComprehension | setComprehension | dictComprehension | generator
  /-- One `for` of a comprehension with its conditions. -/
  | comprehensionFor | comprehensionIf
  | attribute | subscript | slice | call
  | argument | generatorArgument | keywordArgument | starArgument | doubleStarArgument
  | awaited | power | unary | binary | comparison | negation | conjunction | disjunction | conditional
  | lambda | starred | named | yielded | yieldedFrom
  -- parameters
  | parameters | parameter | slashParameter | starParameter | doubleStarParameter | typeMark
  | defaultValue
  -- patterns
  | capture | wildcard | literalPattern | valuePattern | groupPattern | sequencePattern
  | openSequence | starPattern | mappingPattern | mappingItem | restPattern | classPattern
  | keywordPattern | asPattern | orPattern
  -- simple statements
  | expressionStatement | assign | augmentedAssign | annotatedAssign | returnStatement
  | raiseStatement | assertStatement | passStatement | breakStatement | continueStatement
  | deleteStatement | globalStatement | nonlocalStatement | importModules | importNames
  | importAlias | dottedName | typeAlias | typeParameters | typeParameter
  /-- Simple statements on one line, with their separators and the end of the line. -/
  | line
  -- compound statements
  | suite | conditionalStatement | elseSuite | whileLoop | forLoop | tryStatement | handler
  | starHandler | finallySuite | withStatement | withItem | function | classDefinition | decorator
  | decorated | matchStatement | caseClause | guard
  | module
  deriving Repr, DecidableEq, Inhabited

/-- A lossless syntax tree. -/
inductive Tree where
  | leaf (lexeme : Lexeme)
  | node (kind : Kind) (children : List Tree)
  deriving Repr, Inhabited

namespace Tree

mutual

def lexemes : Tree → List Lexeme
  | .leaf l => [l]
  | .node _ children => lexemesOf children

def lexemesOf : List Tree → List Lexeme
  | [] => []
  | t :: rest => t.lexemes ++ lexemesOf rest

end

theorem lexemesOf_append (ts us : List Tree) : lexemesOf (ts ++ us) = lexemesOf ts ++ lexemesOf us := by
  induction ts with
  | nil => simp [lexemesOf]
  | cons t ts ih => simp [lexemesOf, ih]

/-- Every node of the tree has children. -/
inductive Full : Tree → Prop
  | leaf (l : Lexeme) : Full (.leaf l)
  | node {k : Kind} {children : List Tree} :
    children ≠ [] → (∀ t ∈ children, Full t) → Full (.node k children)

/-- The text of a tree as written, without the gap before it. -/
def surface (t : Tree) : Surface := surfaceOf t.lexemes

def gap (t : Tree) : Surface :=
  match t.lexemes with
  | l :: _ => l.gap
  | [] => []

def kind? : Tree → Option Kind
  | .leaf _ => none
  | .node k _ => some k

def children : Tree → List Tree
  | .leaf _ => []
  | .node _ ts => ts

/-- The tree is a node of kind `k`. -/
def is (t : Tree) (k : Kind) : Bool := t.kind? == some k

/-- The children that are nodes, that is, without punctuation. -/
def parts (t : Tree) : List Tree := t.children.filter fun c => c.kind?.isSome

/-- The children of kind `k`. -/
def partsOf (t : Tree) (k : Kind) : List Tree := t.children.filter fun c => c.is k

def word? (t : Tree) : Option String :=
  match t.lexemes with
  | [l] => some l.text
  | _ => none

/-- Some child is the lexeme with text `s`. -/
def hasSign (t : Tree) (s : String) : Bool :=
  t.children.any fun
    | .leaf l => l.text == s
    | .node _ _ => false

/-- The tree without the parentheses around it. -/
def bare : Tree → Tree
  | .node .paren [_, inner, _] => inner.bare
  | t => t

end Tree

end DoBlocks.Host
