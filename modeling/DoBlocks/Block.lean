import DoBlocks.Pattern
import DoBlocks.Sink
import DoBlocks.Span

/-!
# Blocks

A block is a sequence of statements with an optional tail, which gives its value. A boundary block
(written with the block keyword) owns the escapes inside it; the bodies of compound statements and
arms are blocks too, but no boundaries.
-/

namespace DoBlocks

/-- The forms of simple statements that are told apart. -/
inductive SimpleForm where
  | expression
  | assign
  | annotated
  | return
  | raise
  | break
  | continue
  | other
  deriving Repr, DecidableEq, Inhabited

/-- A simple statement of the host language. An escape can be lifted out of its `value`: the
expression itself, the right-hand side of an assignment, or what is returned. -/
structure Simple where
  form : SimpleForm
  /-- The text before the value, or all of the text if there is no value. -/
  lead : Host.Surface
  value : Option Expr
  /-- The escapes outside the value. -/
  outside : List EscapeMark
  deriving Repr, DecidableEq, Inhabited

namespace Simple

/-- The text of a statement without the end of its line. -/
def surface (s : Simple) : Host.Surface :=
  s.lead ++ (s.value.map Expr.surface).getD []

/-- All escapes of a statement, those before the value first. -/
def marks (s : Simple) : List EscapeMark := s.outside ++ (s.value.map Expr.marks).getD []

def hasEscape (s : Simple) : Bool := !s.marks.isEmpty

def misplaced (s : Simple) : List EscapeMark :=
  s.outside ++ (s.value.map Expr.misplaced).getD []

/-- Control never continues past the statement. -/
def diverges (s : Simple) : Bool :=
  (s.value.map Expr.alwaysEscapes).getD false ||
    s.form == .return || s.form == .raise || s.form == .break || s.form == .continue

end Simple

/-- An escape that is a statement or a tail of its own. -/
structure Escape where
  value : Expr
  span : Span
  deriving Repr, DecidableEq, Inhabited

mutual

/-- Statements in order with an optional tail. -/
inductive Block where
  | mk (statements : List Statement) (tail : Option Tail) (span : Span) (boundary : Bool)

inductive Statement where
  | simple (statement : Simple) (span : Span)
  | escape (e : Escape)
  /-- Matches the value of `source`: the rest of the block runs with the names of `primary`, or one
  of the fallback arms runs. -/
  | letMatch (primary : Pattern) (source : Expr) (arms : List Arm) (span : Span)
  | conditional (c : Conditional)
  | whileLoop (test : Expr) (body : Block) (span : Span)
  | forLoop (target : Host.Surface) (iterable : Expr) (body : Block) (span : Span)
  /-- A boundary block as a statement. -/
  | nested (sink : Sink) (block : Block) (span : Span)

/-- What gives a block its value. -/
inductive Tail where
  | value (e : Expr)
  | escape (e : Escape)
  | conditional (c : Conditional)
  /-- A boundary block. -/
  | block (b : Block)

/-- Branches that are tried in order, and what is done if none is taken. -/
inductive Conditional where
  | mk (branches : List Branch) (orelse : Option Block) (span : Span)

inductive Branch where
  | mk (test : Expr) (body : Block)

/-- A fallback arm; a `shorthand` arm is written without pattern and arrow. -/
inductive Arm where
  | mk (pattern : Pattern) (guard : Option Expr) (body : Block) (span : Span) (shorthand : Bool)

end

deriving instance Repr, Inhabited for Block, Statement, Tail, Conditional, Branch, Arm

namespace Block

def statements : Block → List Statement
  | mk statements _ _ _ => statements

def tail : Block → Option Tail
  | mk _ tail _ _ => tail

def span : Block → Span
  | mk _ _ span _ => span

def boundary : Block → Bool
  | mk _ _ _ boundary => boundary

def isEmpty (b : Block) : Bool := b.statements.isEmpty && b.tail.isNone

end Block

namespace Conditional

def branches : Conditional → List Branch
  | mk branches _ _ => branches

def orelse : Conditional → Option Block
  | mk _ orelse _ => orelse

def span : Conditional → Span
  | mk _ _ span => span

end Conditional

namespace Branch

def test : Branch → Expr
  | mk test _ => test

def body : Branch → Block
  | mk _ body => body

end Branch

namespace Arm

def pattern : Arm → Pattern
  | mk pattern _ _ _ _ => pattern

def guard : Arm → Option Expr
  | mk _ guard _ _ _ => guard

def body : Arm → Block
  | mk _ _ body _ _ => body

def span : Arm → Span
  | mk _ _ _ span _ => span

def shorthand : Arm → Bool
  | mk _ _ _ _ shorthand => shorthand

end Arm

def Statement.span : Statement → Span
  | simple _ span => span
  | escape e => e.span
  | letMatch _ _ _ span => span
  | conditional c => c.span
  | whileLoop _ _ span => span
  | forLoop _ _ _ span => span
  | nested _ _ span => span

/-! ### Divergence -/

mutual

def Block.diverges : Block → Bool
  | .mk statements tail _ _ =>
    statementsDiverge statements ||
      match tail with
      | none => false
      | some (.value e) => e.alwaysEscapes
      | some (.escape _) => true
      | some (.conditional c) => c.diverges
      | some (.block _) => false

def statementsDiverge : List Statement → Bool
  | [] => false
  | s :: rest => s.diverges || statementsDiverge rest

/-- Control never continues past the statement. A loop may run no time, and after a match the rest of
the block goes on. -/
def Statement.diverges : Statement → Bool
  | .simple s _ => s.diverges
  | .escape _ => true
  | .letMatch _ _ _ _ => false
  | .conditional c => c.diverges
  | .whileLoop _ _ _ => false
  | .forLoop _ _ _ _ => false
  | .nested sink _ _ => sink.isReturn

/-- The first test always escapes, or there is an `else` and all branches diverge. -/
def Conditional.diverges : Conditional → Bool
  | .mk branches orelse _ =>
    (match branches with
      | [] => false
      | .mk test _ :: _ => test.alwaysEscapes) ||
    match orelse with
    | none => false
    | some b => branchesDiverge branches && b.diverges

def branchesDiverge : List Branch → Bool
  | [] => true
  | .mk _ body :: rest => body.diverges && branchesDiverge rest

end

/-! ### Ownership of escapes -/

mutual

/-- The block holds an escape that belongs to the boundary around it. Boundary blocks inside it own
their escapes themselves. -/
def Block.containsEscape : Block → Bool
  | .mk statements tail _ _ =>
    statementsContainEscape statements ||
      match tail with
      | none => false
      | some (.value e) => e.hasEscape
      | some (.escape _) => true
      | some (.conditional c) => c.containsEscape
      | some (.block _) => false

def statementsContainEscape : List Statement → Bool
  | [] => false
  | s :: rest => s.containsEscape || statementsContainEscape rest

def Statement.containsEscape : Statement → Bool
  | .simple s _ => s.hasEscape
  | .escape _ => true
  | .letMatch _ source arms _ => source.hasEscape || armsContainEscape arms
  | .conditional c => c.containsEscape
  | .whileLoop _ body _ => body.containsEscape
  | .forLoop _ iterable body _ => iterable.hasEscape || body.containsEscape
  | .nested _ _ _ => false

def armsContainEscape : List Arm → Bool
  | [] => false
  | .mk _ _ body _ _ :: rest => body.containsEscape || armsContainEscape rest

def Conditional.containsEscape : Conditional → Bool
  | .mk branches orelse _ =>
    branchesContainEscape branches ||
      match orelse with
      | none => false
      | some b => b.containsEscape

def branchesContainEscape : List Branch → Bool
  | [] => false
  | .mk test body :: rest => test.hasEscape || body.containsEscape || branchesContainEscape rest

end

/-! ### Simple statements from trees -/

namespace Host.Tree

/-- The text of the trees before the last one, with the gap before the last. -/
def leadText : List Tree → Surface
  | [] => []
  | [_] => []
  | first :: rest =>
    surfaceOf ((first :: rest).dropLast.flatMap lexemes) ++ (rest.getLast?.map gap).getD []

/-- A statement whose value is its last part. -/
def valueLast (form : SimpleForm) (children : List Tree) : Simple :=
  match children.getLast? with
  | some v => ⟨form, leadText children, some v.toExpr, escapeMarksOf children.dropLast⟩
  | none => ⟨form, [], none, []⟩

/-- A statement without a value. -/
def valueless (form : SimpleForm) (t : Tree) : Simple := ⟨form, t.surface, none, t.escapeMarks⟩

def toSimple (t : Tree) : Simple :=
  match t with
  | .node .expressionStatement children => valueLast .expression children
  | .node .assign children => valueLast .assign children
  | .node .annotatedAssign children =>
    if t.hasSign "=" then valueLast .annotated children else valueless .annotated t
  | .node .returnStatement children =>
    if t.parts.isEmpty then valueless .return t else valueLast .return children
  | .node .raiseStatement _ => valueless .raise t
  | .node .breakStatement _ => valueless .break t
  | .node .continueStatement _ => valueless .continue t
  | t => valueless .other t

end Host.Tree

end DoBlocks
