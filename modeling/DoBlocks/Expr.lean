import DoBlocks.Hidden
import DoBlocks.Host.Tree

/-!
# Host expressions with escapes

An escape inside a host expression is written as a call of `escapeCallee` with two arguments: the
operand and a number that tells which marker of the text it stands for. `Expr` shows of an
expression only what matters for escapes: the operands of `and`, `or` and conditional expressions,
from which an escape can be lifted without a change of evaluation order. All other text is `plain`;
the escapes buried in it are misplaced.
-/

namespace DoBlocks

def escapeCallee : String := "__letmatch_escape__"

abbrev EscapeMark := String

inductive Connective where
  | and
  | or
  deriving Repr, DecidableEq, Inhabited

def Connective.render : Connective → String
  | and => "and"
  | or => "or"

def Connective.ofWord? (w : String) : Option Connective :=
  if w == "and" then some and else if w == "or" then some or else none

/-- A host expression. Parentheses around a compound expression are its `opening` and `closing`. -/
inductive Expr where
  /-- Host text; `buried` lists the escapes inside it. -/
  | plain (text : Host.Surface) (buried : List EscapeMark)
  /-- A generated name. -/
  | hidden (name : HiddenName)
  /-- An escape, with its whole text. -/
  | escape (text : Host.Surface) (mark : EscapeMark) (operand : Expr)
  /-- Two operands joined by a connective that stands between `before` and `after`. -/
  | logical (connective : Connective) (opening : Host.Surface) (left : Expr)
      (before after : Host.Surface) (right : Expr) (closing : Host.Surface)
  /-- `body if test else orelse`; `ifText` and `elseText` are the words with the gaps around them. -/
  | conditional (opening : Host.Surface) (body : Expr) (ifText : Host.Surface) (test : Expr)
      (elseText : Host.Surface) (orelse : Expr) (closing : Host.Surface)
  deriving Repr, DecidableEq, Inhabited

namespace Expr

def surface : Expr → Host.Surface
  | plain text _ => text
  | hidden name => .ofString name.render
  | escape text _ _ => text
  | logical c opening left before after right closing =>
    opening ++ left.surface ++ before ++ .ofString c.render ++ after ++ right.surface ++ closing
  | conditional opening body ifText test elseText orelse closing =>
    opening ++ body.surface ++ ifText ++ test.surface ++ elseText ++ orelse.surface ++ closing

/-- All escapes of an expression, in the order they are written. -/
def marks : Expr → List EscapeMark
  | plain _ buried => buried
  | hidden _ => []
  | escape _ mark operand => mark :: operand.marks
  | logical _ _ left _ _ right _ => left.marks ++ right.marks
  | conditional _ body _ test _ orelse _ => body.marks ++ test.marks ++ orelse.marks

def hasEscape (e : Expr) : Bool := !e.marks.isEmpty

/-- The escapes that cannot be lifted, in the order of evaluation. -/
def misplaced : Expr → List EscapeMark
  | plain _ buried => buried
  | hidden _ => []
  | escape _ _ operand => operand.misplaced
  | logical _ _ left _ _ right _ => left.misplaced ++ right.misplaced
  | conditional _ body _ test _ orelse _ => test.misplaced ++ body.misplaced ++ orelse.misplaced

def alwaysEscapes : Expr → Bool
  | plain _ _ => false
  | hidden _ => false
  | escape _ _ _ => true
  | logical _ _ left _ _ _ _ => left.alwaysEscapes
  | conditional _ body _ test _ orelse _ =>
    test.alwaysEscapes || (body.alwaysEscapes && orelse.alwaysEscapes)

/-- The text may follow a word with no gap: it does not begin with a generated name. -/
def fitsAfterWord : Expr → Bool
  | hidden _ => false
  | logical _ opening left _ _ _ _ => !opening.isEmpty || left.fitsAfterWord
  | _ => true

def isHidden : Expr → Bool
  | hidden _ => true
  | _ => false

end Expr

/-! ### Reading expressions off trees -/

namespace Host.Tree

/-- A number literal without fraction, exponent and imaginary mark. -/
def isIntegerText (s : String) : Bool :=
  let cs := s.toList.map Char.toLower
  ['0', 'x'].isPrefixOf cs || !cs.any fun c => c == '.' || c == 'e' || c == 'j'

def argumentValue? (t : Tree) : Option Tree := t.children.getLast?

/-- The mark of an escape call: two arguments of any form to `escapeCallee`, the second an integer. -/
def escapeMark? (t : Tree) : Option EscapeMark :=
  match t.kind?, t.parts with
  | some .call, [callee, _, second] =>
    if callee.bare.is .name && callee.bare.word? == some escapeCallee then
      match second.argumentValue? with
      | some v =>
        if v.bare.is .number then v.bare.word?.filter isIntegerText else none
      | none => none
    else none
  | _, _ => none

mutual

/-- The escapes inside a tree, in the order they are written. -/
def escapeMarks : Tree → List EscapeMark
  | .leaf _ => []
  | .node k children => (escapeMark? (.node k children)).toList ++ escapeMarksOf children

def escapeMarksOf : List Tree → List EscapeMark
  | [] => []
  | t :: rest => t.escapeMarks ++ escapeMarksOf rest

end

mutual

/-- The expression a tree stands for, inside the parentheses `opening` and `closing`. -/
def exprWithin (opening closing : Surface) : Tree → Expr
  | .leaf l => .plain (opening ++ l.surface ++ closing) []
  | .node k children =>
    match k, children with
    | .paren, [.leaf l, inner, .leaf r] =>
      exprWithin (opening ++ l.surface ++ inner.gap) (r.gap ++ r.surface ++ closing) inner
    | .disjunction, [left, .leaf w, right] | .conjunction, [left, .leaf w, right] =>
      match Connective.ofWord? w.text with
      | some c =>
        .logical c opening (exprWithin [] [] left) w.gap right.gap (exprWithin [] [] right) closing
      | none => .plain (opening ++ surface (.node k children) ++ closing) (escapeMarksOf children)
    | .conditional, [body, .leaf i, test, .leaf e, orelse] =>
      .conditional opening (exprWithin [] [] body) (i.gap ++ i.surface ++ test.gap)
        (exprWithin [] [] test) (e.gap ++ e.surface ++ orelse.gap) (exprWithin [] [] orelse) closing
    | k, children =>
      let text := opening ++ surface (.node k children) ++ closing
      match escapeMark? (.node k children), children with
      | some mark, _ :: _ :: .node _ argument :: _ => .escape text mark (lastExpr argument)
      | _, _ => .plain text (escapeMarksOf children)

/-- The expression the last of consecutive trees stands for. -/
def lastExpr : List Tree → Expr
  | [] => .plain [] []
  | [t] => exprWithin [] [] t
  | _ :: rest => lastExpr rest

end

def toExpr (t : Tree) : Expr := exprWithin [] [] t

end Host.Tree

end DoBlocks
