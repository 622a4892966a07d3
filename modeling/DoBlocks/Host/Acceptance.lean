import DoBlocks.Host.Acceptance.Fields
import DoBlocks.Host.Acceptance.Future
import DoBlocks.Host.Acceptance.Placement

/-!
# Modules the host accepts

The host accepts a module that its grammar describes and that does not nest too deep, whose literals
have values, and which keeps the rules about imports from `__future__`, about scopes, and about what
may stand where.
-/

namespace DoBlocks.Host

namespace Acceptance

/-- The change of depth that a lexeme brings, given the lexemes that open and those that close. -/
def depthAfter (opens closes : Lexeme → Bool) (depth : Nat) (l : Lexeme) : Nat :=
  if opens l then depth + 1 else if closes l then depth - 1 else depth

/-- The depth never goes above `limit`. -/
def staysWithin (limit : Nat) (opens closes : Lexeme → Bool) : Nat → List Lexeme → Bool
  | _, [] => true
  | depth, l :: rest =>
    let next := depthAfter opens closes depth l
    decide (next ≤ limit) && staysWithin limit opens closes next rest

def maxBrackets : Nat := 200

def maxLevels : Nat := 99

/-- Brackets and indentation do not nest too deep. -/
def nestingFits (lexemes : List Lexeme) : Bool :=
  staysWithin maxBrackets
    (fun l => l.isOperator "(" || l.isOperator "[" || l.isOperator "\x7b")
    (fun l => l.isOperator ")" || l.isOperator "]" || l.isOperator "\x7d") 0 lexemes &&
  staysWithin maxLevels (fun l => l.kind == .indent) (fun l => l.kind == .dedent) 0 lexemes

def rulesHold (module : Tree) : Bool :=
  nestingFits module.lexemes &&
  match Fields.resolve module with
  | none => false
  | some m =>
    let texts := Future.keepsTypes m
    Future.fits m && scopesFit texts m && Placement.fits texts .top m

end Acceptance

def accepts (text : String) : Bool :=
  !text.toList.contains '\x00' &&
  match module? .strict text with
  | none => false
  | some m => Acceptance.rulesHold m

end DoBlocks.Host
