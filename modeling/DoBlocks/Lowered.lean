import DoBlocks.Block

/-!
# Lowered code

Host statements that blocks are lowered to. User text and generated parts are kept apart: generated
names are `HiddenName`s, and what is written around them is not text but a constructor. `render`
writes statements at an indentation.
-/

namespace DoBlocks

/-- The values that lowering itself writes. -/
inductive Constant where
  | none
  | true
  | false
  deriving Repr, DecidableEq, Inhabited

def Constant.render : Constant → String
  | none => "None"
  | true => "True"
  | false => "False"

/-- What is assigned. -/
inductive Value where
  | expr (e : Expr)
  | constant (c : Constant)
  deriving Repr, DecidableEq, Inhabited

def Value.surface : Value → Host.Surface
  | expr e => e.surface
  | constant c => .ofString c.render

/-- What a branch or a loop tests. -/
inductive Test where
  | expr (e : Expr)
  /-- The negation of a generated name. -/
  | not (name : HiddenName)
  deriving Repr, DecidableEq, Inhabited

def Test.surface : Test → Host.Surface
  | expr e => e.surface
  | not name => .ofString ("not " ++ name.render)

/-- The last case of a match: it binds `subject` and hands it to `callee`, which never returns. -/
structure CatchAll where
  callee : HiddenName
  subject : HiddenName
  deriving Repr, DecidableEq, Inhabited

mutual

/-- A host statement. -/
inductive Lowered where
  /-- A statement of the user, perhaps with a lifted value. -/
  | simple (s : Simple)
  /-- The value of a block handed to its targets. -/
  | assign (targets : List Target) (value : Value)
  | set (name : Name) (value : Value)
  | return (value : Option Expr)
  | evaluate (e : Expr)
  | break
  | pass
  /-- `if` with `elif`s and `else`. -/
  | branch (arms : List LoweredArm) (orelse : Option (List Lowered))
  | whileLoop (test : Test) (body : List Lowered)
  | forLoop (target : Host.Surface) (iterable : Expr) (body : List Lowered)
  | matchOn (subject : Expr) (cases : List LoweredCase) (catchAll : Option CatchAll)

inductive LoweredArm where
  | mk (test : Test) (body : List Lowered)

inductive LoweredCase where
  | mk (pattern : Pattern) (guard : Option Expr) (body : List Lowered)

end

deriving instance Repr, Inhabited for Lowered, LoweredArm, LoweredCase

namespace Lowered

/-- A body is never empty. -/
def suite (stmts : List Lowered) : List Lowered := if stmts.isEmpty then [pass] else stmts

/-! ### Rendering -/

def line (margin : String) (text : Host.Surface) : String := margin ++ text.render margin ++ "\n"

/-- The word before a test: the first arm is an `if`, later ones are `elif`s. -/
def armWord (first : Bool) : Host.Surface := .ofString (if first then "if " else "elif ")

def caseHeader (pattern : Host.Surface) (guard : Option Expr) : Host.Surface :=
  .ofString "case " ++ pattern ++
    (match guard with
      | some g => .ofString " if " ++ g.surface
      | none => []) ++ .ofString ":"

def catchAllText (unit margin : String) : Option CatchAll → String
  | some c =>
    line margin (caseHeader (.ofString c.subject.render) none) ++
      line (margin ++ unit) (.ofString (c.callee.render ++ "(" ++ c.subject.render ++ ")"))
  | none => ""

mutual

/-- The text of a statement at an indentation; each level below adds `unit`. -/
def render (unit margin : String) : Lowered → String
  | simple s => line margin s.surface
  | assign targets value => line margin (targets.flatMap Target.surface ++ value.surface)
  | set name value => line margin (.ofString (name.render ++ " = ") ++ value.surface)
  | .return value =>
    line margin (match value with
      | some e => .ofString "return " ++ e.surface
      | none => .ofString "return")
  | evaluate e => line margin e.surface
  | .break => line margin (.ofString "break")
  | pass => line margin (.ofString "pass")
  | branch arms orelse =>
    renderArms unit margin true arms ++
      match orelse with
      | some body => line margin (.ofString "else:") ++ renderAll unit (margin ++ unit) body
      | none => ""
  | whileLoop test body =>
    line margin (.ofString "while " ++ test.surface ++ .ofString ":") ++
      renderAll unit (margin ++ unit) body
  | forLoop target iterable body =>
    line margin (.ofString "for " ++ target ++ .ofString " in " ++ iterable.surface ++ .ofString ":") ++
      renderAll unit (margin ++ unit) body
  | matchOn subject cases catchAll =>
    line margin (.ofString "match " ++ subject.surface ++ .ofString ":") ++
      renderCases unit (margin ++ unit) cases ++ catchAllText unit (margin ++ unit) catchAll

def renderAll (unit margin : String) : List Lowered → String
  | [] => ""
  | s :: rest => s.render unit margin ++ renderAll unit margin rest

def renderArms (unit margin : String) (first : Bool) : List LoweredArm → String
  | [] => ""
  | .mk test body :: rest =>
    line margin (armWord first ++ test.surface ++ .ofString ":") ++
      renderAll unit (margin ++ unit) body ++ renderArms unit margin false rest

def renderCases (unit margin : String) : List LoweredCase → String
  | [] => ""
  | .mk pattern guard body :: rest =>
    line margin (caseHeader pattern.text guard) ++ renderAll unit (margin ++ unit) body ++
      renderCases unit margin rest

end

end Lowered

def isMargin (s : String) : Bool := s.toList.all fun c => c == ' ' || c == '\t' || c == '\x0c'

/-- The text of statements at the indentation `base`; `none` if that is not blank. -/
def renderStatements? (stmts : List Lowered) (base unit : String) : Option String :=
  if isMargin base then some (Lowered.renderAll unit base (Lowered.suite stmts)) else none

end DoBlocks
