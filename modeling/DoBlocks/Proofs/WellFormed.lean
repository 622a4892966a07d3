import DoBlocks.Block

/-!
# Well-formed blocks

What can be relied on in a block that was read from a text: no generated name occurs in it, escapes
stand only where they can be lifted from, and an `if` has a branch.
-/

namespace DoBlocks

/-! ### Expressions -/

namespace Expr

@[simp] theorem hasEscape_logical (c : Connective) (opening : Host.Surface) (left : Expr)
    (before after : Host.Surface) (right : Expr) (closing : Host.Surface) :
    (logical c opening left before after right closing).hasEscape =
      (left.hasEscape || right.hasEscape) := by
  rw [hasEscape, hasEscape, hasEscape, marks]
  cases left.marks <;> rfl

@[simp] theorem hasEscape_conditional (opening : Host.Surface) (body : Expr) (ifText : Host.Surface)
    (test : Expr) (elseText : Host.Surface) (orelse : Expr) (closing : Host.Surface) :
    (conditional opening body ifText test elseText orelse closing).hasEscape =
      (body.hasEscape || test.hasEscape || orelse.hasEscape) := by
  rw [hasEscape, hasEscape, hasEscape, hasEscape, marks]
  cases body.marks <;> cases test.marks <;> rfl

theorem hasEscape_of_alwaysEscapes {e : Expr} (h : e.alwaysEscapes = true) : e.hasEscape = true := by
  induction e with
  | plain text buried => cases h
  | hidden name => cases h
  | escape text mark operand ih => rfl
  | logical c opening left before after right closing ihl ihr =>
    rw [alwaysEscapes] at h
    simp [ihl h]
  | conditional opening body ifText test elseText orelse closing ihb iht iho =>
    simp only [alwaysEscapes, Bool.or_eq_true, Bool.and_eq_true] at h
    rcases h with h | ⟨h, -⟩
    · simp [iht h]
    · simp [ihb h]

/-- No generated name occurs in the expression. -/
def written : Expr → Bool
  | plain _ _ => true
  | hidden _ => false
  | escape _ _ operand => operand.written
  | logical _ _ left _ _ right _ => left.written && right.written
  | conditional _ body _ test _ orelse _ => body.written && test.written && orelse.written

/-- A test that has to stay where it is: neither generated names nor escapes occur in it. -/
def fixed (e : Expr) : Bool := e.written && !e.hasEscape

/-- A generated name occurs in the expression, outside the operands of escapes. -/
def hasHidden : Expr → Bool
  | hidden _ => true
  | logical _ _ left _ _ right _ => left.hasHidden || right.hasHidden
  | conditional _ body _ test _ orelse _ => body.hasHidden || test.hasHidden || orelse.hasHidden
  | _ => false

theorem hasHidden_eq_false {e : Expr} (h : e.written = true) : e.hasHidden = false := by
  induction e with
  | plain text buried => rfl
  | hidden name => cases h
  | escape text mark operand ih => rfl
  | logical c opening left before after right closing ihl ihr =>
    simp only [written, Bool.and_eq_true] at h
    simp [hasHidden, ihl h.1, ihr h.2]
  | conditional opening body ifText test elseText orelse closing ihb iht iho =>
    simp only [written, Bool.and_eq_true] at h
    simp [hasHidden, ihb h.1.1, iht h.1.2, iho h.2]

end Expr

/-! ### Blocks -/

def Target.isWritten : Target → Bool
  | written _ => true
  | hidden _ => false

/-- The sink is one of the user: it raises no flag and writes to no generated name. -/
def Sink.isWritten (s : Sink) : Bool :=
  s.exitFlag.isNone &&
    match s.destination with
    | .assign targets => targets.all Target.isWritten
    | _ => true

/-- The arm takes every value. -/
def Arm.takesAll : Arm → Bool
  | .mk pattern guard _ _ _ => pattern.irrefutable && guard.isNone

variable (guards : Bool)

mutual

/-- The block is as blocks are read from a text. With `guards` a match may leave values to a
catch-all; without, its patterns have to take all of them. -/
def Block.wellFormed : Block → Bool
  | .mk statements tail _ _ =>
    statementsWellFormed statements &&
      match tail with
      | none => true
      | some t => t.wellFormed

def Tail.wellFormed : Tail → Bool
  | .value e => e.written
  | .escape e => e.value.written
  | .conditional c => c.wellFormed
  | .block b => b.wellFormed

def statementsWellFormed : List Statement → Bool
  | [] => true
  | s :: rest => s.wellFormed && statementsWellFormed rest

def Statement.wellFormed : Statement → Bool
  | .simple s _ => s.value.all Expr.written
  | .escape e => e.value.written
  | .letMatch primary source arms _ =>
    source.written && (guards || primary.irrefutable || arms.any Arm.takesAll) &&
      armsWellFormed arms
  | .conditional c => c.wellFormed
  | .whileLoop test body _ => test.fixed && body.wellFormed
  | .forLoop _ iterable body _ => iterable.written && body.wellFormed
  | .nested sink b _ => sink.isWritten && b.wellFormed

def armsWellFormed : List Arm → Bool
  | [] => true
  | .mk _ guard body _ _ :: rest =>
    guard.all Expr.fixed && body.wellFormed && armsWellFormed rest

def Conditional.wellFormed : Conditional → Bool
  | .mk branches orelse _ =>
    !branches.isEmpty && branchesWellFormed branches &&
      match orelse with
      | none => true
      | some b => b.wellFormed

def branchesWellFormed : List Branch → Bool
  | [] => true
  | .mk test body :: rest => test.written && body.wellFormed && branchesWellFormed rest

end

end DoBlocks
