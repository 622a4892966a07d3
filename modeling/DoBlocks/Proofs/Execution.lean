import DoBlocks.Proofs.Meaning
import DoBlocks.Proofs.WellFormed

/-!
# Running lowered code

Lowered statements act on the state of the user and on a `Store` with the values of the generated
names. Text of the user acts on its state alone, through the same `Interpretation` that gives blocks
their meaning, so it neither reads nor writes a generated name. Generated names are told apart by how
they are written.
-/

namespace DoBlocks

open Program

/-- The values of the generated names. -/
def Store (V : Type) : Type := String → Option V

namespace Store

variable {V : Type}

/-- No generated name has a value. -/
def empty : Store V := fun _ => none

/-- Gives a name a value. -/
def write (H : Store V) (name : String) (v : V) : Store V :=
  fun n => if n = name then some v else H n

@[simp] theorem write_self (H : Store V) (name : String) (v : V) : H.write name v name = some v :=
  if_pos rfl

theorem write_ne {n name : String} (h : n ≠ name) (H : Store V) (v : V) : H.write name v n = H n :=
  if_neg h

end Store

namespace Program

variable {σ V E α : Type}

/-- A program of the user leaves the generated names alone. -/
def onUser (m : Program σ V E α) : Program (σ × Store V) V E α :=
  fun s r s' => m s.1 r s'.1 ∧ s'.2 = s.2

/-- Gives a generated name a value. -/
def write (name : HiddenName) (v : V) : Program (σ × Store V) V E Unit :=
  fun s r s' => r = .ok () ∧ s' = (s.1, s.2.write name.render v)

end Program

/-- Lowered code has no escapes left. -/
abbrev Code (σ V α : Type) : Type := Program (σ × Store V) V Empty α

namespace Interpretation

variable {σ V ι : Type} (I : Interpretation σ V ι)

/-- The value of a generated name. -/
def read (name : HiddenName) : Code σ V V := fun s r s' =>
  s' = s ∧ r =
    match s.2 name.render with
    | some v => .ok v
    | none => .error (.raise (I.unbound name.render))

/-! ### Expressions and simple statements -/

/-- The value of an expression: text with generated names in it is evaluated part by part. -/
def evalExpr : Expr → Code σ V V
  | .hidden name => I.read name
  | .logical c opening left before after right closing =>
    if left.hasHidden || right.hasHidden then do
      let v ← evalExpr left
      if I.decides c v then pure v else evalExpr right
    else onUser (I.evaluate (.logical c opening left before after right closing)).run
  | .conditional opening body ifText test elseText orelse closing =>
    if body.hasHidden || test.hasHidden || orelse.hasHidden then do
      let v ← evalExpr test
      if I.truthy v then evalExpr body else evalExpr orelse
    else onUser (I.evaluate (.conditional opening body ifText test elseText orelse closing)).run
  | e => onUser (I.evaluate e).run

def evalValue : Value → Code σ V V
  | .expr e => I.evalExpr e
  | .constant c => pure (I.constant c)

def evalTest : Test → Code σ V Bool
  | .expr e => I.evalExpr e >>= fun v => pure (I.truthy v)
  | .not name => I.read name >>= fun v => pure (!I.truthy v)

/-- What a simple statement comes to: if generated names occur in its value, the value is computed
first. -/
def evalSimple (s : Simple) : Code σ V V :=
  match s.value with
  | some e =>
    if e.hasHidden then I.evalExpr e >>= fun v => onUser (I.complete s.form s.lead v).run
    else onUser (I.perform s).run
  | none => onUser (I.perform s).run

theorem evalSimple_of_hasHidden {s : Simple} {e : Expr} (hv : s.value = some e)
    (he : e.hasHidden = true) :
    I.evalSimple s = I.evalExpr e >>= fun v => onUser (I.complete s.form s.lead v).run := by
  rw [evalSimple, hv]
  exact if_pos he

theorem evalSimple_of_not_hasHidden {s : Simple} (h : ∀ e, s.value = some e → e.hasHidden = false) :
    I.evalSimple s = onUser (I.perform s).run := by
  unfold evalSimple
  split
  · rw [h _ ‹_›]
    rfl
  · rfl

/-! ### Assignments -/

/-- Assigns a value to targets from left to right. -/
def writeTargets (v : V) : List Target → Code σ V Unit
  | [] => pure ()
  | .written text :: rest => onUser (I.assign text v).run >>= fun _ => writeTargets v rest
  | .hidden name :: rest => write name v >>= fun _ => writeTargets v rest

/-- Gives a name a value. -/
def setName (name : Name) (v : V) : Code σ V Unit :=
  match name with
  | .written s => onUser (I.assign (.ofString (s ++ " = ")) v).run
  | .hidden n => write n v

/-! ### Statements -/

/-- The pattern of a case accepts the value, and its guard holds. -/
def selects (pattern : Pattern) (guard : Option Expr) (v : V) : Code σ V Bool := do
  if ← onUser (I.accept pattern v).run then
    match guard with
    | some g => I.evalTest (.expr g)
    | none => pure true
  else pure false

/-- The last case of a match, which takes every value and raises; without it a match that takes no
case is over. -/
def execCatchAll (v : V) : Option CatchAll → Code σ V Unit
  | some c => write c.subject v >>= fun _ => leave (.raise (I.unmatched v))
  | none => pure ()

/-- Runs `body` for the items that are still to come. -/
def execFor (target : Host.Surface) (i : ι) (body : Code σ V Unit) : Code σ V Unit :=
  loop (fun i => do
    match ← onUser (I.advance target i).run with
    | some j => mapEnd (tripEnd j) body
    | none => pure none) i

/-- Runs `body` while the test holds. -/
def execWhile (test : Test) (body : Code σ V Unit) : Code σ V Unit :=
  loop (fun _ : Unit => do
    if ← I.evalTest test then mapEnd (tripEnd ()) body else pure none) ()

mutual

/-- Runs a statement. -/
def exec : Lowered → Code σ V Unit
  | .simple s => I.evalSimple s >>= transfer s.form
  | .assign targets value => I.evalValue value >>= fun v => I.writeTargets v targets
  | .set name value => I.evalValue value >>= fun v => I.setName name v
  | .return none => leave (.return (I.constant .none))
  | .return (some e) => I.evalExpr e >>= fun v => leave (.return v)
  | .evaluate e => I.evalExpr e >>= fun _ => pure ()
  | .break => leave .break
  | .pass => pure ()
  | .branch arms orelse =>
    execArms
      (match orelse with
        | some body => execAll body
        | none => pure ())
      arms
  | .whileLoop test body => I.execWhile test (execAll body)
  | .forLoop target iterable body => do
    let v ← I.evalExpr iterable
    let i ← onUser (I.iterate v).run
    I.execFor target i (execAll body)
  | .matchOn subject cases catchAll => do
    let v ← I.evalExpr subject
    execCases v (I.execCatchAll v catchAll) cases

/-- Runs statements in order. -/
def execAll : List Lowered → Code σ V Unit
  | [] => pure ()
  | s :: rest => exec s >>= fun _ => execAll rest

/-- Runs the first arm whose test holds, and `other` if none does. -/
def execArms (other : Code σ V Unit) : List LoweredArm → Code σ V Unit
  | [] => other
  | .mk test body :: rest => do
    if ← I.evalTest test then execAll body else execArms other rest

/-- Runs the first case that takes the value, and `other` if none does. -/
def execCases (v : V) (other : Code σ V Unit) : List LoweredCase → Code σ V Unit
  | [] => other
  | .mk pattern guard body :: rest => do
    if ← I.selects pattern guard v then execAll body else execCases v other rest

end

@[simp] theorem execAll_nil : I.execAll [] = pure () := rfl

theorem execAll_cons (s : Lowered) (rest : List Lowered) :
    I.execAll (s :: rest) = I.exec s >>= fun _ => I.execAll rest := rfl

theorem execAll_singleton (s : Lowered) : I.execAll [s] = I.exec s := by
  rw [execAll_cons, execAll_nil]
  exact bind_pure_unit

theorem execAll_append (xs ys : List Lowered) :
    I.execAll (xs ++ ys) = I.execAll xs >>= fun _ => I.execAll ys := by
  induction xs with
  | nil => rw [List.nil_append, execAll_nil, pure_bind]
  | cons s rest ih => rw [List.cons_append, execAll_cons, execAll_cons, ih, bind_assoc]

/-- A `while` loop tests, runs its body and starts again, unless it is left. -/
theorem execWhile_eq (test : Test) (body : Code σ V Unit) :
    I.execWhile test body = I.evalTest test >>= fun b =>
      (if b then mapEnd (tripEnd ()) body else pure none) >>= fun
        | some _ => I.execWhile test body
        | none => pure () := by
  conv => lhs; rw [execWhile, loop_eq, bind_assoc]
  refine bind_congr fun b => bind_congr fun o => ?_
  cases o <;> rfl

/-- The `pass` of an empty body does nothing. -/
theorem execAll_suite (stmts : List Lowered) :
    I.execAll (Lowered.suite stmts) = I.execAll stmts := by
  cases stmts with
  | nil => exact I.execAll_singleton .pass
  | cons s rest => rfl

end Interpretation

end DoBlocks
