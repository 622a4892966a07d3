import DoBlocks.Lowered
import DoBlocks.Proofs.Program

/-!
# The meaning of blocks

An `Interpretation` says what the host does with the leaves of a block: expressions without escapes,
patterns, simple statements, assignment targets and loop iterators. Each leaf acts on the state of the
user; an action may have several ends or none. Everything else is fixed here:

* the statements of a block run in order, and its tail, or `None`, is its value;
* a match runs the rest of the block if its pattern accepts the value, else the first arm that takes
  the value, and raises if there is none;
* an escape makes its operand the value of the nearest boundary block around it;
* the value of a boundary block is handed to its sink.

The lowered code is not mentioned; it is run in `DoBlocks.Proofs.Execution`.
-/

namespace DoBlocks

open Program

/-- What the host does with a leaf: from a state it comes to a value or an exception, and a state. -/
def Action (σ V α : Type) : Type := σ → Except V α → σ → Prop

/-- The end of a program that an action comes to. -/
def Action.toEnd {V E α : Type} : Except V α → Except (Exit V E) α
  | .ok a => .ok a
  | .error v => .error (.raise v)

/-- An action as a program. -/
def Action.run {σ V E α : Type} (a : Action σ V α) : Program σ V E α :=
  fun s r s' => ∃ x, a s x s' ∧ r = toEnd x

/-- A meaning for the leaves of blocks, over states `σ`, values `V` and iterators `ι`. Exceptions are
values. Where the control flow of a statement is fixed by its form, the host only gives the value that
is returned or raised. -/
structure Interpretation (σ V ι : Type) where
  truthy : V → Bool
  constant : Constant → V
  truthy_true : truthy (constant .true) = true
  truthy_false : truthy (constant .false) = false
  /-- What the function that a catch-all calls raises for the value it is given. -/
  unmatched : V → V
  /-- What is raised where a name without a value is read. -/
  unbound : String → V
  /-- The value of an expression without escapes. -/
  evaluate : Expr → Action σ V V
  /-- What a simple statement without escapes does, and the value it returns or raises if it does. -/
  perform : Simple → Action σ V V
  /-- A simple statement of the given form and text whose value is known already. -/
  complete : SimpleForm → Host.Surface → V → Action σ V V
  /-- Tries a pattern on a value. -/
  accept : Pattern → V → Action σ V Bool
  accept_irrefutable : ∀ {p : Pattern} {v : V} {s s' : σ},
    p.irrefutable = true → ¬ accept p v s (.ok false) s'
  /-- Assigns a value to a target of the user. -/
  assign : Host.Surface → V → Action σ V Unit
  /-- Starts a loop over a value. -/
  iterate : V → Action σ V ι
  /-- Draws the next item of a loop into its target; without one the loop is over. -/
  advance : Host.Surface → ι → Action σ V (Option ι)

namespace Interpretation

variable {σ V ι S E : Type} (I : Interpretation σ V ι)

/-- The left operand of a connective decides, so that the right one is not evaluated. -/
def decides (c : Connective) (v : V) : Bool :=
  match c with
  | .or => I.truthy v
  | .and => !I.truthy v

/-! ### Expressions and simple statements -/

/-- An expression: escapes leave it with the value of their operand. -/
def expression : Expr → Program σ V V V
  | .escape _ _ operand => do
    let v ← expression operand
    leave (.escape v)
  | .logical c opening left before after right closing =>
    if left.hasEscape || right.hasEscape then do
      let v ← expression left
      if I.decides c v then pure v else expression right
    else (I.evaluate (.logical c opening left before after right closing)).run
  | .conditional opening body ifText test elseText orelse closing =>
    if body.hasEscape || test.hasEscape || orelse.hasEscape then do
      let v ← expression test
      if I.truthy v then expression body else expression orelse
    else (I.evaluate (.conditional opening body ifText test elseText orelse closing)).run
  | e => (I.evaluate e).run

/-- Where control goes after a simple statement of the given form that came to the value `v`. -/
def transfer (form : SimpleForm) (v : V) : Program S V E Unit :=
  match form with
  | .break => leave .break
  | .continue => leave .continue
  | .return => leave (.return v)
  | .raise => leave (.raise v)
  | _ => pure ()

/-- What a simple statement comes to: if its value holds an escape, the value is computed first. -/
def simpleValue (s : Simple) : Program σ V V V :=
  match s.value with
  | some e =>
    if e.hasEscape then I.expression e >>= fun v => (I.complete s.form s.lead v).run
    else (I.perform s).run
  | none => (I.perform s).run

theorem simpleValue_of_hasEscape {s : Simple} {e : Expr} (hv : s.value = some e)
    (he : e.hasEscape = true) :
    I.simpleValue s = I.expression e >>= fun v => (I.complete s.form s.lead v).run := by
  rw [simpleValue, hv]
  exact if_pos he

theorem simpleValue_of_not_hasEscape {s : Simple} (h : ∀ e, s.value = some e → e.hasEscape = false) :
    I.simpleValue s = (I.perform s).run := by
  unfold simpleValue
  split
  · rw [h _ ‹_›]
    rfl
  · rfl

/-- A simple statement. -/
def simple (s : Simple) : Program σ V V Unit := I.simpleValue s >>= transfer s.form

/-! ### Sinks -/

/-- Assigns a value to targets from left to right. A generated name is none of the user's. -/
def assignTargets (v : V) : List Target → Program σ V E Unit
  | [] => pure ()
  | .written text :: rest => (I.assign text v).run >>= fun _ => assignTargets v rest
  | .hidden _ :: rest => assignTargets v rest

/-- Hands a value to a sink. -/
def hand (sink : Sink) (v : V) : Program σ V E Unit :=
  match sink.destination with
  | .assign targets => I.assignTargets v targets
  | .return => leave (.return v)
  | .discard => pure ()

/-! ### Blocks -/

/-- The value of a test. -/
def test (e : Expr) : Program σ V V Bool := do
  let v ← I.expression e
  pure (I.truthy v)

/-- The pattern of an arm accepts the value, and its guard holds. -/
def takes (pattern : Pattern) (guard : Option Expr) (v : V) : Program σ V V Bool := do
  if ← (I.accept pattern v).run then
    match guard with
    | some g => I.test g
    | none => pure true
  else pure false

/-- Runs `body` while the test holds. -/
def whileOver (test : Expr) (body : Program σ V V V) : Program σ V V Unit :=
  loop (fun _ : Unit => do
    if ← I.test test then mapEnd (tripEnd ()) (body >>= fun _ => pure ()) else pure none) ()

/-- Runs `body` for the items that are still to come. -/
def forOver (target : Host.Surface) (i : ι) (body : Program σ V V V) : Program σ V V Unit :=
  loop (fun i => do
    match ← (I.advance target i).run with
    | some j => mapEnd (tripEnd j) (body >>= fun _ => pure ())
    | none => pure none) i

mutual

/-- The value of a block. -/
def block : Block → Program σ V V V
  | .mk ss tail _ _ =>
    statements
      (match tail with
        | none => pure (I.constant .none)
        | some t => tailValue t)
      ss

/-- Statements in order; `finish` gives the value after them. -/
def statements (finish : Program σ V V V) : List Statement → Program σ V V V
  | [] => finish
  | .simple s _ :: rest => I.simple s >>= fun _ => statements finish rest
  | .escape e :: _ => I.expression e.value >>= fun v => leave (.escape v)
  | .letMatch primary source arms _ :: rest => do
    let v ← I.expression source
    if ← (I.accept primary v).run then statements finish rest else fallback v arms
  | .conditional c :: rest => conditional c >>= fun _ => statements finish rest
  | .whileLoop test body _ :: rest => do
    I.whileOver test (block body)
    statements finish rest
  | .forLoop target iterable body _ :: rest => do
    let v ← I.expression iterable
    let i ← (I.iterate v).run
    I.forOver target i (block body)
    statements finish rest
  | .nested sink b _ :: rest => do
    let v ← caught (block b)
    I.hand sink v
    statements finish rest

/-- The value of a tail. -/
def tailValue : Tail → Program σ V V V
  | .value e => I.expression e
  | .escape e => I.expression e.value >>= fun v => leave (.escape v)
  | .conditional c => conditional c
  | .block b => caught (block b)

/-- The first arm that takes a value runs; without one it is an exception. -/
def fallback (v : V) : List Arm → Program σ V V V
  | [] => leave (.raise (I.unmatched v))
  | .mk pattern guard body _ _ :: rest => do
    if ← I.takes pattern guard v then block body else fallback v rest

/-- The value of the branch that is taken; `None` if there is none. -/
def conditional : Conditional → Program σ V V V
  | .mk bs orelse _ =>
    branches
      (match orelse with
        | some b => block b
        | none => pure (I.constant .none))
      bs

/-- The first branch whose test holds runs, and `other` if none does. -/
def branches (other : Program σ V V V) : List Branch → Program σ V V V
  | [] => other
  | .mk test body :: rest => do
    if ← I.test test then block body else branches other rest

end

/-- A boundary block with the sink its value is handed to. -/
def boundary (sink : Sink) (b : Block) : Program σ V V Unit := do
  let v ← caught (I.block b)
  I.hand sink v

end Interpretation

/-- An interpretation that counts the leaves it runs: expressions are true every other time, patterns
that can refuse a value do so, and loops end at once. -/
def counting : Interpretation Nat Bool Unit where
  truthy v := v
  constant c := c == .true
  truthy_true := rfl
  truthy_false := rfl
  unmatched v := v
  unbound _ := false
  evaluate _ n r n' := r = .ok (n % 2 == 0) ∧ n' = n + 1
  perform _ n r n' := r = .ok true ∧ n' = n + 1
  complete _ _ v n r n' := r = .ok v ∧ n' = n + 1
  accept p _ n r n' := r = .ok p.irrefutable ∧ n' = n + 1
  accept_irrefutable hp h := by
    rw [hp] at h
    cases h.1
  assign _ _ n r n' := r = .ok () ∧ n' = n + 1
  iterate _ n r n' := r = .ok () ∧ n' = n + 1
  advance _ _ n r n' := r = .ok none ∧ n' = n + 1

end DoBlocks
