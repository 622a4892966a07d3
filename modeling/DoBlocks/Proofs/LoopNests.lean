import DoBlocks.Proofs.Accounts
import DoBlocks.Proofs.Constructs
import DoBlocks.Proofs.Place
import DoBlocks.Proofs.Provenance

/-!
# Loop control and the loops around it

Of a block and of lowered code only loop control of the user and the loops are looked at, one inside another
and in the order of the code. Seen so, lowered code is the block with the loops of wrappers put around parts of
it in which no loop control stands outside a loop.
-/

namespace DoBlocks

/-- `break` or `continue`. -/
def SimpleForm.isControl : SimpleForm → Bool
  | .break | .continue => true
  | _ => false

theorem SimpleForm.isControl_iff {form : SimpleForm} :
    form.isControl = true ↔ form = .break ∨ form = .continue := by
  cases form <;> simp [isControl]

/-- Loop control, and loops of the kind `ℓ` with what is inside them. -/
inductive Nest (ℓ : Type) where
  | control (form : SimpleForm) (text : Host.Surface)
  | loop (loop : ℓ) (inside : List (Nest ℓ))

namespace Nest

variable {ℓ : Type}

/-- Loop control stands outside the loops. -/
def hasControl (xs : List (Nest ℓ)) : Bool := xs.any fun
  | control _ _ => true
  | loop _ _ => false

@[simp] theorem hasControl_nil : hasControl ([] : List (Nest ℓ)) = false := rfl

@[simp] theorem hasControl_loop (l : ℓ) (inside xs : List (Nest ℓ)) :
    hasControl (loop l inside :: xs) = hasControl xs := rfl

@[simp] theorem hasControl_append (xs ys : List (Nest ℓ)) :
    hasControl (xs ++ ys) = (hasControl xs || hasControl ys) := List.any_append

/-- Loop control and the innermost loop around it; `around` is the loop around all of it. -/
structure Target (ℓ : Type) where
  form : SimpleForm
  text : Host.Surface
  loop : Option ℓ

mutual

def targets (around : Option ℓ) : Nest ℓ → List (Target ℓ)
  | control form text => [⟨form, text, around⟩]
  | loop l inside => targetsOf (some l) inside

/-- The loop control in order, each with its innermost loop. -/
def targetsOf (around : Option ℓ) : List (Nest ℓ) → List (Target ℓ)
  | [] => []
  | x :: rest => targets around x ++ targetsOf around rest

end

theorem targetsOf_append (around : Option ℓ) (xs ys : List (Nest ℓ)) :
    targetsOf around (xs ++ ys) = targetsOf around xs ++ targetsOf around ys := by
  induction xs with
  | nil => rfl
  | cons x rest ih => rw [List.cons_append, targetsOf, targetsOf, ih, List.append_assoc]

/-- Where all loop control is in loops, what is around does not matter. -/
theorem targetsOf_eq_of_not_hasControl {xs : List (Nest ℓ)} (h : hasControl xs = false)
    (around around' : Option ℓ) : targetsOf around xs = targetsOf around' xs := by
  induction xs with
  | nil => rfl
  | cons x rest ih =>
    cases x with
    | control form text => cases h
    | loop l inside => rw [targetsOf, targetsOf, ih h, targets, targets]

end Nest

/-! ### Blocks -/

/-- Loop control is written unless its value always escapes. -/
def Simple.nests (s : Simple) : List (Nest Statement) :=
  if s.form.isControl && !(s.value.map Expr.alwaysEscapes).getD false then [.control s.form s.lead] else []

mutual

/-- The loop control and the loops of a block that are lowered, in their order. -/
def Block.nests : Block → List (Nest Statement)
  | .mk statements tail _ _ =>
    statementsNests
      (match tail with
        | none => []
        | some t => t.nests)
      statements

/-- Those of statements and of what comes after them. Nothing is lowered after a statement that diverges. -/
def statementsNests (finish : List (Nest Statement)) : List Statement → List (Nest Statement)
  | [] => finish
  | .simple s _ :: rest => s.nests ++ if s.diverges then [] else statementsNests finish rest
  | .escape _ :: _ => []
  | .letMatch _ source arms _ :: rest =>
    if source.alwaysEscapes then [] else statementsNests finish rest ++ armsNests arms
  | .conditional c :: rest => c.nests ++ if c.diverges then [] else statementsNests finish rest
  | .whileLoop test body span :: rest =>
    .loop (.whileLoop test body span) body.nests :: statementsNests finish rest
  | .forLoop target iterable body span :: rest =>
    (if iterable.alwaysEscapes then [] else [.loop (.forLoop target iterable body span) body.nests]) ++
      statementsNests finish rest
  | .nested sink b _ :: rest => b.nests ++ if sink.isReturn then [] else statementsNests finish rest

def Tail.nests : Tail → List (Nest Statement)
  | .conditional c => c.nests
  | .block b => b.nests
  | _ => []

def armsNests : List Arm → List (Nest Statement)
  | [] => []
  | .mk _ _ body _ _ :: rest => body.nests ++ armsNests rest

def Conditional.nests : Conditional → List (Nest Statement)
  | .mk branches orelse _ =>
    if branches.isEmpty then []
    else branchesNests
      (match orelse with
        | none => []
        | some b => b.nests)
      branches

/-- A test that always escapes is the last thing that is lowered. -/
def branchesNests (other : List (Nest Statement)) : List Branch → List (Nest Statement)
  | [] => other
  | .mk test body :: rest => if test.alwaysEscapes then [] else body.nests ++ branchesNests other rest

end

/-! ### Lowered code -/

namespace Lowered

open Lowering

mutual

/-- The loop control of the user and the loops in a statement, in their order. -/
def nests : Lowered → List (Nest Lowered)
  | simple s => if s.form.isControl then [.control s.form s.lead] else []
  | branch arms none => nestsOfArms arms
  | branch arms (some body) => nestsOfArms arms ++ nestsOf body
  | whileLoop test body => [.loop (whileLoop test body) (nestsOf body)]
  | forLoop target iterable body => [.loop (forLoop target iterable body) (nestsOf body)]
  | matchOn _ cases _ => nestsOfCases cases
  | _ => []

def nestsOf : List Lowered → List (Nest Lowered)
  | [] => []
  | s :: rest => s.nests ++ nestsOf rest

def nestsOfArms : List LoweredArm → List (Nest Lowered)
  | [] => []
  | .mk _ body :: rest => nestsOf body ++ nestsOfArms rest

def nestsOfCases : List LoweredCase → List (Nest Lowered)
  | [] => []
  | .mk _ _ body :: rest => nestsOf body ++ nestsOfCases rest

end

@[simp] theorem nestsOf_nil : nestsOf [] = [] := rfl

@[simp] theorem nestsOf_cons (s : Lowered) (rest : List Lowered) :
    nestsOf (s :: rest) = s.nests ++ nestsOf rest := rfl

@[simp] theorem nestsOf_append (xs ys : List Lowered) : nestsOf (xs ++ ys) = nestsOf xs ++ nestsOf ys := by
  induction xs with
  | nil => rfl
  | cons s rest ih => simp [ih]

@[simp] theorem nestsOf_suite (stmts : List Lowered) : nestsOf (suite stmts) = nestsOf stmts := by
  cases stmts <;> rfl

theorem nests_branch (arms : List LoweredArm) (orelse : Option (List Lowered)) :
    (branch arms orelse).nests = nestsOfArms arms ++ nestsOf (orelse.getD []) := by
  cases orelse <;> simp [nests]

theorem nests_continueWith (chain : List Lowered) :
    (branch (continueWith chain).1 (continueWith chain).2).nests = nestsOf chain := by
  unfold continueWith
  split
  · simp
  · simp [nests_branch, nestsOfArms]

end Lowered

namespace Lowering

open Lowered

variable {guards : Bool} {span : Span} {st st' : State}
variable {sink : Sink} {stmts : List Lowered} {xs xs' : List (Nest Statement)} {escapes : Bool}

/-! ### Code without loops -/

theorem nestsOf_deliver {value : Option Expr} (h : deliver sink value = .ok stmts) : nestsOf stmts = [] := by
  obtain ⟨main, flag, rfl, hmain, hflag⟩ := deliver_cases h
  rcases hmain with rfl | rfl | ⟨v, -, rfl⟩ | ⟨targets, -, rfl⟩ <;>
    rcases hflag with rfl | ⟨name, -, rfl⟩ <;> rfl

theorem nestsOf_assigned (name : HiddenName) (value : Option Expr) : nestsOf (assigned name value) = [] := by
  cases value <;> rfl

/-- Lifting writes neither loops nor loop control of the user. -/
theorem nestsOf_lift {e : Expr} {p : List Lowered × Option Expr} (h : Yields (lift span e) st p st') :
    nestsOf p.1 = [] := by
  induction e generalizing st p st' with
  | plain text buried =>
    obtain ⟨rfl, -⟩ := h.lift_of_not_hasEscape h.lift_plain
    rfl
  | hidden name =>
    obtain ⟨rfl, -⟩ := h.lift_of_not_hasEscape rfl
    rfl
  | escape text mark operand ih =>
    obtain ⟨prelude, ho, rfl⟩ | ⟨prelude, v, w, ho, -, rfl⟩ := h.lift_escape
    · exact ih ho
    · rw [nestsOf_append, ih ho]
      rfl
  | logical c opening left before after right closing ihl ihr =>
    by_cases he : (left.hasEscape || right.hasEscape) = true
    · obtain ⟨prelude, hl, rfl⟩ | ⟨prelude, left', hl, -, rfl⟩ |
        ⟨prelude, left', t, name, inner, right?, hl, -, hr, rfl⟩ := h.lift_logical he
      · exact ihl hl
      · have hprelude := ihl hl
        exact hprelude
      · simp [ihl hl, ihr hr, nests, nestsOfArms, nestsOf_assigned]
    · obtain ⟨rfl, -⟩ := h.lift_of_not_hasEscape (by simpa using he)
      rfl
  | conditional opening body ifText test elseText orelse closing ihb iht iho =>
    by_cases he : (body.hasEscape || test.hasEscape || orelse.hasEscape) = true
    · obtain ⟨prelude, ht, rfl⟩ |
        ⟨prelude, test', t, name, first, body?, t', second, orelse?, ht, -, hb, ho, rfl⟩ :=
          h.lift_conditional he
      · exact iht ht
      · simp [iht ht, ihb hb, iho ho, nests, nestsOfArms, nestsOf_assigned]
    · obtain ⟨rfl, -⟩ := h.lift_of_not_hasEscape (by simpa using he)
      rfl

theorem nestsOf_lowerEscape {e : Escape} (h : Yields (lowerEscape e) st stmts st') :
    nestsOf stmts = [] := by
  obtain hl | ⟨prelude, v, w, hl, -, rfl⟩ := h.lowerEscape_cases
  · exact nestsOf_lift hl
  · rw [nestsOf_append, nestsOf_lift hl]
    rfl

/-! ### Nests of blocks and of their code -/

/-- The loop is what a host loop of a block was lowered to. -/
def LoweringOf (guards : Bool) : Statement → Lowered → Prop
  | .whileLoop test body _, .whileLoop (.expr test') body' =>
    test' = test ∧ ∃ st stmts st', Yields (lowerBlock guards .discard body) st stmts st' ∧ body' = suite stmts
  | .forLoop target iterable body _, .forLoop target' iterable' body' =>
    target' = target ∧ LiftsTo iterable iterable' ∧
      ∃ st stmts st', Yields (lowerBlock guards .discard body) st stmts st' ∧ body' = suite stmts
  | _, _ => False

/-- Code has the loop control and the loops of a block at their places, and besides them loops of wrappers, into
which no loop control is taken. -/
inductive Follows (guards : Bool) : List (Nest Statement) → List (Nest Lowered) → Prop
  | nil : Follows guards [] []
  | control {form : SimpleForm} {text : Host.Surface} {xs : List (Nest Statement)} {ys : List (Nest Lowered)} :
      Follows guards xs ys → Follows guards (.control form text :: xs) (.control form text :: ys)
  | loop {l : Statement} {l' : Lowered} {inside xs : List (Nest Statement)} {inside' ys : List (Nest Lowered)} :
      LoweringOf guards l l' → Follows guards inside inside' → Follows guards xs ys →
      Follows guards (.loop l inside :: xs) (.loop l' inside' :: ys)
  | wrapper {flag : HiddenName} {body : List Lowered} {inside xs : List (Nest Statement)}
      {inside' ys : List (Nest Lowered)} :
      Nest.hasControl inside = false → Follows guards inside inside' → Follows guards xs ys →
      Follows guards (inside ++ xs) (.loop (.whileLoop (.not flag) body) inside' :: ys)

namespace Follows

variable {xs xs' : List (Nest Statement)} {ys ys' : List (Nest Lowered)}

theorem append (h : Follows guards xs ys) (h' : Follows guards xs' ys') :
    Follows guards (xs ++ xs') (ys ++ ys') := by
  induction h with
  | nil => exact h'
  | control _ ih => exact .control ih
  | loop hl hi _ _ ih => exact .loop hl hi ih
  | wrapper hc hi _ _ ih =>
    rw [List.append_assoc]
    exact .wrapper hc hi ih

theorem not_hasControl (h : Follows guards xs ys) (hx : Nest.hasControl xs = false) :
    Nest.hasControl ys = false := by
  induction h with
  | nil => rfl
  | control _ _ => cases hx
  | loop _ _ _ _ ih => exact ih hx
  | wrapper _ _ _ _ ih =>
    rw [Nest.hasControl_append, Bool.or_eq_false_iff] at hx
    exact ih hx.2

/-- Loop control as it is written, in the lowering of the loop that is its innermost. -/
structure SameTarget (guards : Bool) (x : Nest.Target Statement) (y : Nest.Target Lowered) : Prop where
  form : y.form = x.form
  text : y.text = x.text
  loop : Option.Rel (LoweringOf guards) x.loop y.loop

/-- The innermost loop around loop control is the lowering of the loop that is innermost around it in the
block. -/
theorem targets (h : Follows guards xs ys) {around : Option Statement} {around' : Option Lowered}
    (ha : Option.Rel (LoweringOf guards) around around') :
    List.Forall₂ (SameTarget guards) (Nest.targetsOf around xs) (Nest.targetsOf around' ys) := by
  induction h generalizing around around' with
  | nil => exact .nil
  | control _ ih => exact .cons ⟨rfl, rfl, ha⟩ (ih ha)
  | loop hl _ _ ihi ih => exact List.rel_append (ihi (.some hl)) (ih ha)
  | wrapper hc hi _ ihi ih =>
    rw [Nest.targetsOf_append]
    refine List.rel_append ?_ (ih ha)
    rw [Nest.targets, Nest.targetsOf_eq_of_not_hasControl (hi.not_hasControl hc) _ around']
    exact ihi ha

end Follows

/-! ### Lowering keeps the nests -/

/-- What a step that starts in `st` has written follows the source, and loop control that is outside the loops of
its code is not directly inside a wrapper. -/
structure Placed (guards : Bool) (st : State) (xs : List (Nest Statement)) (ys : List (Nest Lowered)) : Prop where
  follows : Follows guards xs ys
  free : Nest.hasControl xs = true → st.Free

namespace Placed

variable {xs xs' : List (Nest Statement)} {ys ys' : List (Nest Lowered)} {t : State}

theorem nil (st : State) : Placed guards st [] [] := ⟨.nil, nofun⟩

theorem append (h : Placed guards st xs ys) (h' : Placed guards st xs' ys') :
    Placed guards st (xs ++ xs') (ys ++ ys') := by
  refine ⟨h.follows.append h'.follows, fun hc => ?_⟩
  rw [Nest.hasControl_append, Bool.or_eq_true] at hc
  exact hc.elim h.free h'.free

/-- A later step at the same place. -/
theorem of_place (h : Placed guards t xs ys) (hw : t.wrapper = st.wrapper) (hl : t.loopDepth = st.loopDepth) :
    Placed guards st xs ys := by
  refine ⟨h.follows, fun hc => ?_⟩
  have hfree := h.free hc
  rwa [State.Free, hw, hl] at hfree

theorem after (h : Placed guards t xs ys) (he : Extends st t) : Placed guards st xs ys :=
  h.of_place he.wrapper he.loopDepth

theorem loop {l : Statement} {l' : Lowered} {inside : List (Nest Statement)} {inside' : List (Nest Lowered)}
    (hl : LoweringOf guards l l') (h : Follows guards inside inside') :
    Placed guards st [.loop l inside] [.loop l' inside'] := ⟨.loop hl h .nil, nofun⟩

/-- Nothing that is directly inside a wrapper is loop control. -/
theorem wrapper {flag : HiddenName} {body : List Lowered} {w : WrapperNames} (h : Placed guards t xs ys)
    (hw : t.wrapper = some w) (hl : t.loopDepth = 0) :
    Placed guards st xs [.loop (.whileLoop (.not flag) body) ys] := by
  have hx : Nest.hasControl xs = false := Bool.eq_false_iff.2 fun hc => by
    have hfree := h.free hc
    rw [State.Free, hw, hl] at hfree
    exact absurd (hfree rfl) (Nat.lt_irrefl 0)
  refine ⟨?_, fun hc => by rw [hx] at hc; cases hc⟩
  simpa using Follows.wrapper hx h.follows .nil

end Placed

theorem placed_lowerSimple {s : Simple} (h : Yields (lowerSimple s span) st stmts st') :
    Placed guards st s.nests (nestsOf stmts) := by
  have hcontrol (hfree : s.form = .break ∨ s.form = .continue → st.Free) (s' : Simple) (hform : s'.form = s.form)
      (hlead : s'.lead = s.lead) :
      Placed guards st (if s.form.isControl then [.control s.form s.lead] else []) (nestsOf [.simple s']) := by
    rw [nestsOf_cons, nestsOf_nil, List.append_nil, nests, hform, hlead]
    split
    · exact ⟨.control .nil, fun _ => hfree (SimpleForm.isControl_iff.1 ‹_›)⟩
    · exact .nil st
  obtain ⟨hfree, ⟨hv, rfl⟩ | ⟨e, prelude, value, hv, -, hl, rfl⟩⟩ := h.lowerSimple_cases
  · have hkept : (s.value.map Expr.alwaysEscapes).getD false = false := by
      cases hs : s.value with
      | none => rfl
      | some e => exact Bool.eq_false_iff.2 fun h => by simpa [hv e hs] using Expr.hasEscape_of_alwaysEscapes h
    rw [Simple.nests, hkept, Bool.not_false, Bool.and_true]
    exact hcontrol hfree s rfl rfl
  · rw [nestsOf_append, nestsOf_lift hl, List.nil_append, Simple.nests, hv, Option.map_some, Option.getD_some]
    cases value with
    | none =>
      rw [hl.lift_eq_none_iff.1 rfl, Bool.not_true, Bool.and_false]
      exact .nil st
    | some v =>
      have he : e.alwaysEscapes = false := by
        rw [Bool.eq_false_iff]
        intro h
        cases hl.lift_eq_none_iff.2 h
      rw [he, Bool.not_false, Bool.and_true]
      exact hcontrol hfree _ rfl rfl

theorem placed_andThen {here rest : Lower (List Lowered)} {leaves : Bool} (hs : Steady here)
    (hh : ∀ ⦃st stmts st'⦄, Yields here st stmts st' → Placed guards st xs (nestsOf stmts))
    (hr : ∀ ⦃st stmts st'⦄, Yields rest st stmts st' → Placed guards st xs' (nestsOf stmts))
    (h : Yields (andThen here leaves rest) st stmts st') :
    Placed guards st (xs ++ if leaves then [] else xs') (nestsOf stmts) := by
  obtain ⟨rfl, hy⟩ | ⟨rfl, first, t, later, hy, hlater, rfl⟩ := h.andThen_cases
  · rw [if_pos rfl, List.append_nil]
    exact hh hy
  · rw [if_neg (by decide), nestsOf_append]
    exact (hh hy).append ((hr hlater).after (hs hy))

/-- The lowering of a host loop, given that of its body; `prelude` is what its iterable was lifted to. -/
theorem placed_loop {inside : Lower (List Lowered)} {l : Statement} {body : List (Nest Statement)}
    {prelude : List Lowered} {loop : List Lowered → Lowered} (hprelude : nestsOf prelude = [])
    (hloop : ∀ body, (loop body).nests = [.loop (loop body) (nestsOf body)])
    (hl : ∀ ⦃st stmts st'⦄, Yields inside st stmts st' → LoweringOf guards l (loop (suite stmts)))
    (hb : ∀ ⦃st stmts st'⦄, Yields inside st stmts st' → Placed guards st body (nestsOf stmts)) (h : Yields (do
      let body ← withLoop inside
      return prelude ++ loop (suite body) :: (← afterLoop escapes)) st stmts st') :
    Placed guards st [.loop l body] (nestsOf stmts) := by
  obtain ⟨stmts, t, after, hin, hafter, rfl⟩ := h.loop_cases
  have hafter : nestsOf after = [] := by
    obtain rfl | ⟨w, rfl⟩ := hafter
    · rfl
    · rfl
  rw [nestsOf_append, nestsOf_cons, hprelude, hafter, hloop, nestsOf_suite, List.nil_append, List.append_nil]
  exact .loop (hl hin) (hb hin).follows

theorem placed_boundary {inside : Sink → Lower (List Lowered)} {r : Result}
    (hi : ∀ s ⦃st stmts st'⦄, Yields (inside s) st stmts st' → Placed guards st xs (nestsOf stmts))
    (h : Yields (boundary escapes span sink inside) st r st') : Placed guards st xs (nestsOf r.body) := by
  obtain ⟨-, t, hy, hw, hl⟩ | ⟨-, w, t, t', tree, after, hy, hw, hl, hafter, hbody⟩ := h.boundary_cases
  · exact (hi _ hy).of_place hw hl
  · have hafter : nestsOf after = [] := by
      split at hafter
      · rw [hafter, nestsOf_nil]
      · exact nestsOf_deliver hafter
    have htree : Placed guards st xs [.loop (.whileLoop (.not w.exit) (suite tree)) (nestsOf tree)] :=
      (hi _ hy).wrapper hw hl
    simpa [hbody, hafter, nests] using htree

/-- A branch and what continues it. -/
theorem placed_branch {test : Test} {inside : List Lowered} {later : Option (List Lowered)}
    {orelse : Option (List Lowered)} (hi : Placed guards st xs (nestsOf inside))
    (hr : Placed guards st xs' (nestsOf (later.getD [.branch [] orelse]))) :
    Placed guards st (xs ++ xs') (nests (.branch
      (.mk test (suite inside) :: ((later.map continueWith).getD ([], orelse)).1)
      ((later.map continueWith).getD ([], orelse)).2)) := by
  have hlater : nests (.branch ((later.map continueWith).getD ([], orelse)).1
      ((later.map continueWith).getD ([], orelse)).2) = nestsOf (later.getD [.branch [] orelse]) := by
    cases later with
    | none => simp
    | some chain => exact nests_continueWith chain
  rw [nests_branch] at hlater ⊢
  rw [nestsOfArms, nestsOf_suite, List.append_assoc, hlater]
  exact hi.append hr

variable (guards)

mutual

theorem placed_lowerBlock (sink : Sink) : ∀ (b : Block) ⦃st stmts st'⦄,
    Yields (lowerBlock guards sink b) st stmts st' → Placed guards st b.nests (nestsOf stmts)
  | .mk ss none _ _ => placed_lowerStatements (Steady.isStepProperty.delivered none)
      (fun st stmts st' h => by
        rw [nestsOf_deliver (Yields.delivered_iff.1 h).1]
        exact .nil st) ss
  | .mk ss (some t) span _ =>
    placed_lowerStatements (Steady.isStepProperty.lowerTail guards sink span t) (placed_lowerTail sink span t) ss

theorem placed_lowerStatements {finish : Lower (List Lowered)} {xs : List (Nest Statement)} (hs : Steady finish)
    (hf : ∀ ⦃st stmts st'⦄, Yields finish st stmts st' → Placed guards st xs (nestsOf stmts)) :
    ∀ (ss : List Statement) ⦃st stmts st'⦄, Yields (lowerStatements guards finish ss) st stmts st' →
      Placed guards st (statementsNests xs ss) (nestsOf stmts)
  | [], _, _, _, h => hf h
  | s :: rest, st, stmts, st', h => by
    have hr := placed_lowerStatements hs hf rest
    cases s with
    | simple s span => exact placed_andThen (Steady.isStepProperty.lowerSimple s) (fun _ _ _ hy => placed_lowerSimple hy) hr h
    | escape e =>
      have he ⦃u first u'⦄ (hy : Yields (lowerEscape e) u first u') : Placed guards u [] (nestsOf first) := by
        rw [nestsOf_lowerEscape hy]
        exact .nil u
      exact placed_andThen (Steady.isStepProperty.lowerEscape e) he hr h
    | letMatch primary source arms span =>
      rw [statementsNests]
      obtain hl | ⟨prelude, e, t, body, t₁, cases, t₂, catchAll, hl, hbody, hcases, -, rfl⟩ := h.letMatch_cases
      · rw [if_pos (hl.lift_eq_none_iff.1 rfl), nestsOf_lift hl]
        exact .nil st
      · have hplace := Steady.isStepProperty.lift source hl
        rw [if_neg (fun he => nomatch hl.lift_eq_none_iff.2 he), nestsOf_append, nestsOf_lift hl]
        have hcases := (placed_lowerArms arms hcases).after (Steady.isStepProperty.lowerStatements guards hs rest hbody)
        simpa [nests, nestsOfCases] using ((hr hbody).append hcases).after hplace
    | conditional c =>
      exact placed_andThen (Steady.isStepProperty.lowerConditional guards .discard c) (placed_lowerConditional .discard c) hr h
    | whileLoop test body span =>
      have hloop ⦃v stmts v'⦄ (hv : Yields (lowerBlock guards .discard body) v stmts v') :
          LoweringOf guards (.whileLoop test body span) (.whileLoop (.expr test) (suite stmts)) :=
        ⟨rfl, v, stmts, v', hv, rfl⟩
      rw [statementsNests, ← List.singleton_append]
      refine placed_andThen ?_ (fun u first u' hy => ?_) hr h
      · exact (Steady.isStepProperty.lowerBlock guards .discard body).withLoop.bind fun _ => (Steady.isStepProperty.afterLoop _).bind fun _ =>
          .pure _
      · exact placed_loop nestsOf_nil (fun _ => rfl) hloop (placed_lowerBlock .discard body) hy
    | forLoop target iterable body span =>
      refine placed_andThen ?_ (fun u first u' hy => ?_) hr h
      · refine (Steady.isStepProperty.lift _).bind fun ⟨prelude, iterable?⟩ => ?_
        cases iterable? with
        | none => exact .pure _
        | some e =>
          exact (Steady.isStepProperty.lowerBlock guards .discard body).withLoop.bind fun _ => (Steady.isStepProperty.afterLoop _).bind fun _ =>
            .pure _
      · obtain ⟨⟨prelude, iterable?⟩, t, hl, hy⟩ := Yields.bind_iff.1 hy
        cases iterable? with
        | none =>
          obtain ⟨rfl, -⟩ := Yields.pure_iff.1 hy
          rw [if_pos (hl.lift_eq_none_iff.1 rfl), nestsOf_lift hl]
          exact .nil u
        | some e =>
          rw [if_neg fun he => nomatch hl.lift_eq_none_iff.2 he]
          have hloop ⦃v stmts v'⦄ (hv : Yields (lowerBlock guards .discard body) v stmts v') :
              LoweringOf guards (.forLoop target iterable body span) (.forLoop target e (suite stmts)) :=
            ⟨rfl, ⟨span, u, prelude, t, hl⟩, v, stmts, v', hv, rfl⟩
          exact (placed_loop (nestsOf_lift hl) (fun _ => rfl) hloop (placed_lowerBlock .discard body) hy).after
            (Steady.isStepProperty.lift iterable hl)
    | nested sink b span =>
      refine placed_andThen ?_ (fun u first u' hy => ?_) hr h
      · exact (Steady.isStepProperty.boundary fun s => Steady.isStepProperty.lowerBlock guards s b).bind fun _ => .pure _
      · obtain ⟨r, t, hb, hy⟩ := Yields.bind_iff.1 hy
        obtain ⟨rfl, -⟩ := Yields.pure_iff.1 hy
        exact placed_boundary (fun s => placed_lowerBlock s b) hb

theorem placed_lowerTail (sink : Sink) (span : Span) : ∀ (t : Tail) ⦃st stmts st'⦄,
    Yields (lowerTail guards sink span t) st stmts st' → Placed guards st t.nests (nestsOf stmts)
  | .value e, st, stmts, st', h => by
    change Placed guards st [] (nestsOf stmts)
    obtain hl | ⟨prelude, v, t, later, hl, hd, rfl⟩ := h.lift_bind_cases
    · rw [nestsOf_lift hl]
      exact .nil st
    · rw [nestsOf_append, nestsOf_lift hl, nestsOf_deliver (Yields.delivered_iff.1 hd).1]
      exact .nil st
  | .escape e, st, stmts, st', h => by
    rw [nestsOf_lowerEscape h]
    exact .nil st
  | .conditional c, _, _, _, h => placed_lowerConditional sink c h
  | .block b, st, stmts, st', h => by
    obtain ⟨r, t, hb, h⟩ := Yields.bind_iff.1 h
    obtain ⟨rfl, -⟩ := Yields.pure_iff.1 h
    exact placed_boundary (fun s => placed_lowerBlock s b) hb

theorem placed_lowerArms : ∀ (arms : List Arm) ⦃st cases st'⦄, Yields (lowerArms guards arms) st cases st' →
    Placed guards st (armsNests arms) (nestsOfCases cases)
  | [], st, cases, st', h => by
    obtain ⟨rfl, -⟩ := Yields.pure_iff.1 h
    exact .nil st
  | .mk pattern guard body span _ :: rest, st, cases, st', h => by
    obtain ⟨-, stmts, t, cases', hb, hrest, rfl⟩ := h.lowerArms_cons
    rw [armsNests, nestsOfCases, nestsOf_suite]
    exact (placed_lowerBlock .discard body hb).append
      ((placed_lowerArms rest hrest).after (Steady.isStepProperty.lowerBlock guards .discard body hb))

theorem placed_lowerConditional (sink : Sink) : ∀ (c : Conditional) ⦃st stmts st'⦄,
    Yields (lowerConditional guards sink c) st stmts st' → Placed guards st c.nests (nestsOf stmts)
  | .mk [] orelse span, st, stmts, st', h => by
    obtain ⟨other, t, result, hr, rfl, -⟩ := h.lowerConditional_cases
    obtain ⟨rfl, -⟩ := Yields.pure_iff.1 hr
    exact .nil st
  | .mk (br :: bs) none span, st, stmts, st', h => by
    obtain ⟨other, t, result, hr, rfl, ⟨_, _, ho, -⟩ | ⟨body, -, hd, rfl, rfl⟩⟩ := h.lowerConditional_cases
    · cases ho
    · have hother : nestsOf [.branch [] (if body.isEmpty then none else some body)] = [] := by
        have hbody := nestsOf_deliver hd
        split <;> simp [nests, nestsOfArms, hbody]
      obtain ⟨chain, rfl⟩ := hr.exists_of_lowerBranches
      exact placed_lowerBranches sink span (br :: bs) (by rw [hother]; exact .nil t) hr
  | .mk (br :: bs) (some b) span, st, stmts, st', h => by
    obtain ⟨other, t, result, hr, rfl, ⟨_, body, ho, hb, rfl⟩ | ⟨_, ho, -⟩⟩ := h.lowerConditional_cases
    · cases ho
      have hplace := Steady.isStepProperty.lowerBlock guards sink b hb
      have hother : Placed guards t b.nests (nestsOf [.branch [] (some (suite body))]) := by
        have hbody := placed_lowerBlock sink b hb
        simpa [nests, nestsOfArms] using hbody.of_place hplace.wrapper.symm hplace.loopDepth.symm
      obtain ⟨chain, rfl⟩ := hr.exists_of_lowerBranches
      exact (placed_lowerBranches sink span (br :: bs) hother hr).after hplace
    · cases ho

theorem placed_lowerBranches (sink : Sink) (span : Span) {orelse : Option (List Lowered)}
    {other : List (Nest Statement)} : ∀ (bs : List Branch) ⦃st result st'⦄,
    Placed guards st other (nestsOf [.branch [] orelse]) →
    Yields (lowerBranches guards sink span orelse bs) st result st' →
    Placed guards st (branchesNests other bs) (nestsOf (result.getD [.branch [] orelse]))
  | [], st, result, st', ho, h => by
    obtain ⟨rfl, -⟩ := Yields.pure_iff.1 h
    exact ho
  | .mk test body :: rest, st, result, st', ho, h => by
    rw [branchesNests]
    obtain ⟨later, t, prelude, hlater, ⟨hl, rfl⟩ | ⟨e, u, inside, hl, hin, rfl⟩⟩ := h.lowerBranches_cons
    · rw [if_pos (hl.lift_eq_none_iff.1 rfl), Option.getD_some, nestsOf_lift hl]
      exact .nil st
    · have hplace := (Steady.isStepProperty.lowerBranches guards sink span orelse rest hlater).trans (Steady.isStepProperty.lift test hl)
      have hinside := (placed_lowerBlock sink body hin).after hplace
      rw [if_neg (fun he => nomatch hl.lift_eq_none_iff.2 he), Option.getD_some, nestsOf_append, nestsOf_lift hl,
        nestsOf_cons, nestsOf_nil, List.append_nil, List.nil_append]
      exact placed_branch hinside (placed_lowerBranches sink span rest ho hlater)

end

end Lowering

end DoBlocks
