import DoBlocks.Proofs.LoweringSteps

/-!
# Landmarks

Lowering keeps account of a few things that it writes: escapes, boundary blocks with their wrappers,
loops, and matches that get a catch-all. `Block.landmarks` finds them in a block, one inside another and
in the order in which they are lowered; `Lowered.sightsOf` finds in lowered code what has become of them,
by the form of the code alone.
-/

namespace DoBlocks

/-- The head of a case: its pattern and its guard. -/
abbrev CaseHead := Pattern × Option Expr

/-- What lowering keeps account of in a block. -/
inductive Landmark where
  /-- An escape that is not preceded by another one in its own operand. -/
  | exit (operand : Expr)
  /-- A match that has to be closed by a catch-all. -/
  | openMatch (cases : List CaseHead) (span : Span)
  | boundary (b : Block) (inside : List Landmark)
  | loop (inside : List Landmark)
  /-- What is lowered but not written, since an earlier test always escapes. -/
  | dropped (inside : List Landmark)

/-- What is seen of landmarks in lowered code. -/
inductive Sight where
  /-- The result slot is set, the exit flag is raised, and the loop is left. -/
  | exit (w : WrapperNames) (value : Expr)
  /-- A match with a catch-all. -/
  | guarded (cases : List CaseHead) (catchAll : CatchAll)
  /-- The result slot is cleared, the exit flag is lowered, and a loop runs until the flag is up. -/
  | wrapped (w : WrapperNames) (inside : List Sight)
  /-- Any other loop, and the statements after it. -/
  | loop (next : List Lowered) (inside : List Sight)

/-! ### Landmarks of blocks -/

/-- The escapes of an expression that are lifted. -/
def Expr.exits : Expr → List Landmark
  | plain _ _ => []
  | hidden _ => []
  | escape _ _ operand => operand.exits ++ if operand.alwaysEscapes then [] else [.exit operand]
  | logical _ _ left _ _ right _ => left.exits ++ if left.alwaysEscapes then [] else right.exits
  | conditional _ body _ test _ orelse _ =>
    test.exits ++ if test.alwaysEscapes then [] else orelse.exits ++ body.exits

def Escape.exits (e : Escape) : List Landmark :=
  e.value.exits ++ if e.value.alwaysEscapes then [] else [.exit e.value]

def Simple.exits (s : Simple) : List Landmark := (s.value.map Expr.exits).getD []

def Arm.head (a : Arm) : CaseHead := (a.pattern, a.guard)

/-- The match is not covered by its cases, and catch-alls are asked for. -/
def openMatches (guards : Bool) (cases : List CaseHead) (span : Span) : List Landmark :=
  if guards && !cases.any fun c => c.1.irrefutable && c.2.isNone then [.openMatch cases span] else []

section

variable (guards : Bool)

mutual

/-- The landmarks of a block. -/
def Block.landmarks : Block → List Landmark
  | .mk statements tail _ _ =>
    statementsLandmarks
      (match tail with
        | none => []
        | some t => t.landmarks)
      statements

/-- The landmarks of statements and of what comes after them. Nothing is lowered after a statement that
diverges. -/
def statementsLandmarks (finish : List Landmark) : List Statement → List Landmark
  | [] => finish
  | .simple s _ :: rest => s.exits ++ if s.diverges then [] else statementsLandmarks finish rest
  | .escape e :: _ => e.exits
  | .letMatch primary source arms span :: rest =>
    source.exits ++ if source.alwaysEscapes then [] else
      statementsLandmarks finish rest ++ armsLandmarks arms ++
        openMatches guards ((primary, none) :: arms.map Arm.head) span
  | .conditional c :: rest =>
    c.landmarks ++ if c.diverges then [] else statementsLandmarks finish rest
  | .whileLoop _ body _ :: rest => .loop body.landmarks :: statementsLandmarks finish rest
  | .forLoop _ iterable body _ :: rest =>
    iterable.exits ++ (if iterable.alwaysEscapes then [] else [.loop body.landmarks]) ++
      statementsLandmarks finish rest
  | .nested sink b _ :: rest =>
    .boundary b b.landmarks :: if sink.isReturn then [] else statementsLandmarks finish rest

def Tail.landmarks : Tail → List Landmark
  | .value e => e.exits
  | .escape e => e.exits
  | .conditional c => c.landmarks
  | .block b => [.boundary b b.landmarks]

def armsLandmarks : List Arm → List Landmark
  | [] => []
  | .mk _ _ body _ _ :: rest => body.landmarks ++ armsLandmarks rest

/-- The `else` comes first. -/
def Conditional.landmarks : Conditional → List Landmark
  | .mk branches orelse _ =>
    let other :=
      match orelse with
      | none => []
      | some b => b.landmarks
    if branches.isEmpty then [.dropped other] else branchesLandmarks other branches

/-- The later branches of a test that always escapes are dropped. -/
def branchesLandmarks (other : List Landmark) : List Branch → List Landmark
  | [] => other
  | .mk test body :: rest =>
    if test.alwaysEscapes then .dropped (branchesLandmarks other rest) :: test.exits
    else test.exits ++ branchesLandmarks other rest ++ body.landmarks

end

end

/-! ### Sights of lowered code -/

def LoweredCase.head : LoweredCase → CaseHead
  | .mk pattern guard _ => (pattern, guard)

namespace Lowered

/-- The escape that a `break` completes, given the statements before it, the nearest first. -/
def exitSight : List Lowered → List Sight
  | .set (.hidden x) (.constant .true) :: .set (.hidden r) (.expr v) :: _ => [.exit ⟨r, x⟩ v]
  | _ => []

/-- The wrapper that a loop completes, given its test and the statements before it, the nearest first. -/
def wrapperBefore : Test → List Lowered → Option WrapperNames
  | .not x, .set (.hidden y) (.constant .false) :: .set (.hidden r) (.constant .none) :: _ =>
    if x = y then some ⟨r, x⟩ else none
  | _, _ => none

mutual

/-- The sights of a statement that stands after `before`, the nearest first, and before `after`. -/
def sights (before after : List Lowered) : Lowered → List Sight
  | .break => exitSight before
  | .branch arms orelse =>
    (match orelse with
      | none => []
      | some body => sightsOf [] [] body) ++ sightsOfArms arms
  | .whileLoop test body =>
    match wrapperBefore test before with
    | some w => [.wrapped w (sightsOf [] [] body)]
    | none => [.loop after (sightsOf [] [] body)]
  | .forLoop _ _ body => [.loop after (sightsOf [] [] body)]
  | .matchOn _ cases catchAll =>
    sightsOfCases cases ++ (catchAll.map (Sight.guarded (cases.map LoweredCase.head))).toList
  | _ => []

/-- The sights of statements in order. -/
def sightsOf (before after : List Lowered) : List Lowered → List Sight
  | [] => []
  | s :: rest => s.sights before (rest ++ after) ++ sightsOf (s :: before) after rest

/-- The sights of arms, those of the last one first. -/
def sightsOfArms : List LoweredArm → List Sight
  | [] => []
  | .mk _ body :: rest => sightsOfArms rest ++ sightsOf [] [] body

def sightsOfCases : List LoweredCase → List Sight
  | [] => []
  | .mk _ _ body :: rest => sightsOf [] [] body ++ sightsOfCases rest

end

@[simp] theorem sightsOf_nil (before after : List Lowered) : sightsOf before after [] = [] := rfl

@[simp] theorem sightsOf_cons (before after : List Lowered) (s : Lowered) (rest : List Lowered) :
    sightsOf before after (s :: rest) =
      s.sights before (rest ++ after) ++ sightsOf (s :: before) after rest := rfl

@[simp] theorem sights_set (before after : List Lowered) (name : Name) (value : Value) :
    (set name value).sights before after = [] := rfl

theorem sightsOf_append (before after xs ys : List Lowered) :
    sightsOf before after (xs ++ ys) =
      sightsOf before (ys ++ after) xs ++ sightsOf (xs.reverse ++ before) after ys := by
  induction xs generalizing before with
  | nil => rfl
  | cons s xs ih =>
    rw [List.cons_append, sightsOf_cons, sightsOf_cons, ih]
    simp

@[simp] theorem sightsOf_suite (before after xs : List Lowered) :
    sightsOf before after (suite xs) = sightsOf before after xs := by
  cases xs <;> rfl

theorem sights_branch (before after : List Lowered) (arms : List LoweredArm)
    (orelse : Option (List Lowered)) :
    (branch arms orelse).sights before after = sightsOf [] [] (orelse.getD []) ++ sightsOfArms arms := by
  cases orelse <;> rfl

/-- A chain has the same sights where it continues an `if`. -/
theorem sights_continueWith (before after chain : List Lowered) :
    (branch (Lowering.continueWith chain).1 (Lowering.continueWith chain).2).sights before after =
      sightsOf [] [] chain := by
  unfold Lowering.continueWith
  split
  · simp [sights_branch]
  · simp [sights_branch, sightsOfArms]

theorem sightsOf_deliver {sink : Sink} {value : Option Expr} {stmts : List Lowered}
    (h : Lowering.deliver sink value = .ok stmts) (before after : List Lowered) :
    sightsOf before after stmts = [] := by
  obtain ⟨main, flag, rfl, hmain, hflag⟩ := Lowering.deliver_cases h
  have hmain : ∀ before after, sightsOf before after main = [] := by
    rcases hmain with rfl | rfl | ⟨v, -, rfl⟩ | ⟨targets, -, rfl⟩ <;> exact fun _ _ => rfl
  have hflag : ∀ before after, sightsOf before after flag = [] := by
    rcases hflag with rfl | ⟨name, -, rfl⟩ <;> exact fun _ _ => rfl
  rw [sightsOf_append, hmain, hflag, List.nil_append]

/-- The statements that leave a wrapper are seen as an escape. -/
theorem sightsOf_leaveWrapper (w : WrapperNames) (v : Expr) (before after : List Lowered) :
    sightsOf before after (Lowering.leaveWrapper w v) = [.exit w v] := rfl

/-- The statements around the body of a wrapper are seen as a wrapper. -/
theorem sightsOf_wrapper (w : WrapperNames) (before after tree : List Lowered) :
    sightsOf before after [.set (.hidden w.result) (.constant .none), .set (.hidden w.exit) (.constant .false),
      .whileLoop (.not w.exit) (suite tree)] = [.wrapped w (sightsOf [] [] tree)] := by
  simp [sights, wrapperBefore]

end Lowered

/-! ### Escapes that belong to the boundary around -/

mutual

/-- The landmark holds an escape that belongs to the boundary around it. -/
def Landmark.owns : Landmark → Bool
  | .exit _ => true
  | .openMatch _ _ => false
  | .boundary _ _ => false
  | .loop inside => ownsAny inside
  | .dropped inside => ownsAny inside

def Landmark.ownsAny : List Landmark → Bool
  | [] => false
  | m :: ms => m.owns || ownsAny ms

end

mutual

/-- There is an escape in sight that leaves the wrapper around. -/
def Sight.owns : Sight → Bool
  | .exit _ _ => true
  | .guarded _ _ => false
  | .wrapped _ _ => false
  | .loop _ inside => ownsAny inside

def Sight.ownsAny : List Sight → Bool
  | [] => false
  | s :: ss => s.owns || ownsAny ss

end

@[simp] theorem Landmark.ownsAny_nil : ownsAny [] = false := rfl

@[simp] theorem Landmark.ownsAny_cons (m : Landmark) (ms : List Landmark) :
    ownsAny (m :: ms) = (m.owns || ownsAny ms) := rfl

@[simp] theorem Landmark.ownsAny_append (xs ys : List Landmark) :
    ownsAny (xs ++ ys) = (ownsAny xs || ownsAny ys) := by
  induction xs with
  | nil => rfl
  | cons m xs ih => rw [List.cons_append, ownsAny_cons, ownsAny_cons, ih, Bool.or_assoc]

@[simp] theorem Sight.ownsAny_append (xs ys : List Sight) :
    ownsAny (xs ++ ys) = (ownsAny xs || ownsAny ys) := by
  induction xs with
  | nil => rfl
  | cons s xs ih =>
    show (s.owns || ownsAny (xs ++ ys)) = (s.owns || ownsAny xs || ownsAny ys)
    rw [ih, Bool.or_assoc]

theorem Expr.exits_of_not_hasEscape {e : Expr} (h : e.hasEscape = false) : e.exits = [] := by
  induction e with
  | plain text buried => rfl
  | hidden name => rfl
  | escape text mark operand ih => cases h
  | logical c opening left before after right closing ihl ihr =>
    rw [hasEscape_logical, Bool.or_eq_false_iff] at h
    rw [exits, ihl h.1, ihr h.2, ite_self, List.append_nil]
  | conditional opening body ifText test elseText orelse closing ihb iht iho =>
    rw [hasEscape_conditional, Bool.or_eq_false_iff, Bool.or_eq_false_iff] at h
    rw [exits, ihb h.1.1, iht h.1.2, iho h.2]
    simp

theorem Simple.exits_of_not_hasEscape {s : Simple} (h : s.hasEscape = false) : s.exits = [] := by
  unfold Simple.exits
  cases hv : s.value with
  | none => rfl
  | some e =>
    refine Expr.exits_of_not_hasEscape ?_
    simp_all [Simple.hasEscape, Simple.marks, Expr.hasEscape]

theorem ownsAny_openMatches (guards : Bool) (cases : List CaseHead) (span : Span) :
    Landmark.ownsAny (openMatches guards cases span) = false := by
  unfold openMatches
  split <;> rfl

/-- The tail holds an escape that belongs to the boundary around it. -/
def Tail.containsEscape : Tail → Bool
  | .value e => e.hasEscape
  | .escape _ => true
  | .conditional c => c.containsEscape
  | .block _ => false

theorem Block.containsEscape_tail (ss : List Statement) (t : Tail) (span : Span) (boundary : Bool) :
    (Block.mk ss (some t) span boundary).containsEscape =
      (statementsContainEscape ss || t.containsEscape) := by
  cases t <;> rw [Block.containsEscape, Tail.containsEscape]

section

variable (guards : Bool)

mutual

/-- A block without escapes of its own has none among its landmarks. -/
theorem Block.ownsAny_landmarks : ∀ {b : Block}, b.containsEscape = false →
    Landmark.ownsAny (b.landmarks guards) = false
  | .mk ss none _ _, h => by
    rw [Block.containsEscape, Bool.or_false] at h
    exact ownsAny_statementsLandmarks rfl h
  | .mk ss (some t) _ _, h => by
    rw [Block.containsEscape_tail, Bool.or_eq_false_iff] at h
    exact ownsAny_statementsLandmarks (Tail.ownsAny_landmarks h.2) h.1

theorem Tail.ownsAny_landmarks : ∀ {t : Tail}, t.containsEscape = false →
    Landmark.ownsAny (t.landmarks guards) = false
  | .value _, h => congrArg Landmark.ownsAny (Expr.exits_of_not_hasEscape h)
  | .escape _, h => nomatch h
  | .conditional _, h => Conditional.ownsAny_landmarks h
  | .block _, _ => rfl

theorem ownsAny_statementsLandmarks {finish : List Landmark} (hf : Landmark.ownsAny finish = false) :
    ∀ {ss : List Statement}, statementsContainEscape ss = false →
      Landmark.ownsAny (statementsLandmarks guards finish ss) = false
  | [], _ => hf
  | s :: rest, h => by
    rw [statementsContainEscape, Bool.or_eq_false_iff] at h
    have hrest := ownsAny_statementsLandmarks hf h.2
    obtain ⟨h, -⟩ := h
    cases s with
    | simple s span =>
      rw [statementsLandmarks, Simple.exits_of_not_hasEscape h, List.nil_append]
      split
      · rfl
      · exact hrest
    | escape e => cases h
    | letMatch primary source arms span =>
      rw [Statement.containsEscape, Bool.or_eq_false_iff] at h
      rw [statementsLandmarks, Expr.exits_of_not_hasEscape h.1, List.nil_append]
      split
      · rfl
      · simp [hrest, ownsAny_armsLandmarks h.2, ownsAny_openMatches]
    | conditional c =>
      rw [statementsLandmarks, Landmark.ownsAny_append, Conditional.ownsAny_landmarks h]
      split
      · rfl
      · exact hrest
    | whileLoop test body span =>
      simp [statementsLandmarks, Landmark.owns, Block.ownsAny_landmarks h, hrest]
    | forLoop target iterable body span =>
      rw [Statement.containsEscape, Bool.or_eq_false_iff] at h
      rw [statementsLandmarks, Expr.exits_of_not_hasEscape h.1, List.nil_append]
      split
      · exact hrest
      · simp [Landmark.owns, Block.ownsAny_landmarks h.2, hrest]
    | nested sink b span =>
      rw [statementsLandmarks]
      split
      · rfl
      · exact hrest

theorem ownsAny_armsLandmarks : ∀ {arms : List Arm}, armsContainEscape arms = false →
    Landmark.ownsAny (armsLandmarks guards arms) = false
  | [], _ => rfl
  | .mk _ _ body _ _ :: rest, h => by
    rw [armsContainEscape, Bool.or_eq_false_iff] at h
    rw [armsLandmarks, Landmark.ownsAny_append, Block.ownsAny_landmarks h.1, ownsAny_armsLandmarks h.2]
    rfl

theorem Conditional.ownsAny_landmarks : ∀ {c : Conditional}, c.containsEscape = false →
    Landmark.ownsAny (c.landmarks guards) = false
  | .mk bs none _, h => by
    rw [Conditional.containsEscape, Bool.or_false] at h
    cases bs with
    | nil => rfl
    | cons branch rest => exact ownsAny_branchesLandmarks rfl h
  | .mk bs (some b) _, h => by
    rw [Conditional.containsEscape, Bool.or_eq_false_iff] at h
    have hb := Block.ownsAny_landmarks h.2
    cases bs with
    | nil => simpa [Conditional.landmarks, Landmark.owns] using hb
    | cons branch rest => exact ownsAny_branchesLandmarks hb h.1

theorem ownsAny_branchesLandmarks {other : List Landmark} (ho : Landmark.ownsAny other = false) :
    ∀ {bs : List Branch}, branchesContainEscape bs = false →
      Landmark.ownsAny (branchesLandmarks guards other bs) = false
  | [], _ => ho
  | .mk test body :: rest, h => by
    rw [branchesContainEscape, Bool.or_eq_false_iff, Bool.or_eq_false_iff] at h
    have hrest := ownsAny_branchesLandmarks ho h.2
    rw [branchesLandmarks, Expr.exits_of_not_hasEscape h.1.1]
    split
    · simp [Landmark.owns, hrest]
    · simp [hrest, Block.ownsAny_landmarks h.1.2]

end

end

end DoBlocks
