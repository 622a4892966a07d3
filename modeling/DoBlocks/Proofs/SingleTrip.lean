import DoBlocks.Proofs.Accepted
import DoBlocks.Proofs.Preservation

/-!
# Wrappers run once

A block that owns an escape is put into a loop that tests an exit flag. Every end of the body of such a
loop raises the flag or leaves the loop, so the loop comes to the same ends as its body run once. This
holds of all wrappers in the lowered code of a block, also of those of blocks inside it.

It rests on every match of the block taking all values or ending in a catch-all. Without catch-alls a
value that no case takes goes past the match, and the loop starts again with the flag down.
-/

namespace DoBlocks

open Program

/-! ### Matches that take every value -/

mutual

/-- Every match in the block takes all values without the help of a catch-all. -/
def Block.covered : Block → Bool
  | .mk statements tail _ _ =>
    statementsCovered statements &&
      match tail with
      | none => true
      | some t => t.covered

def Tail.covered : Tail → Bool
  | .conditional c => c.covered
  | .block b => b.covered
  | _ => true

def statementsCovered : List Statement → Bool
  | [] => true
  | s :: rest => s.covered && statementsCovered rest

def Statement.covered : Statement → Bool
  | .letMatch primary _ arms _ =>
    (primary.irrefutable || arms.any Arm.takesAll) && armsCovered arms
  | .conditional c => c.covered
  | .whileLoop _ body _ => body.covered
  | .forLoop _ _ body _ => body.covered
  | .nested _ b _ => b.covered
  | _ => true

def armsCovered : List Arm → Bool
  | [] => true
  | .mk _ _ body _ _ :: rest => body.covered && armsCovered rest

def Conditional.covered : Conditional → Bool
  | .mk branches orelse _ =>
    branchesCovered branches &&
      match orelse with
      | none => true
      | some b => b.covered

def branchesCovered : List Branch → Bool
  | [] => true
  | .mk _ body :: rest => body.covered && branchesCovered rest

end

section Covered

variable {guards : Bool}

mutual

theorem Block.wellFormed_of_covered : ∀ {b : Block}, b.wellFormed true = true → b.covered = true →
    b.wellFormed guards = true
  | .mk ss none _ _, hw, hc => by
    simp only [Block.wellFormed, Block.covered, Bool.and_true] at hw hc ⊢
    exact statementsWellFormed_of_covered hw hc
  | .mk ss (some t) _ _, hw, hc => by
    simp only [Block.wellFormed, Block.covered, Bool.and_eq_true] at hw hc ⊢
    exact ⟨statementsWellFormed_of_covered hw.1 hc.1, Tail.wellFormed_of_covered hw.2 hc.2⟩

theorem Tail.wellFormed_of_covered : ∀ {t : Tail}, t.wellFormed true = true → t.covered = true →
    t.wellFormed guards = true
  | .value _, hw, _ => hw
  | .escape _, hw, _ => hw
  | .conditional _, hw, hc => Conditional.wellFormed_of_covered hw hc
  | .block _, hw, hc => Block.wellFormed_of_covered hw hc

theorem statementsWellFormed_of_covered : ∀ {ss : List Statement}, statementsWellFormed true ss = true →
    statementsCovered ss = true → statementsWellFormed guards ss = true
  | [], _, _ => rfl
  | s :: rest, hw, hc => by
    simp only [statementsWellFormed, statementsCovered, Bool.and_eq_true] at hw hc ⊢
    exact ⟨Statement.wellFormed_of_covered hw.1 hc.1, statementsWellFormed_of_covered hw.2 hc.2⟩

theorem Statement.wellFormed_of_covered : ∀ {s : Statement}, s.wellFormed true = true →
    s.covered = true → s.wellFormed guards = true
  | .simple _ _, hw, _ => hw
  | .escape _, hw, _ => hw
  | .letMatch primary source arms _, hw, hc => by
    simp only [Statement.wellFormed, Statement.covered, Bool.and_eq_true, Bool.or_assoc] at hw hc ⊢
    exact ⟨⟨hw.1.1, by rw [hc.1, Bool.or_true]⟩, armsWellFormed_of_covered hw.2 hc.2⟩
  | .conditional _, hw, hc => Conditional.wellFormed_of_covered hw hc
  | .whileLoop _ body _, hw, hc => by
    simp only [Statement.wellFormed, Bool.and_eq_true] at hw ⊢
    exact ⟨hw.1, Block.wellFormed_of_covered hw.2 hc⟩
  | .forLoop _ _ body _, hw, hc => by
    simp only [Statement.wellFormed, Bool.and_eq_true] at hw ⊢
    exact ⟨hw.1, Block.wellFormed_of_covered hw.2 hc⟩
  | .nested _ b _, hw, hc => by
    simp only [Statement.wellFormed, Bool.and_eq_true] at hw ⊢
    exact ⟨hw.1, Block.wellFormed_of_covered hw.2 hc⟩

theorem armsWellFormed_of_covered : ∀ {arms : List Arm}, armsWellFormed true arms = true →
    armsCovered arms = true → armsWellFormed guards arms = true
  | [], _, _ => rfl
  | .mk _ _ body _ _ :: rest, hw, hc => by
    simp only [armsWellFormed, armsCovered, Bool.and_eq_true] at hw hc ⊢
    exact ⟨⟨hw.1.1, Block.wellFormed_of_covered hw.1.2 hc.1⟩, armsWellFormed_of_covered hw.2 hc.2⟩

theorem Conditional.wellFormed_of_covered : ∀ {c : Conditional}, c.wellFormed true = true →
    c.covered = true → c.wellFormed guards = true
  | .mk bs none _, hw, hc => by
    simp only [Conditional.wellFormed, Conditional.covered, Bool.and_eq_true, and_true] at hw hc ⊢
    exact ⟨hw.1, branchesWellFormed_of_covered hw.2 hc⟩
  | .mk bs (some b) _, hw, hc => by
    simp only [Conditional.wellFormed, Conditional.covered, Bool.and_eq_true] at hw hc ⊢
    exact ⟨⟨hw.1.1, branchesWellFormed_of_covered hw.1.2 hc.1⟩, Block.wellFormed_of_covered hw.2 hc.2⟩

theorem branchesWellFormed_of_covered : ∀ {bs : List Branch}, branchesWellFormed true bs = true →
    branchesCovered bs = true → branchesWellFormed guards bs = true
  | [], _, _ => rfl
  | .mk _ body :: rest, hw, hc => by
    simp only [branchesWellFormed, branchesCovered, Bool.and_eq_true] at hw hc ⊢
    exact ⟨⟨hw.1.1, Block.wellFormed_of_covered hw.1.2 hc.1⟩, branchesWellFormed_of_covered hw.2 hc.2⟩

end

end Covered

/-! ### The wrappers in lowered code -/

namespace Lowered

mutual

/-- The loops in a statement that test a flag, each with its flag and its body. -/
def wrappers : Lowered → List (HiddenName × List Lowered)
  | branch arms none => wrappersOfArms arms
  | branch arms (some body) => wrappersOfArms arms ++ wrappersOf body
  | whileLoop (.not flag) body => (flag, body) :: wrappersOf body
  | whileLoop (.expr _) body => wrappersOf body
  | forLoop _ _ body => wrappersOf body
  | matchOn _ cases _ => wrappersOfCases cases
  | _ => []

def wrappersOf : List Lowered → List (HiddenName × List Lowered)
  | [] => []
  | s :: rest => s.wrappers ++ wrappersOf rest

def wrappersOfArms : List LoweredArm → List (HiddenName × List Lowered)
  | [] => []
  | .mk _ body :: rest => wrappersOf body ++ wrappersOfArms rest

def wrappersOfCases : List LoweredCase → List (HiddenName × List Lowered)
  | [] => []
  | .mk _ _ body :: rest => wrappersOf body ++ wrappersOfCases rest

end

@[simp] theorem wrappersOf_nil : wrappersOf [] = [] := rfl

@[simp] theorem wrappersOf_cons (s : Lowered) (rest : List Lowered) :
    wrappersOf (s :: rest) = s.wrappers ++ wrappersOf rest := rfl

@[simp] theorem wrappersOf_append (xs ys : List Lowered) :
    wrappersOf (xs ++ ys) = wrappersOf xs ++ wrappersOf ys := by
  induction xs with
  | nil => rfl
  | cons s rest ih => simp [ih]

@[simp] theorem wrappersOf_suite (stmts : List Lowered) : wrappersOf (suite stmts) = wrappersOf stmts := by
  cases stmts <;> rfl

theorem wrappers_branch (arms : List LoweredArm) (orelse : Option (List Lowered)) :
    (branch arms orelse).wrappers = wrappersOfArms arms ++ wrappersOf (orelse.getD []) := by
  cases orelse <;> simp [wrappers]

end Lowered

namespace Lowering

open Lowered

variable {guards : Bool} {span : Span}

/-- The loop is the wrapper of a well-formed block. -/
def IsWrapper (guards : Bool) (p : HiddenName × List Lowered) : Prop :=
  ∃ b w t t' tree, b.wellFormed guards = true ∧ Yields (lowerBlock guards (innerSink w) b) t tree t' ∧
    w.exit.isValid = true ∧ w.exit.render ∈ t.names.reserved ∧ t.wrapper = some w ∧ t.loopDepth = 0 ∧
    p = (w.exit, suite tree)

/-- Every loop in the code that tests a flag is the wrapper of a well-formed block. -/
def OnlyWrappers (guards : Bool) (stmts : List Lowered) : Prop :=
  ∀ p ∈ wrappersOf stmts, IsWrapper guards p

theorem onlyWrappers_of_eq_nil {stmts : List Lowered} (h : wrappersOf stmts = []) :
    OnlyWrappers guards stmts := by
  intro p hp
  rw [h] at hp
  cases hp

theorem OnlyWrappers.append {xs ys : List Lowered} (hx : OnlyWrappers guards xs)
    (hy : OnlyWrappers guards ys) : OnlyWrappers guards (xs ++ ys) := by
  intro p hp
  rw [wrappersOf_append] at hp
  rcases List.mem_append.1 hp with hp | hp
  · exact hx p hp
  · exact hy p hp

theorem wrappersOf_deliver {sink : Sink} {value : Option Expr} {stmts : List Lowered}
    (h : deliver sink value = .ok stmts) : wrappersOf stmts = [] := by
  obtain ⟨main, hp, hf⟩ := deliver_eq_ok h
  have hmain : wrappersOf main = [] := by
    rw [placed] at hp
    split at hp
    · split at hp
      · cases hp
        rfl
      · split at hp
        · cases hp
        · cases hp
          rfl
    · cases hp
      rfl
    · cases hp
      cases value <;> rfl
  unfold flagged at hf
  split at hf
  · cases hf
    exact hmain
  · split at hf
    · cases hf
      exact hmain
    · split at hf
      · cases hf
        simp [hmain, wrappers]
      · cases hf

theorem always_delivered (sink : Sink) (value : Option Expr) :
    Always (delivered sink value) fun stmts => wrappersOf stmts = [] := by
  intro st stmts st' h
  exact wrappersOf_deliver (Yields.delivered_iff.1 h).1

theorem always_escapeTo (e : Expr) : Always (escapeTo span e) fun stmts => wrappersOf stmts = [] := by
  refine .after fun st => ?_
  split
  · exact .throw _
  · exact .pure rfl

theorem wrappersOf_assigned (name : HiddenName) (value : Option Expr) :
    wrappersOf (assigned name value) = [] := by
  cases value <;> rfl

/-- Lifting an escape makes no loops. -/
theorem always_lift (e : Expr) : Always (lift span e) fun p => wrappersOf p.1 = [] := by
  induction e with
  | plain text buried =>
    change Always (if _ then _ else _) _
    exact .refuse (.pure rfl)
  | hidden name => exact .pure rfl
  | escape text mark operand ih =>
    refine ih.bind fun ⟨prelude, value⟩ hp => ?_
    cases value with
    | none => exact .pure hp
    | some v =>
      refine (always_escapeTo v).bind fun stmts hs => .pure ?_
      simp_all
  | logical c opening left before after right closing ihl ihr =>
    rw [lift]
    refine .ite (fun _ => .pure rfl) fun _ => ihl.bind fun ⟨prelude, left?⟩ hp => ?_
    cases left? with
    | none => exact .pure hp
    | some left' =>
      refine .ite (fun _ => .after fun _ => .pure hp) fun _ => .after fun name => ?_
      refine ihr.bind fun ⟨guarded, right?⟩ hb => .after fun _ => .pure ?_
      simp_all [wrappers, wrappersOfArms, wrappersOf_assigned]
  | conditional opening body ifText test elseText orelse closing ihb iht iho =>
    rw [lift]
    refine .ite (fun _ => .pure rfl) fun _ => iht.bind fun ⟨prelude, test?⟩ hp => ?_
    cases test? with
    | none => exact .pure hp
    | some test' =>
      refine .after fun name => ihb.bind fun ⟨first, body?⟩ hf => ?_
      refine iho.bind fun ⟨second, orelse?⟩ hs => .after fun _ => .pure ?_
      simp_all [wrappers, wrappersOfArms, wrappersOf_assigned]

theorem always_lowerEscape (e : Escape) :
    Always (lowerEscape e) fun stmts => wrappersOf stmts = [] := by
  refine (always_lift e.value).bind fun ⟨prelude, value⟩ hp => ?_
  cases value with
  | none => exact .pure hp
  | some v =>
    refine (always_escapeTo v).bind fun stmts hs => .pure ?_
    simp_all

theorem always_lowerSimple (s : Simple) :
    Always (lowerSimple s span) fun stmts => wrappersOf stmts = [] := by
  refine .after fun _ => .ite (fun _ => .pure rfl) fun _ => ?_
  cases s.value with
  | none => exact .pure rfl
  | some e =>
    refine (always_lift e).bind fun ⟨prelude, value⟩ hp => ?_
    cases value with
    | none => exact .pure hp
    | some v =>
      refine .after fun _ => .pure ?_
      simp_all [wrappers]

theorem always_afterLoop (escapes : Bool) :
    Always (afterLoop escapes) fun stmts => wrappersOf stmts = [] := by
  refine .after fun st => ?_
  split
  · exact .ite (fun _ => .pure rfl) fun _ => .pure rfl
  · exact .pure rfl

theorem always_closeMatch (source : Expr) (cases : List LoweredCase) :
    Always (closeMatch guards source cases span) fun m => m.wrappers = wrappersOfCases cases := by
  refine .ite (fun _ => .after fun _ => .pure rfl) fun _ => .ite (fun _ => .pure rfl) fun _ => ?_
  exact .after fun _ => .after fun _ => .after fun _ => .after fun _ => .after fun _ => .pure rfl

theorem always_andThen {here rest : Lower (List Lowered)} {leaves : Bool}
    (hh : Always here (OnlyWrappers guards)) (hr : Always rest (OnlyWrappers guards)) :
    Always (andThen here leaves rest) (OnlyWrappers guards) :=
  hh.bind fun _ hs => .ite (fun _ => .pure hs) fun _ => hr.bind fun _ ht => .pure (hs.append ht)

/-- The wrapper that a boundary block may add is the one of the block itself. -/
theorem always_boundary {escapes : Bool} {sink : Sink} {b : Block} (hw : b.wellFormed guards = true)
    (hb : ∀ sink, Always (lowerBlock guards sink b) (OnlyWrappers guards)) :
    Always (boundary escapes span sink fun s => lowerBlock guards s b)
      fun r => OnlyWrappers guards r.body := by
  intro st r st' h
  cases escapes with
  | false =>
    obtain ⟨t, hy, -⟩ := h.boundary_false
    exact hb sink hy
  | true =>
    obtain ⟨w, t, t', tree, after, hy, rfl, -, he, hn, ht, hl, ha, hr, -⟩ := h.boundary_true
    have hafter : wrappersOf after = [] := by
      split at ha
      · rw [ha]
        rfl
      · exact wrappersOf_deliver ha
    have hres : st.names.wrapper.1.exit.render ∈ t.names.reserved := by
      rw [hn, Allocator.reserved_wrapper]
      simp
    intro p hp
    simp only [hr, wrappersOf_append, wrappersOf_cons, wrappersOf_nil, wrappers, wrappersOf_suite,
      hafter, List.nil_append, List.append_nil, List.mem_cons] at hp
    rcases hp with rfl | hp
    · exact ⟨b, _, t, t', tree, hw, hy, he, hres, ht, hl, rfl⟩
    · exact hb _ hy p hp

/-- A chain put behind an `if` keeps its wrappers. -/
theorem wrappers_continueWith (chain : List Lowered) :
    (Lowered.branch (continueWith chain).1 (continueWith chain).2).wrappers = wrappersOf chain := by
  unfold continueWith
  split
  · simp
  · simp [wrappers_branch, wrappersOfArms]

theorem always_withLoop {m : Lower (List Lowered)} {P : List Lowered → Prop} (h : Always m P) :
    Always (withLoop m) P := by
  intro st stmts st' hy
  obtain ⟨t, hy, -⟩ := Yields.withLoop_iff.1 hy
  exact h hy

/-- The code of a loop with the test of the flag after it. -/
theorem always_loop {body : Block} {loop : List Lowered → Lowered} {escapes : Bool}
    (hb : Always (lowerBlock guards .discard body) (OnlyWrappers guards))
    (hl : ∀ stmts, (loop stmts).wrappers = wrappersOf stmts) :
    Always (do
      let inside ← withLoop (lowerBlock guards .discard body)
      return loop (suite inside) :: (← afterLoop escapes)) (OnlyWrappers guards) := by
  refine (always_withLoop hb).bind fun inside hi => (always_afterLoop escapes).bind fun after ha => ?_
  refine .pure fun p hp => hi p ?_
  simpa [hl, ha] using hp

mutual

theorem always_lowerBlock (sink : Sink) : ∀ {b : Block}, b.wellFormed guards = true →
    Always (lowerBlock guards sink b) (OnlyWrappers guards)
  | .mk ss none _ _, hb => by
    simp only [Block.wellFormed, Bool.and_true] at hb
    refine always_lowerStatements ?_ hb
    intro st stmts st' hy
    exact onlyWrappers_of_eq_nil (always_delivered sink none hy)
  | .mk ss (some t) span _, hb => by
    simp only [Block.wellFormed, Bool.and_eq_true] at hb
    exact always_lowerStatements (always_lowerTail sink span hb.2) hb.1

theorem always_lowerStatements {finish : Lower (List Lowered)}
    (hf : Always finish (OnlyWrappers guards)) : ∀ {ss : List Statement},
    statementsWellFormed guards ss = true →
    Always (lowerStatements guards finish ss) (OnlyWrappers guards)
  | [], _ => hf
  | s :: rest, hs => by
    simp only [statementsWellFormed, Bool.and_eq_true] at hs
    have hr := always_lowerStatements hf hs.2
    obtain ⟨hs, -⟩ := hs
    cases s with
    | simple s span =>
      refine always_andThen ?_ hr
      intro st stmts st' hy
      exact onlyWrappers_of_eq_nil (always_lowerSimple s hy)
    | escape e =>
      refine always_andThen ?_ hr
      intro st stmts st' hy
      exact onlyWrappers_of_eq_nil (always_lowerEscape e hy)
    | letMatch primary source arms span =>
      simp only [Statement.wellFormed, Bool.and_eq_true] at hs
      refine (always_lift source).bind fun ⟨prelude, source?⟩ hp => ?_
      cases source? with
      | none => exact .pure (onlyWrappers_of_eq_nil hp)
      | some e =>
        refine hr.bind fun body hbody => (always_lowerArms hs.2).bind fun cases hcases => ?_
        refine (always_closeMatch e _).bind fun m hm => .pure ?_
        refine (onlyWrappers_of_eq_nil hp).append fun p hmem => ?_
        simp only [wrappersOf_cons, wrappersOf_nil, List.append_nil, hm, wrappersOfCases,
          wrappersOf_suite, List.mem_append] at hmem
        rcases hmem with hmem | hmem
        · exact hbody p hmem
        · exact hcases p hmem
    | conditional c => exact always_andThen (always_lowerConditional .discard hs) hr
    | whileLoop test body span =>
      simp only [Statement.wellFormed, Bool.and_eq_true] at hs
      exact always_andThen (always_loop (always_lowerBlock .discard hs.2) fun _ => rfl) hr
    | forLoop target iterable body span =>
      simp only [Statement.wellFormed, Bool.and_eq_true] at hs
      refine always_andThen ((always_lift iterable).bind fun ⟨prelude, iterable?⟩ hp => ?_) hr
      cases iterable? with
      | none => exact .pure (onlyWrappers_of_eq_nil hp)
      | some e =>
        refine (always_withLoop (always_lowerBlock .discard hs.2)).bind fun inside hi => ?_
        refine (always_afterLoop _).bind fun after ha => .pure ?_
        refine (onlyWrappers_of_eq_nil hp).append fun p hmem => hi p ?_
        simpa [wrappers, ha] using hmem
    | nested sink b span =>
      simp only [Statement.wellFormed, Bool.and_eq_true] at hs
      refine always_andThen ?_ hr
      exact (always_boundary hs.2 fun sink => always_lowerBlock sink hs.2).bind fun r hw => .pure hw

theorem always_lowerTail (sink : Sink) (span : Span) : ∀ {t : Tail}, t.wellFormed guards = true →
    Always (lowerTail guards sink span t) (OnlyWrappers guards)
  | .value e, _ => by
    refine (always_lift e).bind fun ⟨prelude, value⟩ hp => ?_
    cases value with
    | none => exact .pure (onlyWrappers_of_eq_nil hp)
    | some v =>
      refine (always_delivered sink (some v)).bind fun stmts hs => .pure ?_
      exact (onlyWrappers_of_eq_nil hp).append (onlyWrappers_of_eq_nil hs)
  | .escape e, _ => by
    intro st stmts st' hy
    exact onlyWrappers_of_eq_nil (always_lowerEscape e hy)
  | .conditional c, hc => always_lowerConditional sink hc
  | .block b, hb =>
    (always_boundary hb fun sink => always_lowerBlock sink hb).bind fun r hw => .pure hw

theorem always_lowerArms : ∀ {arms : List Arm}, armsWellFormed guards arms = true →
    Always (lowerArms guards arms) fun cases => ∀ p ∈ wrappersOfCases cases, IsWrapper guards p
  | [], _ => .pure (by simp [wrappersOfCases])
  | .mk pattern guard body span _ :: rest, ha => by
    simp only [armsWellFormed, Bool.and_eq_true] at ha
    refine .ite (fun _ => .thrown) fun _ => ?_
    refine (always_lowerBlock .discard ha.1.2).bind fun b hb => ?_
    refine (always_lowerArms ha.2).bind fun cases hc => .pure fun p hp => ?_
    simp only [wrappersOfCases, wrappersOf_suite, List.mem_append] at hp
    rcases hp with hp | hp
    · exact hb p hp
    · exact hc p hp

theorem always_lowerConditional (sink : Sink) : ∀ {c : Conditional}, c.wellFormed guards = true →
    Always (lowerConditional guards sink c) (OnlyWrappers guards)
  | .mk bs none span, hc => by
    simp only [Conditional.wellFormed, Bool.and_eq_true] at hc
    refine (always_delivered sink none).bind fun stmts hs => .bind (.pure rfl) fun other ho => ?_
    have hother : OnlyWrappers guards (other.getD []) := by
      refine onlyWrappers_of_eq_nil ?_
      rw [← ho]
      split <;> simp [hs]
    exact (always_lowerBranches sink span hother hc.1.2).bind fun r hr => .pure hr
  | .mk bs (some b) span, hc => by
    simp only [Conditional.wellFormed, Bool.and_eq_true] at hc
    refine (always_lowerBlock sink hc.2).bind fun stmts hs => .bind (.pure rfl) fun other ho => ?_
    have hother : OnlyWrappers guards (other.getD []) := by
      rw [← ho]
      intro p hp
      exact hs p (by simpa using hp)
    exact (always_lowerBranches sink span hother hc.1.2).bind fun r hr => .pure hr

theorem always_lowerBranches (sink : Sink) (span : Span) {orelse : Option (List Lowered)}
    (ho : OnlyWrappers guards (orelse.getD [])) : ∀ {bs : List Branch},
    branchesWellFormed guards bs = true →
    Always (lowerBranches guards sink span orelse bs) fun r => OnlyWrappers guards (r.getD [])
  | [], _ => .pure (onlyWrappers_of_eq_nil rfl)
  | .mk test body :: rest, hb => by
    simp only [branchesWellFormed, Bool.and_eq_true] at hb
    refine (always_lowerBranches sink span ho hb.2).bind fun later hl => ?_
    -- what comes after the branch: the chain of later branches, or else `orelse`
    have hchain : ∀ p ∈ (Lowered.branch ((later.map continueWith).getD ([], orelse)).1
        ((later.map continueWith).getD ([], orelse)).2).wrappers, IsWrapper guards p := by
      intro p hp
      cases later with
      | none => exact ho p (by simpa [wrappers_branch, wrappersOfArms] using hp)
      | some chain => exact hl p (by simpa [wrappers_continueWith] using hp)
    refine (always_lift test).bind fun ⟨prelude, test?⟩ hp => ?_
    cases test? with
    | none => exact .pure (onlyWrappers_of_eq_nil hp)
    | some t =>
      refine (always_lowerBlock sink hb.1.2).bind fun stmts hs => .pure ?_
      refine (onlyWrappers_of_eq_nil hp).append fun p hmem => ?_
      simp only [wrappersOf_cons, wrappersOf_nil, List.append_nil, wrappers_branch, wrappersOfArms,
        wrappersOf_suite, List.append_assoc, List.mem_append] at hmem hchain
      rcases hmem with hmem | hmem
      · exact hs p hmem
      · exact hchain p hmem

end

/-! ### A wrapper runs once -/

variable {σ V ι : Type}

/-- Inside a wrapper, as far as its flag is concerned: the flag is down until there is an escape, and
loop control cannot leave. -/
def flagDown (I : Interpretation σ V ι) (flag : HiddenName) : Surroundings V where
  calm H := H flag.render = some (I.constant .false)
  escaped _ H := H flag.render = some (I.constant .true)
  free := False

theorem fits_flagDown (I : Interpretation σ V ι) {w : WrapperNames} {t : State}
    (hr : w.exit.render ∈ t.names.reserved) (ht : t.wrapper = some w) (hl : t.loopDepth = 0) :
    Fits I (flagDown I w.exit) t where
  write {H name v} hname hH := by
    have hne : w.exit.render ≠ name := fun h => hname (h ▸ hr)
    exact (Store.write_ne hne H v).trans hH
  flag_down h' hH := by
    obtain rfl := Option.some.inj (ht.symm.trans h')
    exact hH
  flag_up h' hH := by
    obtain rfl := Option.some.inj (ht.symm.trans h')
    exact hH
  escape h' _ := by
    obtain rfl := Option.some.inj (ht.symm.trans h')
    exact Store.write_self _ _ _
  none h' := by
    rw [ht] at h'
    cases h'
  free := iff_of_false id fun h => absurd (h (by rw [ht]; rfl)) (by omega)

/-- What one run of the body of a wrapper comes to, started with the flag down. -/
theorem IsWrapper.body_ends {p : HiddenName × List Lowered} (hp : IsWrapper guards p)
    (I : Interpretation σ V ι) {u u' : σ} {H H' : Store V} {x : Except (Exit V Empty) Unit}
    (hH : H p.1.render = some (I.constant .false)) (hx : I.execAll p.2 (u, H) x (u', H')) :
    x ≠ .error .continue ∧ (x = .ok () → H' p.1.render = some (I.constant .true)) := by
  obtain ⟨b, w, t, t', tree, hb, hy, he, hr, ht, hl, rfl⟩ := hp
  have hd : Delivers I (flagDown I w.exit) (innerSink w) pure fun _ _ H =>
      H w.exit.render = some (I.constant .true) :=
    .inner he (fun _ => Store.write_self _ _ _) fun _ => Store.write_self _ _ _
  have hsim := blockPreserved hb hy (fits_flagDown I hr ht hl) (fun _ => hd) hH
  rw [I.execAll_suite] at hx
  obtain ⟨r, -, hq⟩ := hsim.back hx
  cases hq with
  | ok hup => exact ⟨nofun, fun _ => hup⟩
  | «break» hfree _ => exact hfree.elim
  | «continue» hfree _ => exact hfree.elim
  | «return» => exact ⟨nofun, nofun⟩
  | raise => exact ⟨nofun, nofun⟩
  | escape _ => exact ⟨nofun, nofun⟩

/-- The test of a flag that has a value. -/
theorem evalTest_not_bind_iff (I : Interpretation σ V ι) {α : Type} {flag : HiddenName} {v : V}
    {f : Bool → Code σ V α} {u : σ} {H : Store V} {x : Except (Exit V Empty) α} {s' : σ × Store V}
    (hv : H flag.render = some v) :
    (I.evalTest (.not flag) >>= f) (u, H) x s' ↔ f (!I.truthy v) (u, H) x s' := by
  rw [Interpretation.evalTest, bind_assoc]
  constructor
  · rintro ⟨r, t, ⟨rfl, rfl⟩, h⟩
    simp only [hv] at h
    change (pure (!I.truthy v) >>= f) (u, H) x s' at h
    rwa [pure_bind] at h
  · intro h
    refine ⟨.ok v, (u, H), ⟨rfl, by simp only [hv]⟩, ?_⟩
    change (pure (!I.truthy v) >>= f) (u, H) x s'
    rwa [pure_bind]

/-- How a loop ends whose body ended with `x`, if there is no second trip. -/
def onceEnd : Except (Exit V Empty) Unit → Except (Exit V Empty) Unit
  | .error .break => .ok ()
  | x => x

/-- A loop that tests a flag and whose body raises it, or else leaves, ends as its body does. -/
theorem execWhile_iff_once (I : Interpretation σ V ι) {flag : HiddenName} {body : Code σ V Unit} {u : σ}
    {H : Store V} (hH : H flag.render = some (I.constant .false))
    (hbody : ∀ x u' H', body (u, H) x (u', H') →
      x ≠ .error .continue ∧ (x = .ok () → H' flag.render = some (I.constant .true)))
    {r : Except (Exit V Empty) Unit} {s' : σ × Store V} :
    I.execWhile (.not flag) body (u, H) r s' ↔ ∃ x, body (u, H) x s' ∧ r = onceEnd x := by
  -- with the flag up the loop is over
  have stops {u' : σ} {H' : Store V} (hup : H' flag.render = some (I.constant .true)) :
      I.execWhile (.not flag) body (u', H') r s' ↔ r = .ok () ∧ s' = (u', H') := by
    rw [I.execWhile_eq, evalTest_not_bind_iff I hup, I.truthy_true]
    exact Iff.rfl.trans (by simp [pure_iff])
  rw [I.execWhile_eq, evalTest_not_bind_iff I hH, I.truthy_false]
  constructor
  · rintro ⟨y, t, ⟨x, hx, rfl⟩, hrest⟩
    obtain ⟨u', H'⟩ := t
    obtain ⟨hne, hup⟩ := hbody x u' H' hx
    cases x with
    | ok _ =>
      obtain ⟨rfl, rfl⟩ := (stops (hup rfl)).1 hrest
      exact ⟨_, hx, rfl⟩
    | error e =>
      cases e with
      | «continue» => exact absurd rfl hne
      | «break» | «return» v | raise v =>
        obtain ⟨rfl, rfl⟩ := hrest
        exact ⟨_, hx, rfl⟩
      | escape e => exact e.elim
  · rintro ⟨x, hx, rfl⟩
    obtain ⟨u', H'⟩ := s'
    obtain ⟨hne, hup⟩ := hbody x u' H' hx
    refine ⟨tripEnd () x, (u', H'), ⟨x, hx, rfl⟩, ?_⟩
    cases x with
    | ok _ => exact (stops (hup rfl)).2 ⟨rfl, rfl⟩
    | error e =>
      cases e with
      | «continue» => exact absurd rfl hne
      | «break» | «return» v | raise v => exact ⟨rfl, rfl⟩
      | escape e => exact e.elim

/-- Started with the flag down, the body of a wrapper cannot reach its end with the flag still down and
cannot continue the loop, and the loop comes to exactly the ends of one run of its body. -/
theorem wrapper_runs_once (I : Interpretation σ V ι) {b : Block} {sink : Sink} {st st' : State}
    {r : Result} {flag : HiddenName} {body : List Lowered} {u : σ} {H : Store V} (hb : b.Accepted)
    (hc : guards = true ∨ b.covered = true) (h : Yields (lower guards sink b) st r st')
    (hm : (flag, body) ∈ wrappersOf r.statements) (hH : H flag.render = some (I.constant .false)) :
    (∀ x u' H', I.execAll body (u, H) x (u', H') →
      x ≠ .error .continue ∧ (x = .ok () → H' flag.render = some (I.constant .true))) ∧
    ∀ x s', I.exec (.whileLoop (.not flag) body) (u, H) x s' ↔
      ∃ y, I.execAll body (u, H) y s' ∧ x = onceEnd y := by
  have hw : b.wellFormed guards = true := by
    rcases hc with rfl | hc
    · exact hb.wellFormed
    · exact Block.wellFormed_of_covered hb.wellFormed hc
  have hwrapper : IsWrapper guards (flag, body) := by
    rw [Result.statements, wrappersOf_suite] at hm
    exact always_boundary hw (fun sink => always_lowerBlock sink hw) h _ hm
  have hbody : ∀ x u' H', I.execAll body (u, H) x (u', H') →
      x ≠ .error .continue ∧ (x = .ok () → H' flag.render = some (I.constant .true)) :=
    fun x u' H' hx => hwrapper.body_ends I hH hx
  exact ⟨hbody, fun x s' => execWhile_iff_once I hH hbody⟩

/-- Two wrappers, one inside the other, without catch-alls: an escape leaves a loop in each of them. -/
theorem wrapper_runs_once_nested :
    ∃ (b : Block) (r : Result) (st' : State) (flag : HiddenName) (body : List Lowered),
      Block.parse "do" "do \x7b\n for x in xs \x7b y = do \x7b\n while p \x7b ^x \x7d\n z \x7d\n q(y) and ^y \x7d\n 0 \x7d"
        = .ok b ∧
      Yields (lower false .returning b) (.initial ⟨"hid", 0, ["hid_exit_0"]⟩) r st' ∧
      (wrappersOf r.statements).length = 2 ∧ (flag, body) ∈ wrappersOf r.statements ∧
      (∀ x n H', counting.execAll body (0, Store.empty.write flag.render false) x (n, H') →
        x ≠ .error .continue ∧ (x = .ok () → H' flag.render = some true)) ∧
      ∀ x s', counting.exec (.whileLoop (.not flag) body) (0, Store.empty.write flag.render false) x s' ↔
        ∃ y, counting.execAll body (0, Store.empty.write flag.render false) y s' ∧ x = onceEnd y := by
  obtain ⟨b, hb, hlower⟩ := Block.exists_parse_of_reads (show Block.reads "do"
    "do \x7b\n for x in xs \x7b y = do \x7b\n while p \x7b ^x \x7d\n z \x7d\n q(y) and ^y \x7d\n 0 \x7d"
    (fun b => passes (lower false .returning b) (.initial ⟨"hid", 0, ["hid_exit_0"]⟩)
      fun r _ => b.covered && (wrappersOf r.statements).length == 2) = true by decide +kernel)
  obtain ⟨r, st', hy, hrun⟩ := exists_yields_of_passes hlower
  simp only [Bool.and_eq_true, beq_iff_eq] at hrun
  obtain ⟨⟨flag, body⟩, hm⟩ := List.exists_mem_of_length_pos (l := wrappersOf r.statements) (by omega)
  exact ⟨b, r, st', flag, body, hb, hy, hrun.2, hm, wrapper_runs_once counting (.inl ⟨_, _, hb⟩)
    (.inr hrun.1) hy hm (Store.write_self _ _ _)⟩

/-- A match whose patterns can all refuse the value, with nothing after them. -/
def isOpenMatch : List Lowered → Bool
  | [.matchOn e cases none] => !e.hasHidden && cases.all fun | .mk p _ _ => !p.irrefutable
  | _ => false

/-- A value that no case takes goes past the match, and no generated name changes. -/
theorem isOpenMatch.falls_through {stmts : List Lowered} (h : isOpenMatch stmts = true) (n : Nat)
    (H : Store Bool) : ∃ n', counting.execAll stmts (n, H) (.ok ()) (n', H) := by
  unfold isOpenMatch at h
  split at h
  · rename_i e cases
    simp only [Bool.and_eq_true, Bool.not_eq_true'] at h
    have hcases : ∀ v n, ∃ n', counting.execCases v (pure ()) cases (n, H) (.ok ()) (n', H) := by
      have hc := h.2
      clear h
      induction cases with
      | nil => exact fun v n => ⟨n, rfl, rfl⟩
      | cons c rest ih =>
        obtain ⟨p, guard, body⟩ := c
        simp only [List.all_cons, Bool.and_eq_true, Bool.not_eq_true'] at hc
        intro v n
        obtain ⟨n', hn'⟩ := ih hc.2 v (n + 1)
        refine ⟨n', .ok false, (n + 1, H), ?_, hn'⟩
        exact ⟨.ok false, (n + 1, H), ⟨⟨.ok false, ⟨by rw [hc.1], rfl⟩, rfl⟩, rfl⟩, rfl, rfl⟩
    obtain ⟨n', hn'⟩ := hcases (n % 2 == 0) (n + 1)
    refine ⟨n', ?_⟩
    rw [counting.execAll_singleton]
    refine ⟨.ok (n % 2 == 0), (n + 1, H), ?_, hn'⟩
    rw [counting.evalExpr_eq_onUser h.1]
    exact ⟨⟨.ok (n % 2 == 0), ⟨rfl, rfl⟩, rfl⟩, rfl⟩
  · cases h

/-- Without catch-alls the body of a wrapper can reach its end with the flag down, so that the loop runs
it again. -/
theorem wrapper_runs_twice :
    ∃ (b : Block) (r : Result) (st' : State) (flag : HiddenName) (body : List Lowered),
      Block.parse "do" "\x7b let 1 match x else 2 => ^3\n y \x7d" = .ok b ∧
      Yields (lower false .returning b) (.initial ⟨"_lm", 0, []⟩) r st' ∧
      (flag, body) ∈ wrappersOf r.statements ∧
      ∃ n H', counting.execAll body (0, Store.empty.write flag.render false) (.ok ()) (n, H') ∧
        H' flag.render = some false := by
  obtain ⟨b, hb, hlower⟩ := Block.exists_parse_of_reads (show Block.reads "do"
    "\x7b let 1 match x else 2 => ^3\n y \x7d"
    (fun b => passes (lower false .returning b) (.initial ⟨"_lm", 0, []⟩)
      fun r _ => (wrappersOf r.statements).any fun p => isOpenMatch p.2) = true by decide +kernel)
  obtain ⟨r, st', hy, hrun⟩ := exists_yields_of_passes hlower
  obtain ⟨⟨flag, body⟩, hm, hopen⟩ := List.any_eq_true.1 hrun
  obtain ⟨n, hn⟩ := isOpenMatch.falls_through hopen 0 (Store.empty.write flag.render false)
  exact ⟨b, r, st', flag, body, hb, hy, hm, n, _, hn, Store.write_self _ _ _⟩

end Lowering

end DoBlocks
