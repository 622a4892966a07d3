import Mathlib.Data.List.Perm.Subperm
import DoBlocks.Proofs.Constructs
import DoBlocks.Proofs.Leaves
import DoBlocks.Proofs.Provenance

/-!
# Leaves are written once

The code of a block holds the leaves of the block in the order of their evaluation, each once, without those that
cannot be reached.
-/

namespace DoBlocks

/-! ### The leaves of lowered code -/

def Value.leaves : Value → List Leaf
  | expr e => e.leaves
  | constant _ => []

def Test.leaves : Test → List Leaf
  | expr e => e.leaves
  | not _ => []

namespace Lowered

open Lowering

mutual

/-- The leaves in a statement in the order of their evaluation. Generated names are none, and neither are the
targets of sinks. -/
def leaves : Lowered → List Leaf
  | simple s => s.leaves
  | assign _ value => value.leaves
  | set _ value => value.leaves
  | .return value => (value.map Expr.leaves).getD []
  | evaluate e => e.leaves
  | .break => []
  | pass => []
  | branch arms none => leavesOfArms arms
  | branch arms (some body) => leavesOfArms arms ++ leavesOf body
  | whileLoop test body => test.leaves ++ leavesOf body
  | forLoop target iterable body => iterable.leaves ++ .target target :: leavesOf body
  | matchOn subject cases _ => subject.leaves ++ leavesOfCases cases

def leavesOf : List Lowered → List Leaf
  | [] => []
  | s :: rest => s.leaves ++ leavesOf rest

def leavesOfArms : List LoweredArm → List Leaf
  | [] => []
  | .mk test body :: rest => test.leaves ++ leavesOf body ++ leavesOfArms rest

def leavesOfCases : List LoweredCase → List Leaf
  | [] => []
  | .mk pattern guard body :: rest =>
    .pattern pattern :: (guard.map Expr.leaves).getD [] ++ leavesOf body ++ leavesOfCases rest

end

@[simp] theorem leavesOf_nil : leavesOf [] = [] := rfl

@[simp] theorem leavesOf_cons (s : Lowered) (rest : List Lowered) :
    leavesOf (s :: rest) = s.leaves ++ leavesOf rest := rfl

@[simp] theorem leavesOf_append (xs ys : List Lowered) : leavesOf (xs ++ ys) = leavesOf xs ++ leavesOf ys := by
  induction xs with
  | nil => rfl
  | cons s rest ih => simp [ih]

@[simp] theorem leavesOf_suite (stmts : List Lowered) : leavesOf (suite stmts) = leavesOf stmts := by
  cases stmts <;> rfl

theorem leaves_branch (arms : List LoweredArm) (orelse : Option (List Lowered)) :
    (branch arms orelse).leaves = leavesOfArms arms ++ leavesOf (orelse.getD []) := by
  cases orelse <;> simp [leaves]

theorem leaves_continueWith (chain : List Lowered) :
    (branch (continueWith chain).1 (continueWith chain).2).leaves = leavesOf chain := by
  unfold continueWith
  split
  · simp
  · simp [leaves_branch, leavesOfArms]

end Lowered

namespace Lowering

open Lowered Occurrence

variable {guards : Bool} {span : Span} {st st' : State}

/-! ### Values -/

section Straight

variable {stmts : List Lowered} {sink : Sink} {e : Expr} {p : List Lowered × Option Expr} {xs : List Leaf}
  {escapes : Bool}

attribute [local simp] Lowered.leaves Lowered.leavesOfArms Lowered.leavesOfCases

theorem leavesOf_flagged {flag : Option Name} {main : List Lowered} (h : flagged flag main = .ok stmts) :
    leavesOf stmts = leavesOf main := by
  unfold flagged at h
  split at h
  · cases h
    rfl
  · split at h
    · cases h
      rfl
    · split at h <;> cases h
      simp [Value.leaves]

/-- A value is delivered once. -/
theorem leavesOf_deliver {value : Option Expr} (h : deliver sink value = .ok stmts) :
    leavesOf stmts = (value.map Expr.leaves).getD [] := by
  obtain ⟨main, hp, hf⟩ := deliver_eq_ok h
  rw [leavesOf_flagged hf]
  unfold placed at hp
  cases value with
  | none =>
    split at hp
    · split at hp
      · cases hp
        rfl
      · split at hp <;> cases hp
        rfl
    · cases hp
      rfl
    · cases hp
      rfl
  | some v =>
    split at hp
    · rw [Option.isNone_some, Bool.false_and, if_neg (by decide)] at hp
      split at hp <;> cases hp
      simp [Value.leaves]
    · cases hp
      simp
    · cases hp
      simp

theorem leavesOf_leaveWrapper (w : WrapperNames) (v : Expr) : leavesOf (leaveWrapper w v) = v.leaves := by
  simp [leaveWrapper, Value.leaves]

theorem leavesOf_assigned (name : HiddenName) (value : Option Expr) :
    leavesOf (assigned name value) = (value.map Expr.leaves).getD [] := by
  cases value <;> simp [assigned, Value.leaves]

theorem leaves_connectiveTest (c : Connective) (name : HiddenName) : (connectiveTest c name).leaves = [] := by
  cases c <;> rfl

theorem leavesOf_lift_of_not_hasEscape (hw : e.written = true) (he : e.hasEscape = false)
    (h : Yields (lift span e) st p st') :
    leavesOf p.1 ++ (p.2.map Expr.leaves).getD [] = kept e.occurrences := by
  obtain ⟨rfl, -⟩ := h.lift_of_not_hasEscape he
  simp [Expr.leaves_eq_singleton he hw, Expr.occurrences_eq_singleton he]

/-- The leaves of an expression are in the code that is lifted out of it and in the value that is left. -/
theorem leavesOf_lift (hw : e.written = true) (h : Yields (lift span e) st p st') :
    leavesOf p.1 ++ (p.2.map Expr.leaves).getD [] = kept e.occurrences := by
  induction e generalizing st p st' with
  | plain text buried => exact leavesOf_lift_of_not_hasEscape hw h.lift_plain h
  | hidden name => cases hw
  | escape text mark operand ih =>
    obtain ⟨prelude, ho, rfl⟩ | ⟨prelude, v, w, ho, -, rfl⟩ := h.lift_escape
    · exact ih hw ho
    · simpa [leavesOf_leaveWrapper, Expr.occurrences] using ih hw ho
  | logical c opening left before after right closing ihl ihr =>
    by_cases he : (left.hasEscape || right.hasEscape) = true
    · simp only [Expr.written, Bool.and_eq_true] at hw
      rw [Expr.occurrences, if_pos he, kept_append, kept_lose_when]
      obtain ⟨prelude, hl, rfl⟩ | ⟨prelude, left', hl, hr, rfl⟩ |
        ⟨prelude, left', t, name, branch, right?, hl, -, hr, rfl⟩ := h.lift_logical he
      · simpa [hl.lift_eq_none_iff.1 rfl] using ihl hw.1 hl
      · -- the left operand has the escapes, so a generated name is left of it
        have hhidden := hl.hasHidden_of_lift (by simpa [hr] using he)
        have hleft := ihl hw.1 hl
        rw [if_neg (fun he => Option.some_ne_none _ (hl.lift_eq_none_iff.2 he)), ← hleft, Expr.occurrences_eq_singleton hr]
        simp [Expr.leaves, hhidden, Expr.leaves_eq_singleton hr hw.2]
      · have hleft := ihl hw.1 hl
        rw [if_neg (fun he => Option.some_ne_none _ (hl.lift_eq_none_iff.2 he)), ← hleft, ← ihr hw.2 hr]
        simp [Value.leaves, leaves_connectiveTest, leavesOf_assigned,
          Expr.leaves]
    · rw [← Expr.hasEscape_logical, Bool.not_eq_true] at he
      exact leavesOf_lift_of_not_hasEscape hw he h
  | conditional opening body ifText test elseText orelse closing ihb iht iho =>
    by_cases he : (body.hasEscape || test.hasEscape || orelse.hasEscape) = true
    · simp only [Expr.written, Bool.and_eq_true] at hw
      rw [Expr.occurrences, if_pos he, kept_append, kept_lose_when, kept_append]
      obtain ⟨prelude, ht, rfl⟩ |
        ⟨prelude, test', t, name, first, body?, t', second, orelse?, ht, -, hb, ho, rfl⟩ :=
          h.lift_conditional he
      · simpa [ht.lift_eq_none_iff.1 rfl] using iht hw.1.2 ht
      · have hvalue : ((if body?.isSome || orelse?.isSome then some (Expr.hidden name) else none).map
            Expr.leaves).getD [] = [] := by
          split <;> rfl
        have htest := iht hw.1.2 ht
        rw [if_neg (fun he => Option.some_ne_none _ (ht.lift_eq_none_iff.2 he)), ← htest, ← ihb hw.1.1 hb, ← iho hw.2 ho, hvalue]
        simp [Test.leaves, leavesOf_assigned]
    · rw [← Expr.hasEscape_conditional, Bool.not_eq_true] at he
      exact leavesOf_lift_of_not_hasEscape hw he h

/-! ### Blocks -/

/-- The step writes code with these leaves. -/
def Writes (xs : List Leaf) (m : Lower (List Lowered)) : Prop := Always m fun stmts => leavesOf stmts = xs

theorem writes_delivered (sink : Sink) (value : Option Expr) :
    Writes ((value.map Expr.leaves).getD []) (delivered sink value) := by
  intro st stmts st' h
  exact leavesOf_deliver (Yields.delivered_iff.1 h).1

theorem writes_lowerEscape {e : Escape} (hw : e.value.written = true) :
    Writes (kept e.value.occurrences) (lowerEscape e) := by
  intro st stmts st' h
  obtain hl | ⟨prelude, v, w, hl, -, rfl⟩ := h.lowerEscape_cases
  · simpa using leavesOf_lift hw hl
  · simpa [leavesOf_leaveWrapper] using leavesOf_lift hw hl

theorem writes_lowerSimple {s : Simple} (hw : s.value.all Expr.written = true) :
    Writes (kept s.occurrences) (lowerSimple s span) := by
  intro st stmts st' h
  obtain ⟨-, ⟨hv, rfl⟩ | ⟨e, prelude, value, hv, he, hl, rfl⟩⟩ := h.lowerSimple_cases
  · have hstatement : s.leaves = [.statement s] ∧ s.occurrences = [.plain (.statement s)] := by
      unfold Simple.leaves Simple.occurrences
      cases hs : s.value with
      | none => exact ⟨rfl, rfl⟩
      | some e =>
        rw [hs] at hw
        simp [hv e hs, Expr.hasHidden_eq_false hw]
    simp [hstatement]
  · rw [hv] at hw
    have hleaves := leavesOf_lift hw hl
    rw [Simple.occurrences, hv]
    simp only [he, if_true, kept_append, kept_lose_when, kept_plain, kept_nil]
    rw [← hleaves]
    cases value with
    | none => simp [hl.lift_eq_none_iff.1 rfl]
    | some v =>
      rw [if_neg (fun he => Option.some_ne_none _ (hl.lift_eq_none_iff.2 he))]
      simp [Simple.leaves, hl.hasHidden_of_lift he]

/-- After a statement that diverges nothing is written. -/
theorem writes_andThen {here rest : Lower (List Lowered)} {leaves : Bool} {front later : List Occurrence}
    (hh : Writes (kept front) here) (hr : Writes (kept later) rest) :
    Writes (kept (front ++ lose (Loss.diverged.when leaves) (later ++ []))) (andThen here leaves rest) := by
  intro st stmts st' h
  rw [kept_append, kept_lose_when, List.append_nil]
  obtain ⟨rfl, hy⟩ | ⟨rfl, first, t, later, hy, hlater, rfl⟩ := h.andThen_cases
  · simpa using hh hy
  · simp [hh hy, hr hlater]

/-- A host loop; `prelude` is what its iterable was lifted to. -/
theorem leavesOf_loop (prelude : List Lowered) {inside : Lower (List Lowered)} {header : List Leaf}
    {loop : List Lowered → Lowered} (hin : Writes xs inside)
    (hloop : ∀ body, (loop body).leaves = header ++ leavesOf body) (h : Yields (do
      let body ← withLoop inside
      return prelude ++ loop (suite body) :: (← afterLoop escapes)) st stmts st') :
    leavesOf stmts = leavesOf prelude ++ header ++ xs := by
  obtain ⟨body, t, after, hy, hafter, rfl⟩ := h.loop_cases
  have hafter : leavesOf after = [] := by
    obtain rfl | ⟨w, rfl⟩ := hafter
    · rfl
    · rfl
  simp [hloop, hin hy, hafter]

theorem leavesOf_boundary {inside : Sink → Lower (List Lowered)} {r : Result} (hi : ∀ s, Writes xs (inside s))
    (h : Yields (boundary escapes span sink inside) st r st') :
    leavesOf r.body = xs := by
  obtain ⟨-, t, hy, -, -⟩ | ⟨-, w, t, t', tree, after, hy, -, -, hafter, hbody⟩ := h.boundary_cases
  · exact hi _ hy
  · have hafter : leavesOf after = [] := by
      split at hafter
      · rw [hafter, leavesOf_nil]
      · exact leavesOf_deliver hafter
    simp [hbody, Value.leaves, Test.leaves, hi _ hy, hafter]

end Straight

/-- A branch and what continues it. -/
theorem leaves_branch_cons {test : Test} {inside : List Lowered} {later orelse : Option (List Lowered)} :
    (Lowered.branch (.mk test (suite inside) :: ((later.map continueWith).getD ([], orelse)).1)
      ((later.map continueWith).getD ([], orelse)).2).leaves =
      test.leaves ++ leavesOf inside ++ leavesOf (later.getD [.branch [] orelse]) := by
  have hlater : (Lowered.branch ((later.map continueWith).getD ([], orelse)).1
      ((later.map continueWith).getD ([], orelse)).2).leaves = leavesOf (later.getD [.branch [] orelse]) := by
    cases later with
    | none => simp
    | some chain => exact leaves_continueWith chain
  rw [leaves_branch] at hlater ⊢
  rw [← hlater, Lowered.leavesOfArms, leavesOf_suite]
  simp

variable (guards)

mutual

theorem writes_lowerBlock (sink : Sink) : ∀ {b : Block}, b.wellFormed true = true →
    Writes (kept b.occurrences) (lowerBlock guards sink b)
  | .mk ss none _ _, hb => by
    rw [Block.wellFormed, Bool.and_true] at hb
    have hfinish : Writes (kept []) (delivered sink none) := writes_delivered sink none
    exact writes_lowerStatements hfinish hb
  | .mk ss (some t) span _, hb => by
    simp only [Block.wellFormed, Bool.and_eq_true] at hb
    exact writes_lowerStatements (writes_lowerTail sink span hb.2) hb.1

theorem writes_lowerStatements {finish : Lower (List Lowered)} {xs : List Occurrence}
    (hf : Writes (kept xs) finish) : ∀ {ss : List Statement}, statementsWellFormed true ss = true →
    Writes (kept (statementsOccurrences xs ss)) (lowerStatements guards finish ss)
  | [], _ => hf
  | s :: rest, hs => by
    simp only [statementsWellFormed, Bool.and_eq_true] at hs
    have hr := writes_lowerStatements hf hs.2
    obtain ⟨hs, -⟩ := hs
    cases s with
    | simple s span => exact writes_andThen (writes_lowerSimple hs) hr
    | escape e => exact writes_andThen (writes_lowerEscape hs) hr
    | letMatch primary source arms span =>
      simp only [Statement.wellFormed, Bool.and_eq_true] at hs
      simp only [statementsOccurrences, Statement.front, Statement.losses, Statement.fallbacks, kept_append,
        kept_lose_when]
      intro st stmts st' h
      obtain hl | ⟨prelude, e, t, body, t₁, cases, t₂, catchAll, hl, hbody, hcases, -, rfl⟩ := h.letMatch_cases
      · simpa [hl.lift_eq_none_iff.1 rfl] using leavesOf_lift hs.1.1 hl
      · have he : source.alwaysEscapes = false := Bool.eq_false_iff.2 fun he => nomatch hl.lift_eq_none_iff.2 he
        have hsource := leavesOf_lift hs.1.1 hl
        simp [he, ← hsource, Lowered.leaves, Lowered.leavesOfCases, hr hbody, writes_lowerArms hs.2 hcases]
    | conditional c => exact writes_andThen (writes_lowerConditional .discard hs) hr
    | whileLoop test body span =>
      simp only [Statement.wellFormed, Expr.fixed, Bool.and_eq_true, Bool.not_eq_true'] at hs
      have hbody := writes_lowerBlock .discard hs.2
      refine writes_andThen (fun u first u' hy => ?_) hr
      rw [Statement.front, kept_append, Expr.occurrences_eq_singleton hs.1.2, kept_plain, kept_nil,
        ← Expr.leaves_eq_singleton hs.1.2 hs.1.1]
      exact leavesOf_loop [] hbody (fun _ => rfl) hy
    | forLoop target iterable body span =>
      simp only [Statement.wellFormed, Bool.and_eq_true] at hs
      have hbody := writes_lowerBlock .discard hs.2
      refine writes_andThen (fun u first u' hy => ?_) hr
      rw [Statement.front, kept_append, kept_lose_when, kept_plain]
      obtain ⟨⟨prelude, iterable?⟩, t, hl, hy⟩ := Yields.bind_iff.1 hy
      have hiterable := leavesOf_lift hs.1 hl
      cases iterable? with
      | none =>
        obtain ⟨rfl, -⟩ := Yields.pure_iff.1 hy
        simpa [hl.lift_eq_none_iff.1 rfl] using hiterable
      | some e =>
        have hloop (body : List Lowered) :
            (Lowered.forLoop target e body).leaves = (e.leaves ++ [.target target]) ++ leavesOf body := by
          simp [Lowered.leaves]
        rw [if_neg (fun he => Option.some_ne_none _ (hl.lift_eq_none_iff.2 he)), ← hiterable, leavesOf_loop prelude hbody hloop hy]
        simp
    | nested sink b span =>
      simp only [Statement.wellFormed, Bool.and_eq_true] at hs
      refine writes_andThen (fun u first u' hy => ?_) hr
      obtain ⟨r, t, hb, hy⟩ := Yields.bind_iff.1 hy
      obtain ⟨rfl, -⟩ := Yields.pure_iff.1 hy
      exact leavesOf_boundary (fun s => writes_lowerBlock s hs.2) hb

theorem writes_lowerTail (sink : Sink) (span : Span) : ∀ {t : Tail}, t.wellFormed true = true →
    Writes (kept t.occurrences) (lowerTail guards sink span t)
  | .value e, ht => by
    intro st stmts st' h
    obtain hl | ⟨prelude, v, t, later, hl, hd, rfl⟩ := h.lift_bind_cases
    · simpa [Tail.occurrences] using leavesOf_lift ht hl
    · simpa [Tail.occurrences, leavesOf_deliver (Yields.delivered_iff.1 hd).1] using leavesOf_lift ht hl
  | .escape e, ht => writes_lowerEscape ht
  | .conditional c, ht => writes_lowerConditional sink ht
  | .block b, ht => by
    intro st stmts st' h
    obtain ⟨r, t, hb, h⟩ := Yields.bind_iff.1 h
    obtain ⟨rfl, -⟩ := Yields.pure_iff.1 h
    exact leavesOf_boundary (fun s => writes_lowerBlock s ht) hb

theorem writes_lowerArms : ∀ {arms : List Arm}, armsWellFormed true arms = true →
    Always (lowerArms guards arms) fun cases => leavesOfCases cases = kept (armsOccurrences arms)
  | [], _ => .pure rfl
  | .mk pattern guard body span _ :: rest, ha => by
    simp only [armsWellFormed, Bool.and_eq_true] at ha
    intro st cases st' h
    obtain ⟨-, stmts, t, cases', hb, hrest, rfl⟩ := h.lowerArms_cons
    have hguard : (guard.map Expr.leaves).getD [] = kept ((guard.map Expr.occurrences).getD []) := by
      cases guard with
      | none => rfl
      | some e =>
        simp only [Option.all_some, Expr.fixed, Bool.and_eq_true, Bool.not_eq_true'] at ha
        simp [Expr.leaves_eq_singleton ha.1.1.2 ha.1.1.1, Expr.occurrences_eq_singleton ha.1.1.2]
    simp [Lowered.leavesOfCases, armsOccurrences, hguard, writes_lowerBlock .discard ha.1.2 hb,
      writes_lowerArms ha.2 hrest]

theorem writes_lowerConditional (sink : Sink) : ∀ {c : Conditional}, c.wellFormed true = true →
    Writes (kept c.occurrences) (lowerConditional guards sink c)
  | .mk [] orelse span, hc => by simp [Conditional.wellFormed] at hc
  | .mk (br :: bs) none span, hc => by
    simp only [Conditional.wellFormed, Bool.and_eq_true] at hc
    intro st stmts st' h
    obtain ⟨other, t, result, hr, rfl, ⟨_, _, ho, -⟩ | ⟨body, -, hd, -, rfl⟩⟩ := h.lowerConditional_cases
    · cases ho
    · have hother : leavesOf [.branch [] (if body.isEmpty then none else some body)] = kept [] := by
        have hbody := leavesOf_deliver hd
        split <;> simp [Lowered.leaves, Lowered.leavesOfArms, hbody]
      obtain ⟨chain, rfl⟩ := hr.exists_of_lowerBranches
      exact writes_lowerBranches sink span hother hc.1.2 hr
  | .mk (br :: bs) (some b) span, hc => by
    simp only [Conditional.wellFormed, Bool.and_eq_true] at hc
    intro st stmts st' h
    obtain ⟨other, t, result, hr, rfl, ⟨_, body, ho, hb, rfl⟩ | ⟨_, ho, -⟩⟩ := h.lowerConditional_cases
    · cases ho
      have hother : leavesOf [.branch [] (some (suite body))] = kept b.occurrences := by
        simp [Lowered.leaves, Lowered.leavesOfArms, writes_lowerBlock sink hc.2 hb]
      obtain ⟨chain, rfl⟩ := hr.exists_of_lowerBranches
      exact writes_lowerBranches sink span hother hc.1.2 hr
    · cases ho

theorem writes_lowerBranches (sink : Sink) (span : Span) {orelse : Option (List Lowered)} {xs : List Occurrence}
    (ho : leavesOf [.branch [] orelse] = kept xs) : ∀ {bs : List Branch}, branchesWellFormed true bs = true →
    Always (lowerBranches guards sink span orelse bs) fun r =>
      leavesOf (r.getD [.branch [] orelse]) = kept (branchesOccurrences xs bs)
  | [], _ => .pure ho
  | .mk test body :: rest, hb => by
    simp only [branchesWellFormed, Bool.and_eq_true] at hb
    intro st r st' h
    rw [branchesOccurrences, kept_append, kept_lose_when, kept_append]
    obtain ⟨later, t, prelude, hlater, ⟨hl, rfl⟩ | ⟨e, u, inside, hl, hin, rfl⟩⟩ := h.lowerBranches_cons
    · simpa [hl.lift_eq_none_iff.1 rfl] using leavesOf_lift hb.1.1 hl
    · have htest := leavesOf_lift hb.1.1 hl
      rw [if_neg (fun he => Option.some_ne_none _ (hl.lift_eq_none_iff.2 he)), ← htest, ← writes_lowerBlock sink hb.1.2 hin,
        ← writes_lowerBranches sink span ho hb.2 hlater]
      simp [leaves_branch_cons, Test.leaves]

end

/-! ### The theorem -/

/-- A statement of a block and the rest of the block have their leaves one after the other in the code. -/
theorem kept_split {b c : Block} (hc : c ∈ b.blocks) {before rest : List Statement} {s : Statement}
    (hs : c.statements = before ++ s :: rest) :
    ∃ xs front later ys, b.occurrences = xs ++ front ++ later ++ ys ∧ all front = all s.front ∧
      all later = all (statementsOccurrences c.finish rest) ∧
      kept b.occurrences = kept xs ++ kept front ++ kept later ++ kept ys := by
  obtain ⟨xs, why, ys, hsplit⟩ := Block.within_split hc hs
  rw [lose_append, ← List.append_assoc] at hsplit
  refine ⟨xs, lose why s.front, lose why (lose s.losses (statementsOccurrences c.finish rest)), ys, hsplit, ?_⟩
  simp [hsplit]

/-- The code of a block holds the leaves of the block, each at most once, in the order of their evaluation. Only
those are missing that cannot be reached: after a statement of their block that diverges, in or after a match
whose source always escapes, in or after a branch whose test does, in a loop whose iterable does, after an operand
that does, or as the frame of a value that does. The leaves of a statement, but for the arms of a match, come
before those of the rest of its block. -/
theorem leaves_are_written_once {b : Block} (hb : b.Accepted) {guards : Bool} {sink : Sink} {st st' : State}
    {r : Result} (h : Yields (lower guards sink b) st r st') :
    (all b.occurrences).Perm b.leaves ∧
    leavesOf r.statements = kept b.occurrences ∧
    (leavesOf r.statements).Subperm b.leaves ∧
    ∀ c ∈ b.blocks, ∀ before s rest, c.statements = before ++ s :: rest →
      ∃ xs front later ys, b.occurrences = xs ++ front ++ later ++ ys ∧ all front = all s.front ∧
        all later = all (statementsOccurrences c.finish rest) ∧
        leavesOf r.statements = kept xs ++ kept front ++ kept later ++ kept ys := by
  have hwritten : leavesOf r.statements = kept b.occurrences := by
    rw [Result.statements, leavesOf_suite]
    exact leavesOf_boundary (fun s => writes_lowerBlock guards s hb.wellFormed) h
  have hperm := Block.perm_leaves hb.wellFormed
  rw [hwritten]
  exact ⟨hperm, rfl, (kept_sublist _).subperm.trans hperm.subperm, fun c hc before s rest hs => kept_split hc hs⟩

/-- A match whose source can escape, a loop with an escape, and a branch that escapes in its test: of 12
leaves all are written but the body of the branch and the tail. -/
theorem leaves_are_written_once_match :
    ∃ b r st', Block.parse "do"
        "do \x7b\n let [a] match f or ^u else [] => ^v\n for i in a \x7b g(i) and ^w \x7d\n if ^n \x7b o \x7d\n p \x7d"
          = .ok b ∧
      Yields (lower true .returning b) (.initial ⟨"_lm", 0, []⟩) r st' ∧
      b.leaves.length = 12 ∧ (leavesOf r.statements).length = 10 ∧
      leavesOf r.statements = kept b.occurrences ∧ (leavesOf r.statements).Subperm b.leaves := by
  obtain ⟨b, hb, htest⟩ := Block.exists_parse_of_reads (show Block.reads "do"
    "do \x7b\n let [a] match f or ^u else [] => ^v\n for i in a \x7b g(i) and ^w \x7d\n if ^n \x7b o \x7d\n p \x7d"
    (fun b => b.leaves.length == 12 &&
      passes (lower true .returning b) (.initial ⟨"_lm", 0, []⟩) fun r _ =>
        (leavesOf r.statements).length == 10) = true by decide +kernel)
  obtain ⟨hleaves, hlower⟩ := Bool.and_eq_true_iff.1 htest
  obtain ⟨r, st', hy, hwritten⟩ := exists_yields_of_passes hlower
  obtain ⟨-, hkept, hsub, -⟩ := leaves_are_written_once (.inl ⟨_, _, hb⟩ : b.Accepted) hy
  exact ⟨b, r, st', hb, hy, beq_iff_eq.1 hleaves, beq_iff_eq.1 hwritten, hkept, hsub⟩

/-- The arms of a match do not come after it, and still they are missing if its source always escapes. -/
theorem escaping_match_drops_its_arms :
    ∃ b s r st', Block.parse "do" "do \x7b let 1 match ^x else 2 => return y\n z \x7d" = .ok b ∧
      b.statements = [s] ∧ Yields (lower true .returning b) (.initial ⟨"_lm", 0, []⟩) r st' ∧
      (all s.fallbacks).length = 2 ∧ ∀ leaf ∈ all s.fallbacks, leaf ∈ b.leaves ∧ leaf ∉ leavesOf r.statements := by
  obtain ⟨b, hb, htest⟩ := Block.exists_parse_of_reads (show Block.reads "do"
    "do \x7b let 1 match ^x else 2 => return y\n z \x7d"
    (fun b => b.statements.length == 1 && b.statements.all fun s => (all s.fallbacks).length == 2 &&
      passes (lower true .returning b) (.initial ⟨"_lm", 0, []⟩) fun r _ =>
        (all s.fallbacks).all fun leaf => b.leaves.contains leaf && !(leavesOf r.statements).contains leaf) = true
    by decide +kernel)
  obtain ⟨hone, htest⟩ := Bool.and_eq_true_iff.1 htest
  obtain ⟨s, hs⟩ := List.length_eq_one_iff.1 (beq_iff_eq.1 hone)
  obtain ⟨hlength, hlower⟩ := Bool.and_eq_true_iff.1 (List.all_eq_true.1 htest s (by simp [hs]))
  obtain ⟨r, st', hy, harms⟩ := exists_yields_of_passes hlower
  refine ⟨b, s, r, st', hb, hs, hy, beq_iff_eq.1 hlength, fun leaf hleaf => ?_⟩
  simpa using List.all_eq_true.1 harms leaf hleaf

end Lowering

end DoBlocks
