import DoBlocks.Proofs.LoweringSteps

/-!
# Where lowered code comes from

Every expression in lowered code is a generated name or was in the block, with the left operands of
connectives replaced by what is left of them, and no escape is left in it. Statements, patterns and
targets are those of the block. `Sources` says what is known of the fragments of a block; it passes to
the code that the block is lowered to.
-/

namespace DoBlocks

/-- What is known of the host fragments of a block. -/
structure Sources where
  expr : Expr → Prop
  simple : Simple → Prop
  pattern : Pattern → Prop
  /-- The target of a loop. -/
  target : Host.Surface → Prop
  /-- The targets of an assignment. -/
  targets : List Target → Prop

/-! ### Blocks -/

namespace Expr

/-- The expression is one that satisfies `P`, or an operand in it. -/
inductive Within (P : Expr → Prop) : Expr → Prop
  | whole {e : Expr} : P e → Within P e
  | operand {text : Host.Surface} {mark : EscapeMark} {e : Expr} :
    Within P (.escape text mark e) → Within P e
  | left {c : Connective} {opening before after closing : Host.Surface} {left right : Expr} :
    Within P (.logical c opening left before after right closing) → Within P left
  | right {c : Connective} {opening before after closing : Host.Surface} {left right : Expr} :
    Within P (.logical c opening left before after right closing) → Within P right
  | body {opening ifText elseText closing : Host.Surface} {body test orelse : Expr} :
    Within P (.conditional opening body ifText test elseText orelse closing) → Within P body
  | test {opening ifText elseText closing : Host.Surface} {body test orelse : Expr} :
    Within P (.conditional opening body ifText test elseText orelse closing) → Within P test
  | orelse {opening ifText elseText closing : Host.Surface} {body test orelse : Expr} :
    Within P (.conditional opening body ifText test elseText orelse closing) → Within P orelse

/-- What can be left of expressions that satisfy `P` once their escapes are lifted. -/
inductive Remains (P : Expr → Prop) : Expr → Prop
  | hidden (name : HiddenName) : Remains P (.hidden name)
  | kept {e : Expr} : Within P e → e.marks = [] → Remains P e
  | left {c : Connective} {opening before after closing : Host.Surface} {left left' right : Expr} :
    Within P (.logical c opening left before after right closing) → Remains P left' →
    right.marks = [] → Remains P (.logical c opening left' before after right closing)

theorem Remains.marks_eq_nil {P : Expr → Prop} {e : Expr} (h : Remains P e) : e.marks = [] := by
  induction h with
  | hidden name => rfl
  | kept _ hmarks => exact hmarks
  | left _ _ hright ih => rw [marks, ih, hright, List.append_nil]

theorem marks_eq_nil_iff {e : Expr} : e.marks = [] ↔ e.hasEscape = false := by
  simp [hasEscape]

end Expr

variable (F : Sources)

/-- The targets of a sink are generated or known. -/
def Sink.Known (s : Sink) : Prop :=
  match s.destination with
  | .assign targets => (∃ name, targets = [.hidden name]) ∨ F.targets targets
  | _ => True

/-- The expression is known, and all its escapes can be lifted. -/
def Expr.Liftable (e : Expr) : Prop := F.expr e ∧ e.misplaced = []

/-- The expression is known, and there are no escapes in it. -/
def Expr.Kept (e : Expr) : Prop := F.expr e ∧ e.marks = []

mutual

/-- All fragments of the block are known, and all escapes stand where they can be lifted from. -/
def Block.Liftable : Block → Prop
  | .mk statements tail _ _ => statementsLiftable statements ∧ tailLiftable tail

def tailLiftable : Option Tail → Prop
  | none => True
  | some t => t.Liftable

def Tail.Liftable : Tail → Prop
  | .value e => e.Liftable F
  | .escape e => e.value.Liftable F
  | .conditional c => c.Liftable
  | .block b => b.Liftable

def statementsLiftable : List Statement → Prop
  | [] => True
  | s :: rest => s.Liftable ∧ statementsLiftable rest

def Statement.Liftable : Statement → Prop
  | .simple s _ => F.simple s ∧ s.misplaced = [] ∧ ∀ e ∈ s.value, F.expr e
  | .escape e => e.value.Liftable F
  | .letMatch primary source arms _ => F.pattern primary ∧ source.Liftable F ∧ armsLiftable arms
  | .conditional c => c.Liftable
  | .whileLoop test body _ => test.Kept F ∧ body.Liftable
  | .forLoop target iterable body _ => F.target target ∧ iterable.Liftable F ∧ body.Liftable
  | .nested sink b _ => sink.Known F ∧ b.Liftable

def armsLiftable : List Arm → Prop
  | [] => True
  | .mk pattern guard body _ _ :: rest =>
    F.pattern pattern ∧ (∀ e ∈ guard, e.Kept F) ∧ body.Liftable ∧ armsLiftable rest

def Conditional.Liftable : Conditional → Prop
  | .mk branches orelse _ => branchesLiftable branches ∧ elseLiftable orelse

def elseLiftable : Option Block → Prop
  | none => True
  | some b => b.Liftable

def branchesLiftable : List Branch → Prop
  | [] => True
  | .mk test body :: rest => test.Liftable F ∧ body.Liftable ∧ branchesLiftable rest

end

/-! ### Lowered code -/

/-- No escape is in the expression, and it is what is left of known ones. -/
def Expr.Clear (e : Expr) : Prop := e.marks = [] ∧ e.Remains F.expr

/-- No escape is in the statement, and it is a known one, perhaps with what is left of its value. -/
def Simple.Clear (s : Simple) : Prop :=
  s.marks = [] ∧ ∃ s₀, F.simple s₀ ∧ (s = s₀ ∨ ∃ v, v.Clear F ∧ s = { s₀ with value := some v })

def Value.Clear : Value → Prop
  | .expr e => e.Clear F
  | .constant _ => True

def Test.Clear : Test → Prop
  | .expr e => e.Clear F
  | .not _ => True

namespace Lowered

mutual

/-- No escape is in the statement, and what is not generated in it is known. -/
def Clear : Lowered → Prop
  | simple s => s.Clear F
  | assign targets value => ((∃ name, targets = [.hidden name]) ∨ F.targets targets) ∧ value.Clear F
  | set _ value => value.Clear F
  | .return value => ∀ e ∈ value, e.Clear F
  | evaluate e => e.Clear F
  | .break => True
  | pass => True
  | branch arms orelse => armsClear arms ∧ elseClear orelse
  | whileLoop test body => test.Clear F ∧ allClear body
  | forLoop target iterable body => F.target target ∧ iterable.Clear F ∧ allClear body
  | matchOn subject cases _ => subject.Clear F ∧ casesClear cases

def allClear : List Lowered → Prop
  | [] => True
  | s :: rest => s.Clear ∧ allClear rest

def elseClear : Option (List Lowered) → Prop
  | none => True
  | some body => allClear body

def armsClear : List LoweredArm → Prop
  | [] => True
  | .mk test body :: rest => test.Clear F ∧ allClear body ∧ armsClear rest

def casesClear : List LoweredCase → Prop
  | [] => True
  | .mk pattern guard body :: rest =>
    F.pattern pattern ∧ (∀ e ∈ guard, e.Clear F) ∧ allClear body ∧ casesClear rest

end

variable {F}

theorem allClear_append {xs ys : List Lowered} :
    allClear F (xs ++ ys) ↔ allClear F xs ∧ allClear F ys := by
  induction xs with
  | nil => simp [allClear]
  | cons x xs ih => simp [allClear, ih, and_assoc]

theorem allClear_singleton {x : Lowered} : allClear F [x] ↔ x.Clear F := by simp [allClear]

theorem allClear_suite {xs : List Lowered} : allClear F (suite xs) ↔ allClear F xs := by
  unfold suite
  split
  · rename_i hempty
    rw [List.isEmpty_iff.1 hempty]
    simp [allClear, Clear]
  · rfl

end Lowered

variable {F}

theorem Sink.known_discard : Sink.discard.Known F := trivial

theorem Expr.Remains.clear {e : Expr} (h : e.Remains F.expr) : e.Clear F := ⟨h.marks_eq_nil, h⟩

theorem Expr.clear_hidden (name : HiddenName) : (Expr.hidden name).Clear F := (Remains.hidden name).clear

theorem Expr.Kept.clear {e : Expr} (h : e.Kept F) : e.Clear F := (Remains.kept (.whole h.1) h.2).clear

namespace Lowering

open Sink (known_discard)
open Lowered (allClear armsClear elseClear casesClear allClear_append allClear_suite allClear_singleton)

/-! ### Steps -/

namespace Clears

variable {span : Span} {F : Sources}

theorem delivered {sink : Sink} {value : Option Expr} (hs : sink.Known F) (hv : ∀ v ∈ value, v.Clear F) :
    Always (delivered sink value) (allClear F) := by
  unfold Lowering.delivered
  split
  · rename_i stmts hd
    obtain ⟨main, flag, rfl, hmain, hflag⟩ := deliver_cases hd
    refine .pure (allClear_append.2 ⟨?_, ?_⟩)
    · rcases hmain with rfl | rfl | ⟨v, rfl, rfl⟩ | ⟨targets, hdest, rfl⟩
      · trivial
      · exact allClear_singleton.2 hv
      · exact allClear_singleton.2 (hv v rfl)
      · rw [Sink.Known, hdest] at hs
        refine allClear_singleton.2 ⟨hs, ?_⟩
        cases value with
        | none => trivial
        | some v => exact hv v rfl
    · rcases hflag with rfl | ⟨name, -, rfl⟩
      · trivial
      · exact allClear_singleton.2 trivial
  · exact .throw _

theorem delivered_none {sink : Sink} (hs : sink.Known F) : Always (Lowering.delivered sink none) (allClear F) :=
  delivered hs nofun

theorem clear_leaveWrapper {w : WrapperNames} {v : Expr} (hv : v.Clear F) : allClear F (leaveWrapper w v) :=
  ⟨hv, trivial, trivial, trivial⟩

theorem escapeTo {v : Expr} (hv : v.Clear F) : Always (escapeTo span v) (allClear F) := by
  refine .after fun st => ?_
  split
  · exact .throw _
  · exact .pure (clear_leaveWrapper hv)

theorem clear_assigned {name : HiddenName} {value : Option Expr} (hv : ∀ v ∈ value, v.Clear F) :
    allClear F (assigned name value) := by
  cases value with
  | none => trivial
  | some v => exact allClear_singleton.2 (hv v rfl)

theorem clear_connectiveTest (c : Connective) (name : HiddenName) : (connectiveTest c name).Clear F := by
  cases c with
  | and => exact Expr.clear_hidden name
  | or => trivial

/-- What is lifted out of an expression, and what is left of it. -/
theorem lift {e : Expr} (hF : e.Within F.expr) :
    Always (lift span e) fun p => allClear F p.1 ∧ ∀ v ∈ p.2, v.Clear F := by
  have hkept {e : Expr} (hF : e.Within F.expr) (he : e.hasEscape = false) : ∀ v ∈ some e, v.Clear F := by
    rintro v ⟨⟩
    exact (Expr.Remains.kept hF (Expr.marks_eq_nil_iff.2 he)).clear
  have hnamed (name : HiddenName) : ∀ v ∈ some (Expr.hidden name), v.Clear F := by
    rintro v ⟨⟩
    exact Expr.clear_hidden name
  have hnothing : ∀ v ∈ (none : Option Expr), v.Clear F := by simp
  induction e with
  | plain text buried =>
    change Always (if _ then _ else _) _
    exact .ite (fun _ => .thrown) fun h => .pure ⟨trivial, hkept hF (Bool.eq_false_iff.2 h)⟩
  | hidden name => exact .pure ⟨trivial, hnamed name⟩
  | escape text mark operand ih =>
    refine (ih hF.operand).bind fun r hp => ?_
    obtain ⟨prelude, value⟩ := r
    cases value with
    | none => exact .pure ⟨hp.1, hnothing⟩
    | some v =>
      exact (escapeTo (hp.2 v rfl)).bind fun stmts hstmts => .pure ⟨allClear_append.2 ⟨hp.1, hstmts⟩, hnothing⟩
  | logical c opening left before after right closing ihl ihr =>
    rw [Lowering.lift]
    refine .ite (fun hfree => .pure ⟨trivial, hkept hF ?_⟩) fun _ => ?_
    · simpa [Expr.hasEscape_logical] using hfree
    refine (ihl hF.left).bind fun r hp => ?_
    obtain ⟨prelude, left?⟩ := r
    cases left? with
    | none => exact .pure ⟨hp.1, hnothing⟩
    | some left' =>
      have hl := hp.2 left' rfl
      refine .ite (fun hfree => .after fun _ => .pure ⟨hp.1, ?_⟩) fun _ => .after fun name => ?_
      · rintro v ⟨⟩
        exact (Expr.Remains.left hF hl.2 (Expr.marks_eq_nil_iff.2 (by simpa using hfree))).clear
      refine (ihr hF.right).bind fun _ hr => .after fun _ =>
        .pure ⟨allClear_append.2 ⟨hp.1, hl, ⟨⟨clear_connectiveTest c name, ?_, trivial⟩, trivial⟩, trivial⟩, hnamed name⟩
      exact allClear_suite.2 (allClear_append.2 ⟨hr.1, clear_assigned hr.2⟩)
  | conditional opening body ifText test elseText orelse closing ihb iht iho =>
    rw [Lowering.lift]
    refine .ite (fun hfree => .pure ⟨trivial, hkept hF ?_⟩) fun _ => ?_
    · simpa [Expr.hasEscape_conditional, and_assoc] using hfree
    refine (iht hF.test).bind fun r hp => ?_
    obtain ⟨prelude, test?⟩ := r
    cases test? with
    | none => exact .pure ⟨hp.1, hnothing⟩
    | some test' =>
      refine .after fun name => (ihb hF.body).bind fun _ hb => (iho hF.orelse).bind fun _ ho =>
        .after fun _ => .pure ⟨?_, ?_⟩
      · refine allClear_append.2 ⟨hp.1, ⟨⟨hp.2 test' rfl, ?_, trivial⟩, ?_⟩, trivial⟩
        · exact allClear_suite.2 (allClear_append.2 ⟨hb.1, clear_assigned hb.2⟩)
        · exact allClear_suite.2 (allClear_append.2 ⟨ho.1, clear_assigned ho.2⟩)
      · dsimp only
        split
        · exact hnamed name
        · exact hnothing

theorem lowerEscape {e : Escape} (he : e.value.Liftable F) : Always (lowerEscape e) (allClear F) := by
  refine (lift (.whole he.1)).bind fun ⟨prelude, value⟩ hp => ?_
  cases value with
  | none => exact .pure hp.1
  | some v => exact (escapeTo (hp.2 v rfl)).bind fun _ hstmts => .pure (allClear_append.2 ⟨hp.1, hstmts⟩)

theorem lowerSimple {s : Simple} (hs : F.simple s) (hplaced : s.misplaced = []) (hF : ∀ e ∈ s.value, F.expr e) :
    Always (lowerSimple s span) (allClear F) := by
  obtain ⟨houtside, hvalue⟩ := List.append_eq_nil_iff.1 hplaced
  have hasIs (hfree : s.marks = []) : allClear F [.simple s] := allClear_singleton.2 ⟨hfree, s, hs, .inl rfl⟩
  refine .after fun _ => .ite (fun hfree => .pure (hasIs ?_)) fun _ => ?_
  · simpa [Simple.hasEscape] using hfree
  cases hv : s.value with
  | none => exact .pure (hasIs (by rw [Simple.marks, houtside, hv]; rfl))
  | some e =>
    refine (lift (.whole (hF e (by rw [hv]; rfl)))).bind fun r hp => ?_
    obtain ⟨prelude, value⟩ := r
    cases value with
    | none => exact .pure hp.1
    | some v =>
      have hclear := hp.2 v rfl
      refine .after fun _ => .pure (allClear_append.2 ⟨hp.1, allClear_singleton.2 ⟨?_, s, hs, .inr ⟨v, hclear, rfl⟩⟩⟩)
      rw [Simple.marks, houtside]
      exact hclear.1

theorem boundary {escapes : Bool} {sink : Sink} {inside : Sink → Lower (List Lowered)} (hs : sink.Known F)
    (h : ∀ s : Sink, s.Known F → Always (inside s) (allClear F)) :
    Always (boundary escapes span sink inside) fun r => allClear F r.body := by
  cases escapes with
  | false => exact .after fun _ => (h sink hs).bind fun _ hbody => .pure hbody
  | true =>
    have hin (w : WrapperNames) : Always (inWrapper w span sink inside) fun r => allClear F r.body := by
      have hinner : (innerSink w).Known F := .inl ⟨_, rfl⟩
      refine .after fun _ => .after fun _ => ((h _ hinner).withWrapper w).bind fun tree htree => ?_
      have hdone (after : List Lowered) (hafter : allClear F after) :
          allClear F ([.set (.hidden w.result) (.constant .none), .set (.hidden w.exit) (.constant .false),
            .whileLoop (.not w.exit) (Lowered.suite tree)] ++ after) :=
        allClear_append.2 ⟨⟨trivial, trivial, ⟨trivial, allClear_suite.2 htree⟩, trivial⟩, hafter⟩
      refine .ite (fun _ => ?_) fun _ => ?_
      · exact (Always.pure (a := []) (P := allClear F) trivial).bind fun after h => .after fun _ => .pure (hdone after h)
      · refine (delivered hs ?_).bind fun after h => .after fun _ => .pure (hdone after h)
        rintro v ⟨⟩
        exact Expr.clear_hidden w.result
    intro st r st' hy
    rw [Yields, outcome_boundary] at hy
    exact hin st.names.wrapper.1 hy

theorem afterLoop (escapes : Bool) : Always (afterLoop escapes) (allClear F) := by
  refine .after fun st => ?_
  split
  · exact .ite (fun _ => .pure ⟨⟨⟨Expr.clear_hidden _, ⟨trivial, trivial⟩, trivial⟩, trivial⟩, trivial⟩) fun _ => .pure trivial
  · exact .pure trivial

theorem closeMatch (guards : Bool) {source : Expr} {cases : List LoweredCase} (hs : source.Clear F)
    (hc : casesClear F cases) : Always (closeMatch guards source cases span) (Lowered.Clear F) := by
  refine .ite (fun _ => .after fun _ => .pure ⟨hs, hc⟩) fun _ => .ite (fun _ => .pure ⟨hs, hc⟩) fun _ => ?_
  exact .after fun _ => .after fun _ => .after fun _ => .after fun _ => .after fun _ => .pure ⟨hs, hc⟩

theorem andThen {here rest : Lower (List Lowered)} {leaves : Bool} (h : Always here (allClear F))
    (hr : Always rest (allClear F)) : Always (andThen here leaves rest) (allClear F) :=
  h.bind fun _ hstmts => .ite (fun _ => .pure hstmts) fun _ => hr.bind fun _ hrest =>
    .pure (allClear_append.2 ⟨hstmts, hrest⟩)

variable (guards : Bool)

theorem clear_continueWith {chain : List Lowered} (h : allClear F chain) :
    armsClear F (continueWith chain).1 ∧ elseClear F (continueWith chain).2 := by
  unfold continueWith
  split
  · exact h.1
  · exact ⟨trivial, allClear_suite.2 h⟩

mutual

theorem lowerBlock {sink : Sink} (hs : sink.Known F) :
    ∀ {b : Block}, b.Liftable F → Always (lowerBlock guards sink b) (allClear F)
  | .mk _ none _ _, h => lowerStatements (delivered_none hs) h.1
  | .mk _ (some _) span _, h => lowerStatements (lowerTail hs span h.2) h.1

theorem lowerStatements {finish : Lower (List Lowered)} (hf : Always finish (allClear F)) :
    ∀ {ss : List Statement}, statementsLiftable F ss → Always (lowerStatements guards finish ss) (allClear F)
  | [], _ => hf
  | .simple s span :: rest, ⟨⟨hs, hplaced, hvalue⟩, h⟩ =>
    andThen (lowerSimple hs hplaced hvalue) (lowerStatements hf h)
  | .escape e :: rest, ⟨he, h⟩ => andThen (lowerEscape he) (lowerStatements hf h)
  | .letMatch primary source arms span :: rest, ⟨⟨hp, hs, ha⟩, h⟩ => by
    refine (lift (.whole hs.1)).bind fun ⟨prelude, source?⟩ hl => ?_
    cases source? with
    | none => exact .pure hl.1
    | some e =>
      refine (lowerStatements hf h).bind fun body hbody => (lowerArms ha).bind fun cases hc => ?_
      have hcases : casesClear F (.mk primary none (Lowered.suite body) :: cases) :=
        ⟨hp, nofun, allClear_suite.2 hbody, hc⟩
      refine (closeMatch guards (hl.2 e rfl) hcases).bind fun m hm => ?_
      exact .pure (allClear_append.2 ⟨hl.1, allClear_singleton.2 hm⟩)
  | .conditional c :: rest, ⟨hc, h⟩ => andThen (lowerConditional known_discard hc) (lowerStatements hf h)
  | .whileLoop test body _ :: rest, ⟨⟨ht, hb⟩, h⟩ => by
    have hbody : Always (Lowering.lowerBlock guards .discard body) (allClear F) := lowerBlock known_discard hb
    have hloop {inside after : List Lowered} (hi : allClear F inside) (ha : allClear F after) :
        allClear F (.whileLoop (.expr test) (Lowered.suite inside) :: after) :=
      ⟨⟨ht.clear, allClear_suite.2 hi⟩, ha⟩
    exact andThen (hbody.withLoop.bind fun _ hi => (afterLoop (F := F) _).bind fun _ ha => .pure (hloop hi ha))
      (lowerStatements hf h)
  | .forLoop target iterable body span :: rest, ⟨⟨ht, hi, hb⟩, h⟩ => by
    refine andThen ((lift (.whole hi.1)).bind fun ⟨prelude, iterable?⟩ hl => ?_) (lowerStatements hf h)
    cases iterable? with
    | none => exact .pure hl.1
    | some e =>
      have hbody : Always (Lowering.lowerBlock guards .discard body) (allClear F) := lowerBlock known_discard hb
      refine hbody.withLoop.bind fun inside hin => (afterLoop (F := F) _).bind fun after ha => .pure ?_
      exact allClear_append.2 ⟨hl.1, ⟨ht, hl.2 e rfl, allClear_suite.2 hin⟩, ha⟩
  | .nested sink b _ :: rest, ⟨⟨hs, hb⟩, h⟩ =>
    andThen ((boundary hs fun _ hs => lowerBlock hs hb).bind fun _ hr => .pure hr) (lowerStatements hf h)

theorem lowerTail {sink : Sink} (hs : sink.Known F) (span : Span) :
    ∀ {t : Tail}, t.Liftable F → Always (lowerTail guards sink span t) (allClear F)
  | .value e, h => by
    refine (lift (.whole h.1)).bind fun ⟨prelude, value⟩ hl => ?_
    cases value with
    | none => exact .pure hl.1
    | some v => exact (delivered hs hl.2).bind fun _ hd => .pure (allClear_append.2 ⟨hl.1, hd⟩)
  | .escape e, h => lowerEscape h
  | .conditional c, h => lowerConditional hs h
  | .block b, h => (boundary hs fun _ hs => lowerBlock hs h).bind fun _ hr => .pure hr

theorem lowerArms : ∀ {arms : List Arm}, armsLiftable F arms → Always (lowerArms guards arms) (casesClear F)
  | [], _ => .pure trivial
  | .mk pattern guard body span _ :: rest, ⟨hp, hg, hb, h⟩ => by
    have hguard : ∀ e ∈ guard, e.Clear F := fun e he => (hg e he).clear
    have hbody : Always (Lowering.lowerBlock guards .discard body) (allClear F) := lowerBlock known_discard hb
    refine .ite (fun _ => .thrown) fun _ => hbody.bind fun b hbody => (lowerArms h).bind fun cases hc => .pure ?_
    exact ⟨hp, hguard, allClear_suite.2 hbody, hc⟩

theorem lowerConditional {sink : Sink} (hs : sink.Known F) :
    ∀ {c : Conditional}, c.Liftable F → Always (lowerConditional guards sink c) (allClear F)
  | .mk branches none span, h => by
    refine (delivered_none hs).bind fun stmts hstmts => (Always.pure (P := elseClear F) ?_).bind fun other ho => ?_
    · split
      · trivial
      · exact hstmts
    · exact (lowerBranches hs span ho h.1).bind fun _ hb => .pure hb
  | .mk branches (some b) span, h => by
    refine (lowerBlock hs h.2).bind fun stmts hstmts => ?_
    have hother : elseClear F (some (Lowered.suite stmts)) := allClear_suite.2 hstmts
    refine (Always.pure hother).bind fun other ho => ?_
    exact (lowerBranches hs span ho h.1).bind fun _ hb => .pure hb

theorem lowerBranches {sink : Sink} (hs : sink.Known F) (span : Span) {orelse : Option (List Lowered)}
    (ho : elseClear F orelse) : ∀ {bs : List Branch}, branchesLiftable F bs →
      Always (lowerBranches guards sink span orelse bs) fun chain => allClear F (chain.getD [])
  | [], _ => .pure trivial
  | .mk test body :: rest, ⟨ht, hb, h⟩ => by
    refine (lowerBranches hs span ho h).bind fun later hlater => ?_
    refine (lift (.whole ht.1)).bind fun ⟨prelude, test?⟩ hl => ?_
    cases test? with
    | none => exact .pure hl.1
    | some t =>
      have hmore : armsClear F ((later.map continueWith).getD ([], orelse)).1 ∧
          elseClear F ((later.map continueWith).getD ([], orelse)).2 := by
        cases later with
        | none => exact ⟨trivial, ho⟩
        | some chain => exact clear_continueWith hlater
      refine (lowerBlock hs hb).bind fun stmts hstmts => .pure (allClear_append.2 ⟨hl.1, ?_⟩)
      exact ⟨⟨⟨hl.2 t rfl, allClear_suite.2 hstmts, hmore.1⟩, hmore.2⟩, trivial⟩

end

theorem lower {sink : Sink} {b : Block} (hs : sink.Known F) (hb : b.Liftable F) :
    Always (lower guards sink b) fun r => allClear F r.body :=
  boundary hs fun _ hs => lowerBlock guards hs hb

end Clears

end Lowering

/-- A value is missing after lifting if and only if every evaluation escapes. -/
theorem Yields.lift_eq_none_iff {span : Span} {e : Expr} {st st' : Lowering.State} {prelude : List Lowered}
    {value : Option Expr} (h : Yields (Lowering.lift span e) st (prelude, value) st') :
    value = none ↔ e.alwaysEscapes = true := by
  refine ⟨fun hv => ?_, h.lift_of_alwaysEscapes⟩
  subst hv
  induction e generalizing st prelude st' with
  | plain text buried => cases (h.lift_of_not_hasEscape h.lift_plain).1
  | hidden name => cases (h.lift_of_not_hasEscape rfl).1
  | escape text mark operand ih => rfl
  | logical c opening left before after right closing ihl ihr =>
    cases he : left.hasEscape || right.hasEscape with
    | false => cases (h.lift_of_not_hasEscape ((Expr.hasEscape_logical ..).trans he)).1
    | true =>
      obtain ⟨_, hl, -⟩ | ⟨_, _, -, -, hp⟩ | ⟨_, _, _, _, _, _, -, -, -, hp⟩ := h.lift_logical he
      · exact ihl hl
      · cases hp
      · cases hp
  | conditional opening body ifText test elseText orelse closing ihb iht iho =>
    cases he : body.hasEscape || test.hasEscape || orelse.hasEscape with
    | false => cases (h.lift_of_not_hasEscape ((Expr.hasEscape_conditional ..).trans he)).1
    | true =>
      rw [Expr.alwaysEscapes]
      obtain ⟨_, ht, -⟩ | ⟨_, _, _, _, _, body?, _, _, orelse?, -, -, hb, ho, hp⟩ := h.lift_conditional he
      · rw [iht ht, Bool.true_or]
      · -- a value is missing only if both branches have none
        cases body? with
        | some v => cases (Prod.mk.inj hp).2
        | none =>
          cases orelse? with
          | some v => cases (Prod.mk.inj hp).2
          | none => rw [ihb hb, iho ho, Bool.and_self, Bool.or_true]

end DoBlocks
