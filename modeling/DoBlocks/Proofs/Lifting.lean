import DoBlocks.Proofs.ControlFlow
import DoBlocks.Proofs.Surroundings

/-!
# Lifting keeps the meaning of expressions

The statements that escapes are lifted into, followed by the expression that is left, run as the
expression does. If no expression is left, the statements never come to an end: every path through
the expression escapes.
-/

namespace DoBlocks

open Program

namespace Interpretation

variable {σ V ι : Type} (I : Interpretation σ V ι)

/-- Code evaluates an expression without generated names as the host does. -/
theorem evalExpr_eq_onUser {e : Expr} (h : e.hasHidden = false) :
    I.evalExpr e = onUser (I.evaluate e).run := by
  cases e with
  | plain text buried => rfl
  | hidden name => cases h
  | escape text mark operand => rfl
  | logical c opening left before after right closing =>
    rw [Expr.hasHidden] at h
    rw [evalExpr, h]
    rfl
  | conditional opening body ifText test elseText orelse closing =>
    rw [Expr.hasHidden] at h
    rw [evalExpr, h]
    rfl

end Interpretation

namespace Lowering

variable {σ V ι α : Type} {I : Interpretation σ V ι} {C : Surroundings V}
  {st st' : State} {span : Span}
variable {e left right body test orelse : Expr} {H : Store V} {prelude : List Lowered} {name : HiddenName}
  {c : Connective} {opening closing : Host.Surface}

/-! ### Running what was lifted -/

/-- Lifted statements and what is left of the expression run as the expression does. -/
def Lifted (I : Interpretation σ V ι) (C : Surroundings V) (e : Expr) (H : Store V)
    (p : List Lowered × Option Expr) : Prop :=
  match p.2 with
  | some v =>
    Simulates (I.expression e) (I.execAll p.1 >>= fun _ => I.evalExpr v) H (Ends C C.Same)
  | none => Simulates (I.expression e) (I.execAll p.1) H (Ends C Never)

/-- The statements that leave a wrapper with a value are an escape. -/
theorem execAll_leaveWrapper (w : WrapperNames) (v : Expr) :
    I.execAll (leaveWrapper w v) = I.evalExpr v >>= fun x =>
      write w.result x >>= fun _ => write w.exit (I.constant .true) >>= fun _ => leave .break := by
  unfold leaveWrapper
  simp only [I.execAll_cons, I.execAll_nil, Interpretation.exec, Interpretation.evalValue,
    Interpretation.setName, bind_assoc, pure_bind, leave_bind]

theorem Lifted.escape {v : Expr} {w : WrapperNames} (h : Lifted I C e H (prelude, some v)) (hC : Fits I C st)
    (hw : st.wrapper = some w) :
    Simulates (I.expression e >>= fun v => (leave (.escape v) : Program σ V V α))
      (I.execAll (prelude ++ leaveWrapper w v)) H (Ends C Never) := by
  rw [I.execAll_append, execAll_leaveWrapper, ← bind_assoc]
  refine Simulates.andThen h fun {a b H'} hs => ?_
  obtain ⟨rfl, hH⟩ := hs
  exact .write (.write (.leave (.escape (hC.escape hw hH))))

/-- A fresh name that takes the value of a lifted expression has it afterwards. -/
theorem Lifted.keep {value : Option Expr} (h : Lifted I C e H (prelude, value))
    (hname : ∀ {H v}, C.calm H → C.calm (H.write name.render v)) :
    Simulates (I.expression e)
      (I.execAll (Lowered.suite (prelude ++ assigned name value)) >>= fun _ => I.read name) H
      (Ends C C.Same) := by
  rw [I.execAll_suite, I.execAll_append, bind_assoc, ← bind_pure (I.expression e)]
  cases value with
  | none => exact Simulates.andThen h fun hd => hd.elim
  | some v =>
    change Simulates _ (_ >>= fun _ => I.execAll [.set (.hidden name) (.expr v)] >>= _) _ _
    rw [I.execAll_singleton]
    change Simulates _ (_ >>= fun _ => (I.evalExpr v >>= fun x => write name x) >>= _) _ _
    simp only [bind_assoc]
    rw [← bind_assoc]
    refine Simulates.andThen h fun {a b H'} hs => .write ?_
    obtain ⟨rfl, hH⟩ := hs
    rw [← bind_pure (I.read name)]
    exact .read I (Store.write_self _ _ _) (.pure (.ok ⟨rfl, hname hH⟩))

theorem evalTest_connectiveTest (c : Connective) (name : HiddenName) :
    I.evalTest (connectiveTest c name) = I.read name >>= fun v => pure (!I.decides c v) := by
  cases c with
  | or => rfl
  | and =>
    change I.read name >>= _ = I.read name >>= _
    simp [Interpretation.decides]

theorem expression_logical {before after : Host.Surface} (h : (left.hasEscape || right.hasEscape) = true) :
    I.expression (.logical c opening left before after right closing) = I.expression left >>= fun v =>
      if I.decides c v then pure v else I.expression right := by
  rw [Interpretation.expression, if_pos h]

theorem expression_conditional {ifText : Host.Surface} {elseText : Host.Surface}
    (h : (body.hasEscape || test.hasEscape || orelse.hasEscape) = true) :
    I.expression (.conditional opening body ifText test elseText orelse closing) =
      I.expression test >>= fun v => if I.truthy v then I.expression body else I.expression orelse := by
  rw [Interpretation.expression, if_pos h]

theorem lifted_of_not_hasEscape (hw : e.written = true) (he : e.hasEscape = false) (hH : C.calm H) :
    Lifted I C e H ([], some e) := by
  change Simulates _ (pure () >>= fun _ => I.evalExpr e) H _
  rw [pure_bind, I.expression_eq_run he, I.evalExpr_eq_onUser (Expr.hasHidden_eq_false hw)]
  exact .action_same hH

/-- The value of the left operand is kept in a fresh name; the right operand runs if the left one does
not decide, and its value takes the place of the other. -/
theorem Lifted.logical {left' : Expr} {branch : List Lowered} {right? : Option Expr}
    (hl : Lifted I C left H (prelude, some left')) (hr : ∀ {H}, C.calm H → Lifted I C right H (branch, right?))
    (hname : ∀ {H v}, C.calm H → C.calm (H.write name.render v)) :
    Simulates (I.expression left >>= fun v => if I.decides c v then pure v else I.expression right)
      (I.execAll (prelude ++ [.set (.hidden name) (.expr left'), .branch [.mk (connectiveTest c name)
        (Lowered.suite (branch ++ assigned name right?))] none]) >>= fun _ => I.read name) H
      (Ends C C.Same) := by
  simp only [I.execAll_append, I.execAll_cons, I.execAll_nil, Interpretation.exec,
    Interpretation.execArms, Interpretation.evalValue, Interpretation.setName, bind_assoc]
  rw [← bind_assoc]
  refine Simulates.andThen hl fun {v v' H'} hs => .write ?_
  obtain ⟨rfl, hH⟩ := hs
  rw [evalTest_connectiveTest, bind_assoc]
  refine .read I (Store.write_self _ _ _) ?_
  rw [pure_bind]
  cases I.decides c v with
  | true =>
    simp only [Bool.not_true, Bool.false_eq_true, if_false, if_true, pure_bind]
    rw [← bind_pure (I.read name)]
    exact .read I (Store.write_self _ _ _) (.pure (.ok ⟨rfl, hname hH⟩))
  | false =>
    simp only [Bool.not_false, Bool.false_eq_true, if_false, if_true, pure_bind]
    exact (hr (hname hH)).keep hname

/-- If one of the branches comes to a value, it is in the fresh name afterwards. -/
theorem Lifted.conditional {test' : Expr} {first second : List Lowered} {body? orelse? : Option Expr}
    (ht : Lifted I C test H (prelude, some test')) (hb : ∀ {H}, C.calm H → Lifted I C body H (first, body?))
    (ho : ∀ {H}, C.calm H → Lifted I C orelse H (second, orelse?))
    (hname : ∀ {H v}, C.calm H → C.calm (H.write name.render v)) (he : I.expression e =
      I.expression test >>= fun v => if I.truthy v then I.expression body else I.expression orelse) :
    Lifted I C e H (prelude ++ [.branch
      [.mk (.expr test') (Lowered.suite (first ++ assigned name body?))]
      (some (Lowered.suite (second ++ assigned name orelse?)))],
      if body?.isSome || orelse?.isSome then some (.hidden name) else none) := by
  have hrun : I.execAll (prelude ++ [.branch
      [.mk (.expr test') (Lowered.suite (first ++ assigned name body?))]
      (some (Lowered.suite (second ++ assigned name orelse?)))]) =
      (I.execAll prelude >>= fun _ => I.evalExpr test') >>= fun v =>
        if I.truthy v then I.execAll (Lowered.suite (first ++ assigned name body?))
        else I.execAll (Lowered.suite (second ++ assigned name orelse?)) := by
    simp only [I.execAll_append, I.execAll_singleton, Interpretation.exec, Interpretation.execArms,
      Interpretation.evalTest, bind_assoc, pure_bind]
  split
  · change Simulates _ (_ >>= fun _ => I.read name) _ _
    rw [he, hrun, bind_assoc]
    refine Simulates.andThen ht fun {v v' H'} hs => ?_
    obtain ⟨rfl, hH⟩ := hs
    split
    · exact (hb hH).keep hname
    · exact (ho hH).keep hname
  · obtain ⟨rfl, rfl⟩ : body? = none ∧ orelse? = none := by
      simpa using ‹¬ (body?.isSome || orelse?.isSome) = true›
    change Simulates _ _ _ _
    rw [he, hrun]
    refine Simulates.andThen ht fun {v v' H'} hs => ?_
    obtain ⟨rfl, hH⟩ := hs
    rw [I.execAll_suite, I.execAll_suite, assigned, List.append_nil, List.append_nil]
    split
    · exact hb hH
    · exact ho hH

/-- Lifting keeps the meaning of an expression. -/
theorem lift_lifted (hw : e.written = true) {p : List Lowered × Option Expr} (h : Yields (lift span e) st p st')
    (hC : Fits I C st) (hH : C.calm H) :
    Lifted I C e H p := by
  induction e generalizing st p st' H with
  | plain text buried =>
    have he := h.lift_plain
    obtain ⟨rfl, -⟩ := h.lift_of_not_hasEscape he
    exact lifted_of_not_hasEscape hw he hH
  | hidden name => cases hw
  | escape text mark operand ih =>
    obtain ⟨prelude, h', rfl⟩ | ⟨prelude, v, w, h', hwr, rfl⟩ := h.lift_escape
    · exact Simulates.noResult (ih hw h' hC hH)
    · exact (ih hw h' hC hH).escape (hC.extends (Steady.isStepProperty.lift _ h')) hwr
  | logical c opening left before after right closing ihl ihr =>
    by_cases he : (left.hasEscape || right.hasEscape) = true
    · simp only [Expr.written, Bool.and_eq_true] at hw
      obtain ⟨prelude, hl, rfl⟩ | ⟨prelude, left', hl, hr, rfl⟩ |
        ⟨prelude, left', t, name, branch, right?, hl, rfl, hr, rfl⟩ := h.lift_logical he
      · have hs := ihl hw.1 hl hC hH
        change Simulates _ _ _ _
        rw [expression_logical he]
        exact Simulates.noResult hs
      · -- the right operand stays where it is
        have hs := ihl hw.1 hl hC hH
        have hh : (left'.hasHidden || right.hasHidden) = true := by
          rw [hl.hasHidden_of_lift (by simpa [hr] using he)]
          rfl
        change Simulates _ (_ >>= fun _ => I.evalExpr (.logical c opening left' before after right closing)) _ _
        rw [expression_logical he, Interpretation.evalExpr, if_pos hh, ← bind_assoc]
        refine Simulates.andThen hs fun {a b H'} hab => ?_
        obtain ⟨rfl, hH'⟩ := hab
        split
        · exact .pure (.ok ⟨rfl, hH'⟩)
        · rw [I.expression_eq_run hr, I.evalExpr_eq_onUser (Expr.hasHidden_eq_false hw.2)]
          exact .action_same hH'
      · have hC' := hC.extends (Steady.isStepProperty.lift _ hl)
        change Simulates _ _ _ _
        rw [expression_logical he]
        exact (ihl hw.1 hl hC hH).logical (ihr hw.2 hr (hC'.fresh _))
          (hC'.write (Allocator.fresh_notMem_reserved _ _))
    · have he : (Expr.logical c opening left before after right closing).hasEscape = false := by
        simpa using he
      obtain ⟨rfl, -⟩ := h.lift_of_not_hasEscape he
      exact lifted_of_not_hasEscape hw he hH
  | conditional opening body ifText test elseText orelse closing ihb iht iho =>
    by_cases he : (body.hasEscape || test.hasEscape || orelse.hasEscape) = true
    · simp only [Expr.written, Bool.and_eq_true] at hw
      obtain ⟨prelude, ht, rfl⟩ | ⟨prelude, test', t, name, first, body?, t', second, orelse?, ht, rfl,
        hb, ho, rfl⟩ := h.lift_conditional he
      · have hs := iht hw.1.2 ht hC hH
        change Simulates _ _ _ _
        rw [expression_conditional he]
        exact Simulates.noResult hs
      · have hC' := hC.extends (Steady.isStepProperty.lift _ ht)
        have hC'' := (hC'.fresh "value").extends (Steady.isStepProperty.lift _ hb)
        exact (iht hw.1.2 ht hC hH).conditional (ihb hw.1.1 hb (hC'.fresh _)) (iho hw.2 ho hC'')
          (hC'.write (Allocator.fresh_notMem_reserved _ _)) (expression_conditional he)
    · have he : (Expr.conditional opening body ifText test elseText orelse closing).hasEscape = false := by
        simpa using he
      obtain ⟨rfl, -⟩ := h.lift_of_not_hasEscape he
      exact lifted_of_not_hasEscape hw he hH

end Lowering

end DoBlocks
