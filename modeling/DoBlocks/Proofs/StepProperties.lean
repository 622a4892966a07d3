import DoBlocks.Proofs.LoweringSteps

/-!
# Properties of all steps

What holds of the single operations of lowering, and goes from two steps to their sequence, holds of
lowering as a whole. The induction over blocks is done here, once for all such properties.
-/

namespace DoBlocks

/-- The event neither starts nor ends a phase. -/
def Event.isNote : Event → Bool
  | phaseStart _ _ | phaseEnd => false
  | blockLowered _ _ _ | wrapperAllocated _ _ | warning _ | inspection _ _ _ => true

namespace Lowering

/-- The roles of the names that lowering draws one at a time. -/
def freshRoles : List String := ["value", "unmatched"]

/-- A property that the operations of lowering have and that sequences keep. -/
structure StepProperty (J : {α : Type} → Lower α → Prop) : Prop where
  pure {α : Type} (a : α) : J (pure a)
  throw {α : Type} (e : LoweringFailure) : J (throw e : Lower α)
  bind {α β : Type} {m : Lower α} {f : α → Lower β} : J m → (∀ a, J (f a)) → J (m >>= f)
  record {e : Event} : e.isNote = true → J (record e)
  fresh {role : String} : role ∈ freshRoles → J (fresh role)
  guardCallee : J guardCallee
  oblige (o : Obligation) : J (modify fun st => { st with obligations := st.obligations ++ [o] })
  /-- Of its state a step looks only at its place. -/
  look {α : Type} (f : Option WrapperNames → Nat → Lower α) :
    (∀ w depth, J (f w depth)) → J (get >>= fun st => f st.wrapper st.loopDepth)
  /-- A new wrapper is named before the step. -/
  enter {α : Type} {f : WrapperNames → Lower α} : (∀ w, J (f w)) →
    J (ExceptT.mk fun st => (f st.names.wrapper.1).run st.wrapping)
  withWrapper {α : Type} {m : Lower α} (w : WrapperNames) : J m → J (withWrapper w m)
  withLoop {α : Type} {m : Lower α} : J m → J (withLoop m)

/-- What an escape emits in the wrapper it stands in. -/
def escapeFrom (span : Span) (v : Expr) : Option WrapperNames → Lower (List Lowered)
  | none => fail .strayEscape span
  | some w => pure (leaveWrapper w v)

/-- What comes after a loop in the wrapper it stands in. -/
def checkAfter (escapes : Bool) : Option WrapperNames → Lower (List Lowered)
  | some w => if escapes then pure [.branch [.mk (.expr (.hidden w.exit)) [.break]] none] else pure []
  | none => pure []

namespace StepProperty

variable {J : {α : Type} → Lower α → Prop} {α : Type} {span : Span} {sink : Sink}

theorem ite (_ : StepProperty J) {c : Prop} [Decidable c] {m n : Lower α} (hm : J m) (hn : J n) :
    J (if c then m else n) := by
  split
  · exact hm
  · exact hn

variable (h : StepProperty J)

include h

theorem fail (fault : LoweringFault) : J (fail fault span : Lower α) := h.throw _

theorem require (c : Bool) : J (require c) := h.ite (h.pure _) (h.throw _)

theorem delivered (value : Option Expr) : J (delivered sink value) := by
  unfold Lowering.delivered
  split
  · exact h.pure _
  · exact h.throw _

theorem escapeTo (v : Expr) : J (escapeTo span v) := by
  refine h.look (fun w _ => escapeFrom span v w) fun w _ => ?_
  cases w with
  | none => exact h.fail _
  | some w => exact h.pure _

theorem lift (e : Expr) : J (lift span e) := by
  induction e with
  | plain text buried =>
    change J (if _ then _ else _)
    exact h.ite (h.bind (h.fail _) fun _ => h.pure _) (h.pure _)
  | hidden name => exact h.pure _
  | escape text mark operand ih =>
    refine h.bind ih fun r => ?_
    obtain ⟨prelude, value⟩ := r
    cases value with
    | none => exact h.pure _
    | some v => exact h.bind (h.escapeTo v) fun _ => h.pure _
  | logical c opening left before after right closing ihl ihr =>
    rw [Lowering.lift]
    refine h.ite (h.pure _) (h.bind ihl fun r => ?_)
    obtain ⟨prelude, left?⟩ := r
    cases left? with
    | none => exact h.pure _
    | some left' =>
      refine h.ite (h.bind (h.require _) fun _ => h.pure _) ?_
      exact h.bind (h.fresh (by decide)) fun _ => h.bind ihr fun _ => h.bind (h.require _) fun _ => h.pure _
  | conditional opening body ifText test elseText orelse closing ihb iht iho =>
    rw [Lowering.lift]
    refine h.ite (h.pure _) (h.bind iht fun r => ?_)
    obtain ⟨prelude, test?⟩ := r
    cases test? with
    | none => exact h.pure _
    | some test' =>
      exact h.bind (h.fresh (by decide)) fun _ => h.bind ihb fun _ => h.bind iho fun _ =>
        h.bind (h.require _) fun _ => h.pure _

theorem lowerEscape (e : Escape) : J (lowerEscape e) := by
  refine h.bind (h.lift _) fun r => ?_
  obtain ⟨prelude, value⟩ := r
  cases value with
  | none => exact h.pure _
  | some v => exact h.bind (h.escapeTo v) fun _ => h.pure _

theorem checkLoopControl (s : Simple) : J (checkLoopControl s span) := by
  have hcontinue : J (if s.form == .continue then Lowering.fail (.loopControl "continue") span
      else Pure.pure ()) := h.ite (h.fail _) (h.pure _)
  refine h.look (fun w depth => if w.isSome && depth == 0 then _ else Pure.pure ()) fun w depth => ?_
  refine h.ite ?_ (h.pure _)
  exact h.ite (h.bind (h.fail _) fun _ => hcontinue) hcontinue

theorem lowerSimple (s : Simple) : J (lowerSimple s span) := by
  refine h.bind (h.checkLoopControl s) fun _ => h.ite (h.pure _) ?_
  cases s.value with
  | none => exact h.pure _
  | some e =>
    refine h.bind (h.lift e) fun r => ?_
    obtain ⟨prelude, value⟩ := r
    cases value with
    | none => exact h.pure _
    | some v => exact h.bind (h.require _) fun _ => h.pure _

theorem boundary {escapes : Bool} {inside : Sink → Lower (List Lowered)} (hi : ∀ s, J (inside s)) :
    J (boundary escapes span sink inside) := by
  cases escapes with
  | false =>
    rw [Lowering.boundary, Bool.not_false, if_pos rfl]
    exact h.bind (h.record rfl) fun _ => h.bind (hi _) fun _ => h.pure _
  | true =>
    have hin (w : WrapperNames) : J (inWrapper w span sink inside) := by
      refine h.bind (h.record rfl) fun _ => h.bind (h.require _) fun _ => ?_
      refine h.bind (h.withWrapper w (hi _)) fun tree => ?_
      exact h.ite (h.bind (h.pure _) fun _ => h.bind (h.record rfl) fun _ => h.pure _)
        (h.bind (h.delivered _) fun _ => h.bind (h.record rfl) fun _ => h.pure _)
    exact h.enter hin

theorem afterLoop (escapes : Bool) : J (afterLoop escapes) := by
  refine h.look (fun w _ => checkAfter escapes w) fun w _ => ?_
  cases w with
  | none => exact h.pure _
  | some w => exact h.ite (h.pure _) (h.pure _)

theorem closeMatch (guards : Bool) (source : Expr) (cases : List LoweredCase) :
    J (closeMatch guards source cases span) := by
  refine h.ite (h.bind (h.record rfl) fun _ => h.pure _) (h.ite (h.pure _) ?_)
  refine h.bind (h.fresh (by decide)) fun _ => h.bind h.guardCallee fun _ => h.bind (h.require _) fun _ => ?_
  exact h.bind (h.oblige _) fun _ => h.bind (h.record rfl) fun _ => h.pure _

theorem andThen {here rest : Lower (List Lowered)} {leaves : Bool} (hh : J here) (hr : J rest) :
    J (andThen here leaves rest) :=
  h.bind hh fun _ => h.ite (h.pure _) (h.bind hr fun _ => h.pure _)

variable (guards : Bool)

mutual

theorem lowerBlock (sink : Sink) : ∀ b, J (lowerBlock guards sink b)
  | .mk ss none _ _ => lowerStatements (h.delivered _) ss
  | .mk ss (some t) span _ => lowerStatements (lowerTail sink span t) ss

theorem lowerStatements {finish : Lower (List Lowered)} (hf : J finish) :
    ∀ ss, J (lowerStatements guards finish ss)
  | [] => hf
  | .simple s span :: rest => h.andThen (h.lowerSimple s) (lowerStatements hf rest)
  | .escape e :: rest => h.andThen (h.lowerEscape e) (lowerStatements hf rest)
  | .letMatch primary source arms span :: rest => by
    refine h.bind (h.lift _) fun ⟨prelude, source?⟩ => ?_
    cases source? with
    | none => exact h.pure _
    | some e =>
      exact h.bind (lowerStatements hf rest) fun _ => h.bind (lowerArms arms) fun _ =>
        h.bind (h.closeMatch _ _ _) fun _ => h.pure _
  | .conditional c :: rest => h.andThen (lowerConditional .discard c) (lowerStatements hf rest)
  | .whileLoop test body _ :: rest =>
    h.andThen (h.bind (h.withLoop (lowerBlock .discard body)) fun _ => h.bind (h.afterLoop _) fun _ => h.pure _)
      (lowerStatements hf rest)
  | .forLoop target iterable body span :: rest => by
    refine h.andThen (h.bind (h.lift _) fun ⟨prelude, iterable?⟩ => ?_) (lowerStatements hf rest)
    cases iterable? with
    | none => exact h.pure _
    | some e =>
      exact h.bind (h.withLoop (lowerBlock .discard body)) fun _ => h.bind (h.afterLoop _) fun _ => h.pure _
  | .nested sink b _ :: rest =>
    h.andThen (h.bind (h.boundary fun s => lowerBlock s b) fun _ => h.pure _) (lowerStatements hf rest)

theorem lowerTail (sink : Sink) (span : Span) : ∀ t, J (lowerTail guards sink span t)
  | .value e => by
    refine h.bind (h.lift _) fun ⟨prelude, value⟩ => ?_
    cases value with
    | none => exact h.pure _
    | some v => exact h.bind (h.delivered _) fun _ => h.pure _
  | .escape e => h.lowerEscape e
  | .conditional c => lowerConditional sink c
  | .block b => h.bind (h.boundary fun s => lowerBlock s b) fun _ => h.pure _

theorem lowerArms : ∀ arms, J (lowerArms guards arms)
  | [] => h.pure _
  | .mk pattern guard body span _ :: rest => by
    have hrest := h.bind (lowerBlock .discard body) fun b => h.bind (lowerArms rest) fun cases =>
      h.pure (.mk pattern guard (Lowered.suite b) :: cases)
    exact h.ite (h.bind (h.fail _) fun _ => hrest) hrest

theorem lowerConditional (sink : Sink) : ∀ c, J (lowerConditional guards sink c)
  | .mk branches orelse span => by
    have hrest (other : Option (List Lowered)) := h.bind (lowerBranches sink span other branches) fun stmts =>
      h.pure (stmts.getD [])
    cases orelse with
    | none => exact h.bind (h.delivered _) fun _ => h.bind (h.pure _) hrest
    | some b => exact h.bind (lowerBlock sink b) fun _ => h.bind (h.pure _) hrest

theorem lowerBranches (sink : Sink) (span : Span) (orelse : Option (List Lowered)) :
    ∀ bs, J (lowerBranches guards sink span orelse bs)
  | [] => h.pure _
  | .mk test body :: rest => by
    refine h.bind (lowerBranches sink span orelse rest) fun later => ?_
    refine h.bind (h.lift _) fun ⟨prelude, test?⟩ => ?_
    cases test? with
    | none => exact h.pure _
    | some t => exact h.bind (lowerBlock sink body) fun _ => h.pure _

end

theorem lower (b : Block) : J (lower guards sink b) := h.boundary fun s => h.lowerBlock guards s b

end StepProperty

end Lowering

end DoBlocks
