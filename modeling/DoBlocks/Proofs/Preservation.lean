import DoBlocks.Proofs.Lifting

/-!
# Lowering preserves meaning

The statements that a block is lowered to come to the same outcomes and user states as the block. The
proof goes along the syntax of blocks: each part is simulated by its code under the surroundings it was
lowered in.
-/

namespace DoBlocks

open Program

namespace Lowering

variable {σ V ι α : Type} {I : Interpretation σ V ι} {C : Surroundings V} {H : Store V}
  {st st' : State} {span : Span} {stmts : List Lowered}
variable {v : V} {s : Simple} {m : Program σ V V Unit} {c : Code σ V Unit} {Q : Post V V α Unit} {escapes : Bool}
  {sink : Sink} {r : Result} {K : V → Program σ V V α} {guard : Option Expr} {rest : List Statement}

/-- Control got past a part of which `diverges` says whether it can. -/
def Past (C : Surroundings V) (diverges : Bool) (_ _ : Unit) (H : Store V) : Prop :=
  diverges = false ∧ C.calm H

/-- What uses the value of a lifted expression comes after it. -/
theorem Lifted.andThen {e v : Expr} {prelude : List Lowered} {f : V → Program σ V V α}
    {g : V → Code σ V Unit} {D : α → Unit → Store V → Prop}
    (h : Lifted I C e H (prelude, some v))
    (hf : ∀ {x H}, C.calm H → Simulates (f x) (g x) H (Ends C D)) :
    Simulates (I.expression e >>= f) (I.execAll prelude >>= fun _ => I.evalExpr v >>= g) H
      (Ends C D) := by
  rw [← bind_assoc]
  refine Simulates.andThen h fun {a b H'} hs => ?_
  obtain ⟨rfl, hH⟩ := hs
  exact hf hH

/-! ### Escapes and simple statements -/

theorem lowerEscape_simulates {e : Escape} (he : e.value.written = true)
    (h : Yields (lowerEscape e) st stmts st') (hC : Fits I C st) (hH : C.calm H) :
    Simulates (I.expression e.value >>= fun v => (leave (.escape v) : Program σ V V α))
      (I.execAll stmts) H (Ends C Never) := by
  obtain ⟨⟨prelude, value⟩, t, hl, h⟩ := Yields.bind_iff.1 h
  have hs : Lifted I C e.value H (prelude, value) := lift_lifted he hl hC hH
  cases value with
  | none =>
    obtain ⟨rfl, -⟩ := Yields.pure_iff.1 h
    exact Simulates.noResult hs
  | some v =>
    obtain ⟨_, _, he, hp⟩ := Yields.bind_iff.1 h
    obtain ⟨rfl, rfl⟩ := Yields.pure_iff.1 hp
    obtain ⟨w, hw, rfl, rfl⟩ := Yields.escapeTo_iff.1 he
    exact hs.escape (hC.extends (Steady.isStepProperty.lift _ hl)) hw

theorem transfer_simulates {form : SimpleForm} (hf : form = .break ∨ form = .continue → C.free) (hH : C.calm H) :
    Simulates (Interpretation.transfer form v : Program σ V V Unit)
      (Interpretation.transfer form v) H
      (Ends C (Past C (form == .return || form == .raise || form == .break || form == .continue))) := by
  cases form with
  | «return» => exact .leave .return
  | raise => exact .leave .raise
  | «break» => exact .leave (.break (hf (.inl rfl)) hH)
  | «continue» => exact .leave (.continue (hf (.inr rfl)) hH)
  | _ => exact .pure (.ok ⟨rfl, hH⟩)

theorem diverges_eq_of_form (h : ∀ e, s.value = some e → e.alwaysEscapes = false) :
    s.diverges =
      (s.form == .return || s.form == .raise || s.form == .break || s.form == .continue) := by
  have h : (s.value.map Expr.alwaysEscapes).getD false = false := by
    cases hv : s.value with
    | none => rfl
    | some e => exact h e hv
  rw [Simple.diverges, h, Bool.false_or]

theorem lowerSimple_simulates (hs : s.value.all Expr.written = true) (h : Yields (lowerSimple s span) st stmts st')
    (hC : Fits I C st) (hH : C.calm H) :
    Simulates (I.simple s) (I.execAll stmts) H (Ends C (Past C s.diverges)) := by
  obtain ⟨hf, ⟨he, rfl⟩ | ⟨e, prelude, value, hv, he, hl, rfl⟩⟩ := h.lowerSimple_cases
  · have hw (e : Expr) (hv : s.value = some e) : e.hasHidden = false :=
      Expr.hasHidden_eq_false (by simpa [hv] using hs)
    have hd : ∀ e, s.value = some e → e.alwaysEscapes = false := fun e hv =>
      Bool.eq_false_iff.2 fun ha => by
        have := Expr.hasEscape_of_alwaysEscapes ha
        rw [he e hv] at this
        cases this
    rw [diverges_eq_of_form hd, I.execAll_singleton, Interpretation.exec, Interpretation.simple,
      I.simpleValue_of_not_hasEscape he, I.evalSimple_of_not_hasHidden hw]
    refine (Simulates.action_same hH).andThen fun {a b H'} hab => ?_
    obtain ⟨rfl, hH'⟩ := hab
    exact transfer_simulates (fun h => hC.free.2 (hf h)) hH'
  · have hlf : Lifted I C e H (prelude, value) := lift_lifted (by simpa [hv] using hs) hl hC hH
    rw [Interpretation.simple, I.simpleValue_of_hasEscape hv he, bind_assoc]
    cases value with
    | none =>
      rw [Option.map_none, Option.toList_none, List.append_nil]
      exact Simulates.noResult hlf
    | some v =>
      have hd : ∀ e, s.value = some e → e.alwaysEscapes = false := fun e' hv' =>
        Bool.eq_false_iff.2 fun ha => by
          obtain rfl := Option.some.inj (hv.symm.trans hv')
          exact absurd (hl.lift_of_alwaysEscapes ha) (by simp)
      have hx : I.evalSimple { s with value := some v } = I.evalExpr v >>= fun x =>
          onUser (I.complete s.form s.lead x).run :=
        I.evalSimple_of_hasHidden rfl (hl.hasHidden_of_lift he)
      rw [diverges_eq_of_form hd, Option.map_some, Option.toList_some, I.execAll_append,
        I.execAll_singleton, Interpretation.exec, hx, bind_assoc]
      refine hlf.andThen fun {x H'} hH' => (Simulates.action_same hH').andThen fun {a b H''} hab => ?_
      obtain ⟨rfl, hH''⟩ := hab
      exact transfer_simulates (fun h => hC.free.2 (hf h)) hH''

/-- A test that has to stay where it is runs as it is. -/
theorem test_bind {β : Type} {e : Expr} (he : e.fixed = true) {Q : Post V V α β}
    {f : Bool → Program σ V V α} {g : Bool → Code σ V β} (h : ∀ b, Simulates (f b) (g b) H Q)
    (hraise : ∀ v, Q (.error (.raise v)) (.error (.raise v)) H) :
    Simulates (I.test e >>= f) (I.evalTest (.expr e) >>= g) H Q := by
  simp only [Expr.fixed, Bool.and_eq_true, Bool.not_eq_true'] at he
  rw [Interpretation.test, Interpretation.evalTest, bind_assoc, bind_assoc,
    I.expression_eq_run he.2, I.evalExpr_eq_onUser (Expr.hasHidden_eq_false he.1)]
  simp only [pure_bind]
  exact .action_bind (fun v => h _) hraise

/-! ### Loops -/

/-- How a host loop and its code end together: an escape out of the program leaves the code after the
loop, with the flag up. -/
inductive LoopEnds (C : Surroundings V) : Post V V Unit Unit
  | ok {H : Store V} : C.calm H → LoopEnds C (.ok ()) (.ok ()) H
  | return {v : V} {H : Store V} : LoopEnds C (.error (.return v)) (.error (.return v)) H
  | raise {v : V} {H : Store V} : LoopEnds C (.error (.raise v)) (.error (.raise v)) H
  | escape {v : V} {H : Store V} : C.escaped v H → LoopEnds C (.error (.escape v)) (.ok ()) H

/-- One trip of a loop: `break` stops it, and so does the `break` of an escape. -/
theorem trip_simulates {κ : Type} (i : κ) (h : Simulates m c H (Ends { C with free := True } C.Calm)) :
    Simulates (mapEnd (tripEnd i) m) (mapEnd (tripEnd i) c) H
      (Simulates.StepPost C.calm (LoopEnds C)) :=
  h.mapEnd fun r r' H' hq => by
    cases hq with
    | ok hc => exact .next hc
    | «break» _ hc => exact .stop (.ok hc)
    | «continue» _ hc => exact .next hc
    | «return» => exact .leave .return
    | raise => exact .leave .raise
    | escape he => exact .leave_stop (.escape he)

/-- The test after a loop breaks if and only if the flag is up. -/
theorem execAll_flagTest (w : WrapperNames) {m : Program σ V V α} (hv : H w.exit.render = some v)
    (h : Simulates m (if I.truthy v then leave .break else pure ()) H Q) :
    Simulates m (I.execAll [.branch [.mk (.expr (.hidden w.exit)) [.break]] none]) H Q := by
  have : I.execAll [.branch [.mk (.expr (.hidden w.exit)) [.break]] none] = I.read w.exit >>= fun v =>
      if I.truthy v then leave .break else pure () := by
    rw [I.execAll_singleton]
    simp only [Interpretation.exec, Interpretation.execArms, Interpretation.evalTest,
      Interpretation.evalExpr, bind_assoc, pure_bind, I.execAll_singleton]
  rw [this]
  exact .read I hv h

/-- After a loop the code goes on where the program does, and leaves where the program escapes. -/
theorem afterLoop_simulates {after : List Lowered} (h : Simulates m c H (LoopEnds C))
    (he : escapes = false → EscapeFree m) (ha : Yields (afterLoop escapes) st after st') (hC : Fits I C st) :
    Simulates m (c >>= fun _ => I.execAll after) H (Ends C C.Calm) := by
  rw [← bind_pure m]
  refine h.reached.bind fun r r' H' ⟨hq, hm⟩ => ?_
  cases hq with
  | ok hc =>
    obtain ⟨w, hw, -, rfl⟩ | ⟨-, rfl⟩ := ha.afterLoop_cases
    · refine execAll_flagTest w (hC.flag_down hw hc) ?_
      rw [I.truthy_false]
      exact .pure (.ok hc)
    · exact .pure (.ok hc)
  | «return» => exact .leave .return
  | raise => exact .leave .raise
  | escape hv =>
    obtain ⟨w, hw, -, rfl⟩ | ⟨hn | hn, rfl⟩ := ha.afterLoop_cases
    · refine execAll_flagTest w (hC.flag_up hw hv) ?_
      rw [I.truthy_true]
      exact .leave (.escape hv)
    · exact absurd hv (hC.none hn)
    · obtain ⟨s, s', hm⟩ := hm
      exact (he hn hm).elim

/-! ### Boundary blocks -/

/-- How the inside of a block and the trip of its wrapper end together: with the value in the slot and
the flag up, unless control leaves altogether. -/
inductive WrapperEnds (I : Interpretation σ V ι) (C : Surroundings V) (w : WrapperNames) :
    Post V V V (Option Unit)
  | ok {v : V} {o : Option Unit} {H : Store V} :
    (inside I C w).escaped v H → WrapperEnds I C w (.ok v) (.ok o) H
  | return {v : V} {o : Store V} : WrapperEnds I C w (.error (.return v)) (.error (.return v)) o
  | raise {v : V} {o : Store V} : WrapperEnds I C w (.error (.raise v)) (.error (.raise v)) o

/-- The loop of a wrapper runs its body if the flag is down. -/
theorem execWhile_simulates (w : WrapperNames) (body : Code σ V Unit) {m : Program σ V V α}
    (hv : H w.exit.render = some v)
    (h : Simulates m ((if !I.truthy v then mapEnd (tripEnd ()) body else pure none) >>= fun
      | some _ => I.execWhile (.not w.exit) body
      | none => pure ()) H Q) :
    Simulates m (I.execWhile (.not w.exit) body) H Q := by
  rw [I.execWhile_eq, Interpretation.evalTest, bind_assoc]
  refine .read I hv ?_
  rwa [pure_bind]

/-- The loop of a wrapper makes one trip, after which the slot holds the value of the block. -/
theorem wrapper_simulates {m : Program σ V V V} {body : Code σ V Unit} {w : WrapperNames}
    (hm : Simulates m body H
      (Ends (inside I C w) fun v _ H => (inside I C w).escaped v H))
    (hH : (inside I C w).calm H) :
    Simulates (caught m) (I.execWhile (.not w.exit) body) H
      (Ends C fun v _ H => C.calm H ∧ H w.result.render = some v) := by
  refine execWhile_simulates w body hH.2.2 ?_
  rw [I.truthy_false, ← bind_pure (caught m)]
  have trip : Simulates (caught m) (mapEnd (tripEnd ()) body) H (WrapperEnds I C w) :=
    hm.mapEnd fun r r' H' hq => by
      cases hq with
      | ok hv => exact .ok hv
      | «break» hf => exact hf.elim
      | «continue» hf => exact hf.elim
      | «return» => exact .return
      | raise => exact .raise
      | escape hv => exact .ok hv
  refine trip.bind fun r r' H' hq => ?_
  cases hq with
  | «return» => exact .leave .return
  | raise => exact .leave .raise
  | @ok v o _ hv =>
    have done : Simulates (σ := σ) (pure v) (pure ()) H'
      (Ends C fun v _ H => C.calm H ∧ H w.result.render = some v) := .pure (.ok ⟨hv.1, hv.2.1⟩)
    cases o with
    | none => exact done
    | some u =>
      -- the flag is up, so the test fails
      refine execWhile_simulates w body hv.2.2 ?_
      rw [I.truthy_true, if_neg (by decide), pure_bind]
      exact done

/-- A boundary block hands its value to the sink, given that its inside does so for every sink. -/
theorem boundary_simulates {m : Program σ V V V} {lowerInside : Sink → Lower (List Lowered)}
    {D : α → Unit → Store V → Prop} (hin : ∀ {β : Type} {C : Surroundings V} {sink : Sink} {K : V → Program σ V V β}
      {D : β → Unit → Store V → Prop} {st st' : State} {stmts : List Lowered} {H : Store V},
      Yields (lowerInside sink) st stmts st' → Fits I C st → Delivers I C sink K D → C.calm H →
        Simulates (m >>= K) (I.execAll stmts) H (Ends C D)) (he : escapes = false → EscapeFree m)
    (h : Yields (boundary escapes span sink lowerInside) st r st') (hC : Fits I C st) (hK : Delivers I C sink K D)
    (hH : C.calm H) :
    Simulates (caught m >>= K) (I.execAll r.body) H (Ends C D) := by
  cases escapes with
  | false =>
    obtain ⟨t, hy, hn, hw, hl⟩ := h.boundary_false
    rw [caught_eq_self (he rfl)]
    exact hin hy (hC.extends ⟨hw, hl, by rw [hn]; exact List.Subset.refl _⟩) hK hH
  | true =>
    obtain ⟨w, t, t', tree, after, hy, hw, -, hx, hn, htw, htl, ha, hb, -⟩ := h.boundary_true
    have hin := hin hy (hC.inside hw hn htw htl) (.inside hC hw hx)
      ⟨hC.enter hw hH (I.constant .none) (I.constant .false), read_slot hw _ _ _,
        Store.write_self _ _ _⟩
    rw [bind_pure, ← I.execAll_suite] at hin
    have hloop := wrapper_simulates hin
      ⟨hC.enter hw hH _ _, read_slot hw _ _ _, Store.write_self _ _ _⟩
    have hcode : I.execAll r.body = write w.result (I.constant .none) >>= fun _ =>
        write w.exit (I.constant .false) >>= fun _ =>
          I.execWhile (.not w.exit) (I.execAll (Lowered.suite tree)) >>= fun _ => I.execAll after := by
      rw [hb]
      simp only [List.cons_append, List.nil_append, I.execAll_cons, Interpretation.exec,
        Interpretation.evalValue, Interpretation.setName, pure_bind]
    rw [hcode]
    refine .write (.write (hloop.andThen fun {v u H'} hv => ?_))
    split at ha
    · rename_i hd
      subst ha
      have hkv := hK.value (v := v) hv.1
      rw [delivery_of_noFlag (hK.discard hd)] at hkv
      rw [Sink.isDiscard, beq_iff_eq] at hd
      rwa [hd] at hkv
    · rw [execAll_deliver ha]
      exact .read I hv.2 (hK.value hv.1)

/-! ### Matches -/

theorem takes_none (pattern : Pattern) (v : V) :
    I.takes pattern none v = (I.accept pattern v).run := by
  have h : I.takes pattern none v = (I.accept pattern v).run >>= pure := by
    refine bind_congr fun b => ?_
    cases b <;> rfl
  rw [h, bind_pure]

/-- A case takes a value where its arm does. -/
theorem takes_simulates (pattern : Pattern) (hg : guard.all Expr.fixed = true) (v : V) (hH : C.calm H) :
    Simulates (I.takes pattern guard v) (I.selects pattern guard v) H (Ends C C.Same) := by
  refine .action_bind (fun accepted => ?_) fun _ => .raise
  cases accepted with
  | false => exact .pure (.ok ⟨rfl, hH⟩)
  | true =>
    cases guard with
    | none => exact .pure (.ok ⟨rfl, hH⟩)
    | some g =>
      change Simulates (I.test g) (I.evalTest (.expr g)) H _
      rw [← bind_pure (I.test g), ← bind_pure (I.evalTest (.expr g))]
      exact test_bind (by simpa using hg) (fun b => .pure (.ok ⟨rfl, hH⟩)) fun _ => .raise

/-- One case of a match: if it is not taken, the next ones are tried. A case that takes every value is
taken. -/
theorem case_simulates {pattern : Pattern} {body : List Lowered} {cases : List LoweredCase} {other : Code σ V Unit}
    {m n : Program σ V V α} {D : α → Unit → Store V → Prop} (hg : guard.all Expr.fixed = true)
    (hm : ∀ {H}, C.calm H → Simulates m (I.execAll body) H (Ends C D))
    (hn : (pattern.irrefutable && guard.isNone) = false → ∀ {H}, C.calm H →
      Simulates n (I.execCases v other cases) H (Ends C D)) (hH : C.calm H) :
    Simulates (I.takes pattern guard v >>= fun b => if b then m else n)
      (I.execCases v other (.mk pattern guard body :: cases)) H (Ends C D) := by
  refine (takes_simulates pattern hg v hH).reached.bind fun r r' H' ⟨hq, hr⟩ => ?_
  cases hq with
  | «break» hf hc => exact .leave (.break hf hc)
  | «continue» hf hc => exact .leave (.continue hf hc)
  | «return» => exact .leave .return
  | raise => exact .leave .raise
  | escape he => exact .leave (.escape he)
  | @ok a b _ hab =>
    obtain ⟨rfl, hH'⟩ := hab
    cases a with
    | true => exact hm hH'
    | false =>
      refine hn (Bool.eq_false_iff.2 fun hall => ?_) hH'
      obtain ⟨hp, hnone⟩ : pattern.irrefutable = true ∧ guard = none := by simpa using hall
      subst hnone
      obtain ⟨s, s', x, ha, hx⟩ := takes_none (I := I) pattern v ▸ hr
      cases x with
      | error e => cases hx
      | ok b =>
        cases hx
        exact I.accept_irrefutable hp ha

/-! ### Branches -/

/-- What an `if` does when no arm is taken. -/
def otherwise (I : Interpretation σ V ι) : Option (List Lowered) → Code σ V Unit
  | some body => I.execAll body
  | none => pure ()

theorem exec_branch (arms : List LoweredArm) (orelse : Option (List Lowered)) :
    I.exec (.branch arms orelse) = I.execArms (otherwise I orelse) arms := by
  cases orelse <;> rfl

/-- Joining an `if` to a chain as `elif`s, or the chain to it as `else`, is running the chain. -/
theorem execArms_continueWith (chain : List Lowered) :
    I.execArms (otherwise I (continueWith chain).2) (continueWith chain).1 = I.execAll chain := by
  unfold continueWith
  split
  · rw [I.execAll_singleton, exec_branch]
  · exact I.execAll_suite _

theorem otherwise_of_isEmpty (stmts : List Lowered) :
    otherwise I (if stmts.isEmpty then none else some stmts) = I.execAll stmts := by
  cases stmts <;> rfl

/-! ### Blocks -/

/-- A part of a block and what comes after it, unless control never gets there. -/
theorem andThen_simulates {here rest : Lower (List Lowered)} {leaves : Bool} {n : Program σ V V α}
    {D : α → Unit → Store V → Prop} (h : Yields (andThen here leaves rest) st stmts st') (hs : Steady here)
    (hC : Fits I C st) (hm : ∀ {stmts st'}, Yields here st stmts st' →
      Simulates m (I.execAll stmts) H (Ends C (Past C leaves)))
    (hn : leaves = false → ∀ {st stmts st' H}, Yields rest st stmts st' → Fits I C st → C.calm H →
      Simulates n (I.execAll stmts) H (Ends C D)) :
    Simulates (m >>= fun _ => n) (I.execAll stmts) H (Ends C D) := by
  obtain ⟨first, t, hf, h⟩ := Yields.bind_iff.1 h
  cases leaves with
  | true =>
    obtain ⟨rfl, rfl⟩ := Yields.pure_iff.1 h
    exact ((hm hf).mono_ends fun hd => absurd hd.1 (by decide)).noResult
  | false =>
    obtain ⟨second, t', hr, h⟩ := Yields.bind_iff.1 h
    obtain ⟨rfl, rfl⟩ := Yields.pure_iff.1 h
    rw [I.execAll_append]
    exact (hm hf).andThen fun hd => hn rfl hr (hC.extends (hs hf)) hd.2

/-- The code of a block simulates the block, wherever its value goes. A block that diverges needs no
sink. -/
def BlockPreserved (I : Interpretation σ V ι) (guards : Bool) (b : Block) : Prop :=
  ∀ ⦃α : Type⦄ ⦃C : Surroundings V⦄ ⦃sink : Sink⦄ ⦃K : V → Program σ V V α⦄
    ⦃D : α → Unit → Store V → Prop⦄ ⦃st st' : State⦄ ⦃stmts : List Lowered⦄ ⦃H : Store V⦄,
    Yields (lowerBlock guards sink b) st stmts st' → Fits I C st →
    (b.diverges = false → Delivers I C sink K D) → C.calm H →
    Simulates (I.block b >>= K) (I.execAll stmts) H (Ends C D)

def ConditionalPreserved (I : Interpretation σ V ι) (guards : Bool) (c : Conditional) : Prop :=
  ∀ ⦃α : Type⦄ ⦃C : Surroundings V⦄ ⦃sink : Sink⦄ ⦃K : V → Program σ V V α⦄
    ⦃D : α → Unit → Store V → Prop⦄ ⦃st st' : State⦄ ⦃stmts : List Lowered⦄ ⦃H : Store V⦄,
    Yields (lowerConditional guards sink c) st stmts st' → Fits I C st →
    (c.diverges = false → Delivers I C sink K D) → C.calm H →
    Simulates (I.conditional c >>= K) (I.execAll stmts) H (Ends C D)

/-- The cases of arms simulate them, if what the match does without a case raises. The arms diverge, so
nothing is asked of what comes after them. -/
def ArmsPreserved (I : Interpretation σ V ι) (guards : Bool) (arms : List Arm) : Prop :=
  ∀ ⦃α : Type⦄ ⦃C : Surroundings V⦄ ⦃K : V → Program σ V V α⦄ ⦃D : α → Unit → Store V → Prop⦄
    ⦃st st' : State⦄ ⦃cases : List LoweredCase⦄ ⦃v : V⦄ ⦃other : Code σ V Unit⦄ ⦃H : Store V⦄,
    Yields (lowerArms guards arms) st cases st' → Fits I C st →
    (arms.any Arm.takesAll = false → ∀ {H}, C.calm H →
      Simulates (leave (.raise (I.unmatched v)) : Program σ V V α) other H (Ends C D)) → C.calm H →
    Simulates (I.fallback v arms >>= K) (I.execCases v other cases) H (Ends C D)

/-- The first test always escapes, so nothing else of the branches is run. -/
def firstEscapes : List Branch → Bool
  | [] => false
  | .mk test _ :: _ => test.alwaysEscapes

theorem diverges_none (bs : List Branch) (span : Span) :
    (Conditional.mk bs none span).diverges = firstEscapes bs := by
  cases bs with
  | nil => rfl
  | cons b bs =>
    obtain ⟨test, body⟩ := b
    simp [Conditional.diverges, firstEscapes]

theorem diverges_some (bs : List Branch) (b : Block) (span : Span) :
    (Conditional.mk bs (some b) span).diverges =
      (firstEscapes bs || branchesDiverge bs && b.diverges) := by
  cases bs with
  | nil => rfl
  | cons b' bs =>
    obtain ⟨test, body⟩ := b'
    simp [Conditional.diverges, firstEscapes]

def BranchesPreserved (I : Interpretation σ V ι) (guards : Bool) (bs : List Branch) : Prop :=
  ∀ ⦃α : Type⦄ ⦃C : Surroundings V⦄ ⦃sink : Sink⦄ ⦃span : Span⦄ ⦃K : V → Program σ V V α⦄
    ⦃D : α → Unit → Store V → Prop⦄ ⦃other : Program σ V V V⦄ ⦃orelse : Option (List Lowered)⦄
    ⦃st st' : State⦄ ⦃r : Option (List Lowered)⦄ ⦃H : Store V⦄,
    Yields (lowerBranches guards sink span orelse bs) st r st' → Fits I C st →
    (firstEscapes bs = false → (branchesDiverge bs = false → Delivers I C sink K D) ∧
      ∀ {H}, C.calm H → Simulates (other >>= K) (otherwise I orelse) H (Ends C D)) → C.calm H →
    bs = [] ∧ r = none ∨
      ∃ stmts, r = some stmts ∧ Simulates (I.branches other bs >>= K) (I.execAll stmts) H (Ends C D)

/-- The code of statements simulates them, if the code of what comes after them does so. -/
def StatementsPreserved (I : Interpretation σ V ι) (guards : Bool) (ss : List Statement) : Prop :=
  ∀ ⦃α : Type⦄ ⦃C : Surroundings V⦄ ⦃K : V → Program σ V V α⦄ ⦃D : α → Unit → Store V → Prop⦄
    ⦃finish : Program σ V V V⦄ ⦃lowerFinish : Lower (List Lowered)⦄ ⦃st st' : State⦄
    ⦃stmts : List Lowered⦄ ⦃H : Store V⦄,
    Yields (lowerStatements guards lowerFinish ss) st stmts st' → Fits I C st → Steady lowerFinish →
    (statementsDiverge ss = false → ∀ {st stmts st' H}, Yields lowerFinish st stmts st' →
      Fits I C st → C.calm H → Simulates (finish >>= K) (I.execAll stmts) H (Ends C D)) →
    C.calm H → Simulates (I.statements finish ss >>= K) (I.execAll stmts) H (Ends C D)

variable {guards : Bool}

/-! #### Statements -/

theorem StatementsPreserved.nil : StatementsPreserved I guards [] := by
  intro α C K D finish lowerFinish st st' stmts H h hC _ hf hH
  exact hf rfl h hC hH

theorem StatementsPreserved.simple {s : Simple} {rest : List Statement}
    (hs : s.value.all Expr.written = true) (hr : StatementsPreserved I guards rest) :
    StatementsPreserved I guards (.simple s span :: rest) := by
  intro α C K D finish lowerFinish st st' stmts H h hC hsf hf hH
  change Simulates ((I.simple s >>= fun _ => I.statements finish rest) >>= K) _ _ _
  rw [bind_assoc]
  refine andThen_simulates h (Steady.isStepProperty.lowerSimple _) hC
    (fun hy => lowerSimple_simulates hs hy hC hH) fun hd _ _ _ _ hy hC' hH' => ?_
  exact hr hy hC' hsf (fun hd' => hf (by simp [statementsDiverge, Statement.diverges, hd, hd'])) hH'

theorem StatementsPreserved.escape {e : Escape} (he : e.value.written = true) :
    StatementsPreserved I guards (.escape e :: rest) := by
  intro α C K D finish lowerFinish st st' stmts H h hC hsf hf hH
  obtain ⟨_, _, hy, hp⟩ := Yields.bind_iff.1 h
  obtain ⟨rfl, rfl⟩ := Yields.pure_iff.1 hp
  exact (lowerEscape_simulates he hy hC hH).noResult

theorem StatementsPreserved.letMatch {primary : Pattern} {source : Expr} {arms : List Arm}
    {rest : List Statement} (hs : source.written = true)
    (hclosed : (guards || primary.irrefutable || arms.any Arm.takesAll) = true)
    (ha : ArmsPreserved I guards arms) (hr : StatementsPreserved I guards rest) :
    StatementsPreserved I guards (.letMatch primary source arms span :: rest) := by
  intro α C K D finish lowerFinish st st' stmts H h hC hsf hf hH
  have heq : I.statements finish (.letMatch primary source arms span :: rest) >>= K =
      I.expression source >>= fun v => I.takes primary none v >>= fun b =>
        if b then I.statements finish rest >>= K else I.fallback v arms >>= K := by
    change (I.expression source >>= fun v => (I.accept primary v).run >>= fun b =>
      if b then I.statements finish rest else I.fallback v arms) >>= K = _
    simp only [bind_assoc, takes_none]
    refine bind_congr fun v => bind_congr fun b => ?_
    split <;> rfl
  rw [heq]
  obtain ⟨⟨prelude, source?⟩, t, hl, h⟩ := Yields.bind_iff.1 h
  have hlf : Lifted I C source H (prelude, source?) := lift_lifted hs hl hC hH
  cases source? with
  | none =>
    obtain ⟨rfl, -⟩ := Yields.pure_iff.1 h
    exact Simulates.noResult hlf
  | some e =>
    obtain ⟨body, t₁, hb, h⟩ := Yields.bind_iff.1 h
    obtain ⟨cases, t₂, hcs, h⟩ := Yields.bind_iff.1 h
    obtain ⟨m, t₃, hm, h⟩ := Yields.bind_iff.1 h
    obtain ⟨rfl, -⟩ := Yields.pure_iff.1 h
    have hC₁ := hC.extends (Steady.isStepProperty.lift _ hl)
    have hC₂ := hC₁.extends (Steady.isStepProperty.lowerStatements _ hsf _ hb)
    obtain ⟨catchAll, rfl⟩ : ∃ catchAll,
        m = .matchOn e (.mk primary none (Lowered.suite body) :: cases) catchAll := by
      obtain ⟨-, rfl⟩ | ⟨-, -, c, rfl⟩ := hm.closeMatch_cases <;> exact ⟨_, rfl⟩
    rw [I.execAll_append, I.execAll_singleton]
    refine hlf.andThen fun {v H'} hH' => case_simulates rfl (fun hH => ?_) (fun hp H hH => ?_) hH'
    · rw [I.execAll_suite]
      exact hr hb hC₁ hsf (fun hd => hf (by simpa [statementsDiverge, Statement.diverges] using hd)) hH
    · refine ha hcs hC₂ (fun hc H hH => ?_) hH
      obtain ⟨hcov, -⟩ | ⟨-, -, c, hm⟩ := hm.closeMatch_cases
      · -- no case takes every value, so the match is not left open
        have hncov : isCovered (.mk primary none (Lowered.suite body) :: cases) = false := by
          rw [isCovered_cons, hp, hcs.isCovered_lowerArms, hc]
          rfl
        have hprim : primary.irrefutable = false := by simpa using hp
        rw [hncov] at hcov
        rw [hprim, hc] at hclosed
        simp_all
      · cases hm
        exact .write (.leave .raise)

theorem StatementsPreserved.conditional {c : Conditional} (hc : ConditionalPreserved I guards c)
    (hr : StatementsPreserved I guards rest) :
    StatementsPreserved I guards (.conditional c :: rest) := by
  intro α C K D finish lowerFinish st st' stmts H h hC hsf hf hH
  have heq : I.statements finish (.conditional c :: rest) >>= K =
      (I.conditional c >>= fun _ => pure ()) >>= fun _ => I.statements finish rest >>= K := by
    change (I.conditional c >>= fun _ => I.statements finish rest) >>= K = _
    simp only [bind_assoc, pure_bind]
  rw [heq]
  refine andThen_simulates h (Steady.isStepProperty.lowerConditional _ _ _) hC (fun hy => hc hy hC (fun hd => ?_) hH)
    fun hd _ _ _ _ hy hC' hH' => ?_
  · exact .discarding fun hH => ⟨hd, hH⟩
  · exact hr hy hC' hsf (fun hd' => hf (by simp [statementsDiverge, Statement.diverges, hd, hd'])) hH'

/-- One trip of a host loop over a block. -/
theorem BlockPreserved.trip {body : Block} (hb : BlockPreserved I guards body)
    {inside : List Lowered} (h : Yields (withLoop (lowerBlock guards .discard body)) st inside st')
    (hC : Fits I C st) {κ : Type} (i : κ) (hH : C.calm H) :
    Simulates (mapEnd (tripEnd i) (I.block body >>= fun _ => pure ()))
      (mapEnd (tripEnd i) (I.execAll (Lowered.suite inside))) H
      (Simulates.StepPost C.calm (LoopEnds C)) := by
  obtain ⟨t, hy, -⟩ := Yields.withLoop_iff.1 h
  rw [I.execAll_suite]
  exact trip_simulates i (hb hy (hC.loop _) (fun _ => .discarding id) hH)

theorem StatementsPreserved.whileLoop {test : Expr} {body : Block} {rest : List Statement}
    (ht : test.fixed = true) (hw : body.wellFormed guards = true) (hb : BlockPreserved I guards body)
    (hr : StatementsPreserved I guards rest) :
    StatementsPreserved I guards (.whileLoop test body span :: rest) := by
  intro α C K D finish lowerFinish st st' stmts H h hC hsf hf hH
  change Simulates ((I.whileOver test (I.block body) >>= fun _ => I.statements finish rest) >>= K) _ _ _
  rw [bind_assoc]
  refine andThen_simulates h ?_ hC (fun hy => ?_) fun hd _ _ _ _ hy hC' hH' => ?_
  · exact (Steady.withLoop (Steady.isStepProperty.lowerBlock _ _ _)).bind fun _ =>
      (Steady.isStepProperty.afterLoop _).bind fun _ => .pure _
  · obtain ⟨inside, t, hl, hy⟩ := Yields.bind_iff.1 hy
    obtain ⟨after, t', ha, hp⟩ := Yields.bind_iff.1 hy
    obtain ⟨rfl, rfl⟩ := Yields.pure_iff.1 hp
    have hsteady := Steady.withLoop (Steady.isStepProperty.lowerBlock guards .discard body) hl
    have hloop : Simulates (I.whileOver test (I.block body))
        (I.execWhile (.expr test) (I.execAll (Lowered.suite inside))) H (LoopEnds C) := by
      refine .loop (fun _ H hH => test_bind ht (fun b => ?_) fun _ => .leave .raise) _ hH
      cases b with
      | false => exact .pure (.stop (.ok hH))
      | true => exact hb.trip hl hC () hH
    exact (afterLoop_simulates hloop (fun he => I.escapeFree_whileOver ht (I.escapeFree_block hw he)) ha
      (hC.extends hsteady)).mono_ends fun hc => ⟨rfl, hc⟩
  · exact hr hy hC' hsf (fun hd' => hf (by simp [statementsDiverge, Statement.diverges, hd'])) hH'

theorem StatementsPreserved.forLoop {target : Host.Surface} {iterable : Expr} {body : Block}
    {rest : List Statement} (hi : iterable.written = true) (hw : body.wellFormed guards = true)
    (hb : BlockPreserved I guards body) (hr : StatementsPreserved I guards rest) :
    StatementsPreserved I guards (.forLoop target iterable body span :: rest) := by
  intro α C K D finish lowerFinish st st' stmts H h hC hsf hf hH
  have heq : I.statements finish (.forLoop target iterable body span :: rest) >>= K =
      (I.expression iterable >>= fun v => (I.iterate v).run >>= fun i =>
        I.forOver target i (I.block body)) >>= fun _ => I.statements finish rest >>= K := by
    change (I.expression iterable >>= fun v => (I.iterate v).run >>= fun i =>
      I.forOver target i (I.block body) >>= fun _ => I.statements finish rest) >>= K = _
    simp only [bind_assoc]
  rw [heq]
  refine andThen_simulates h ?_ hC (fun hy => ?_) fun hd _ _ _ _ hy hC' hH' => ?_
  · refine (Steady.isStepProperty.lift _).bind fun r => ?_
    obtain ⟨prelude, iterable?⟩ := r
    cases iterable? with
    | none => exact .pure _
    | some e =>
      exact (Steady.withLoop (Steady.isStepProperty.lowerBlock _ _ _)).bind fun _ =>
        (Steady.isStepProperty.afterLoop _).bind fun _ => .pure _
  · obtain ⟨⟨prelude, iterable?⟩, t, hl, hy⟩ := Yields.bind_iff.1 hy
    have hlf : Lifted I C iterable H (prelude, iterable?) := lift_lifted hi hl hC hH
    cases iterable? with
    | none =>
      obtain ⟨rfl, -⟩ := Yields.pure_iff.1 hy
      exact Simulates.noResult hlf
    | some e =>
      obtain ⟨inside, t', hin, hy⟩ := Yields.bind_iff.1 hy
      obtain ⟨after, t'', ha, hp⟩ := Yields.bind_iff.1 hy
      obtain ⟨rfl, rfl⟩ := Yields.pure_iff.1 hp
      have hC' := hC.extends (Steady.isStepProperty.lift _ hl)
      have hsteady := Steady.withLoop (Steady.isStepProperty.lowerBlock guards .discard body) hin
      simp only [I.execAll_append, I.execAll_cons, Interpretation.exec, bind_assoc]
      refine hlf.andThen fun {v H'} hH' => .action_bind (fun i => ?_) fun _ => .raise
      have hloop : Simulates (I.forOver target i (I.block body))
          (I.execFor target i (I.execAll (Lowered.suite inside))) H' (LoopEnds C) := by
        refine .loop (fun i H hH => .action_bind (fun next => ?_) fun _ => .leave .raise) _ hH'
        cases next with
        | none => exact .pure (.stop (.ok hH))
        | some j => exact hb.trip hin hC' j hH
      exact (afterLoop_simulates hloop
        (fun he => I.escapeFree_forOver target i (I.escapeFree_block hw he)) ha
        (hC'.extends hsteady)).mono_ends fun hc => ⟨rfl, hc⟩
  · exact hr hy hC' hsf (fun hd' => hf (by simp [statementsDiverge, Statement.diverges, hd'])) hH'

/-- A boundary block, wherever its value goes. -/
theorem BlockPreserved.boundary {b : Block} (hw : b.wellFormed guards = true) (hb : BlockPreserved I guards b)
    {D : α → Unit → Store V → Prop}
    (h : Yields (Lowering.boundary b.containsEscape span sink fun s => lowerBlock guards s b) st r st')
    (hC : Fits I C st) (hK : Delivers I C sink K D) (hH : C.calm H) :
    Simulates (caught (I.block b) >>= K) (I.execAll r.body) H (Ends C D) :=
  boundary_simulates (fun hy hC hK hH => hb hy hC (fun _ => hK) hH)
    (fun he => I.escapeFree_block hw he) h hC hK hH

theorem StatementsPreserved.nested {sink : Sink} {b : Block} {rest : List Statement}
    (hs : sink.isWritten = true) (hw : b.wellFormed guards = true) (hb : BlockPreserved I guards b)
    (hr : StatementsPreserved I guards rest) :
    StatementsPreserved I guards (.nested sink b span :: rest) := by
  intro α C K D finish lowerFinish st st' stmts H h hC hsf hf hH
  have heq : I.statements finish (.nested sink b span :: rest) >>= K =
      (caught (I.block b) >>= I.hand sink) >>= fun _ => I.statements finish rest >>= K := by
    change (caught (I.block b) >>= fun v => I.hand sink v >>= fun _ => I.statements finish rest) >>= K = _
    simp only [bind_assoc]
  obtain ⟨hflag, htargets⟩ := Bool.and_eq_true_iff.1 hs
  have hflag : sink.exitFlag = none := by simpa using hflag
  rw [heq]
  refine andThen_simulates h ?_ hC (fun hy => ?_) fun hd _ _ _ _ hy hC' hH' => ?_
  · exact (Steady.isStepProperty.boundary fun s => Steady.isStepProperty.lowerBlock _ _ _).bind fun _ => .pure _
  · obtain ⟨r, t, hy, hp⟩ := Yields.bind_iff.1 hy
    obtain ⟨rfl, rfl⟩ := Yields.pure_iff.1 hp
    refine hb.boundary hw hy hC ?_ hH
    cases hret : sink.isReturn with
    | true => exact .returning hflag hret
    | false =>
      refine .hand hflag (fun hH => ⟨rfl, hH⟩) fun {name targets v H} hdest hmem _ => ?_
      rw [hdest] at htargets
      exact absurd (List.all_eq_true.1 htargets _ hmem) Bool.false_ne_true
  · exact hr hy hC' hsf (fun hd' => hf (by simp [statementsDiverge, Statement.diverges, hd, hd'])) hH'

/-! #### Arms, branches and tails -/

theorem ArmsPreserved.nil : ArmsPreserved I guards [] := by
  intro α C K D st st' cases v other H h hC ho hH
  obtain ⟨rfl, -⟩ := Yields.pure_iff.1 h
  change Simulates (leave (.raise (I.unmatched v)) >>= K) other H _
  rw [leave_bind]
  exact ho rfl hH

theorem ArmsPreserved.cons {pattern : Pattern} {guard : Option Expr} {body : Block} {shorthand : Bool}
    {arms : List Arm} (hg : guard.all Expr.fixed = true) (hb : BlockPreserved I guards body)
    (ha : ArmsPreserved I guards arms) :
    ArmsPreserved I guards (.mk pattern guard body span shorthand :: arms) := by
  intro α C K D st st' cases v other H h hC ho hH
  obtain ⟨hd, stmts, t, cases', hy, hcs, rfl⟩ := h.lowerArms_cons
  have heq : I.fallback v (.mk pattern guard body span shorthand :: arms) >>= K =
      I.takes pattern guard v >>= fun b => if b then I.block body >>= K else I.fallback v arms >>= K := by
    change (I.takes pattern guard v >>= fun b => if b then I.block body else I.fallback v arms) >>= K = _
    rw [bind_assoc]
    refine bind_congr fun b => ?_
    split <;> rfl
  rw [heq]
  refine case_simulates hg (fun hH => ?_) (fun hp _ hH => ?_) hH
  · rw [I.execAll_suite]
    exact hb hy hC (fun hn => absurd (hd.symm.trans hn) (by decide)) hH
  · exact ha hcs (hC.extends (Steady.isStepProperty.lowerBlock _ _ _ hy))
      (fun hn => ho (by rw [List.any_cons, hn, Arm.takesAll, hp]; rfl)) hH

theorem BranchesPreserved.nil : BranchesPreserved I guards [] := by
  intro α C sink span K D other orelse st st' r H h _ _ _
  exact .inl ⟨rfl, (Yields.pure_iff.1 h).1⟩

theorem BranchesPreserved.cons {test : Expr} {body : Block} {rest : List Branch}
    (ht : test.written = true) (hb : BlockPreserved I guards body)
    (hr : BranchesPreserved I guards rest) : BranchesPreserved I guards (.mk test body :: rest) := by
  intro α C sink span K D other orelse st st' r H h hC ho hH
  have heq : I.branches other (.mk test body :: rest) >>= K = I.expression test >>= fun v =>
      if I.truthy v then I.block body >>= K else I.branches other rest >>= K := by
    change ((I.expression test >>= fun v => pure (I.truthy v)) >>= fun b =>
      if b then I.block body else I.branches other rest) >>= K = _
    simp only [bind_assoc, pure_bind]
    refine bind_congr fun v => ?_
    split <;> rfl
  rw [heq]
  obtain ⟨later, t, hlater, h⟩ := Yields.bind_iff.1 h
  generalize hnext : (later.map continueWith).getD ([], orelse) = next at h
  obtain ⟨arms, orelse'⟩ := next
  have hC₁ := hC.extends (Steady.isStepProperty.lowerBranches _ _ _ _ _ hlater)
  obtain ⟨⟨prelude, test?⟩, t₁, hl, h⟩ := Yields.bind_iff.1 h
  have hlf : Lifted I C test H (prelude, test?) := lift_lifted ht hl hC₁ hH
  refine .inr ?_
  cases test? with
  | none =>
    obtain ⟨rfl, -⟩ := Yields.pure_iff.1 h
    exact ⟨prelude, rfl, Simulates.noResult hlf⟩
  | some t' =>
    obtain ⟨stmts, t₂, hbody, h⟩ := Yields.bind_iff.1 h
    obtain ⟨rfl, -⟩ := Yields.pure_iff.1 h
    have hne : test.alwaysEscapes = false := Bool.eq_false_iff.2 fun ha =>
      absurd (hl.lift_of_alwaysEscapes ha) (by simp)
    obtain ⟨hK, hother⟩ := ho hne
    have hlater {H : Store V} (hH : C.calm H) : Simulates (I.branches other rest >>= K)
        (I.execArms (otherwise I orelse') arms) H (Ends C D) := by
      obtain ⟨rfl, rfl⟩ | ⟨chain, rfl, hchain⟩ :=
        hr hlater hC (fun _ => ⟨fun hd => hK (by simp [branchesDiverge, hd]), hother⟩) hH
      · cases hnext
        exact hother hH
      · rw [← execArms_continueWith, show continueWith chain = (arms, orelse') from hnext] at hchain
        exact hchain
    have hcode : I.execAll (prelude ++
        [.branch (.mk (.expr t') (Lowered.suite stmts) :: arms) orelse']) =
        I.execAll prelude >>= fun _ => I.evalExpr t' >>= fun v =>
          if I.truthy v then I.execAll stmts else I.execArms (otherwise I orelse') arms := by
      rw [I.execAll_append, I.execAll_singleton, exec_branch]
      simp only [Interpretation.execArms, Interpretation.evalTest, bind_assoc, pure_bind,
        I.execAll_suite]
    refine ⟨_, rfl, ?_⟩
    rw [hcode]
    refine hlf.andThen fun {v H'} hH' => ?_
    split
    · exact hb hbody (hC₁.extends (Steady.isStepProperty.lift _ hl))
        (fun hd => hK (by simp [branchesDiverge, hd])) hH'
    · exact hlater hH'

theorem ConditionalPreserved.mk {bs : List Branch} {orelse : Option Block} (hne : bs ≠ [])
    (hbs : BranchesPreserved I guards bs) (ho : ∀ b, orelse = some b → BlockPreserved I guards b) :
    ConditionalPreserved I guards (.mk bs orelse span) := by
  intro α C sink K D st st' stmts H h hC hK hH
  -- what is done if no branch is taken is lowered first
  have finish {other : Program σ V V V} {code : Option (List Lowered)} {t : State}
      (hy : Yields (lowerBranches guards sink span code bs >>= fun r => pure (r.getD [])) t stmts st')
      (hC : Fits I C t)
      (ho : firstEscapes bs = false → (branchesDiverge bs = false → Delivers I C sink K D) ∧
        ∀ {H}, C.calm H → Simulates (other >>= K) (otherwise I code) H (Ends C D)) :
      Simulates (I.branches other bs >>= K) (I.execAll stmts) H (Ends C D) := by
    obtain ⟨r, t', hbr, hp⟩ := Yields.bind_iff.1 hy
    obtain ⟨rfl, -⟩ := Yields.pure_iff.1 hp
    obtain ⟨rfl, -⟩ | ⟨stmts, rfl, hs⟩ := hbs hbr hC ho hH
    · exact absurd rfl hne
    · exact hs
  cases orelse with
  | none =>
    rw [diverges_none] at hK
    obtain ⟨missing, t, hm, hy⟩ := Yields.bind_iff.1 h
    obtain ⟨_, _, hp, hy⟩ := Yields.bind_iff.1 hy
    obtain ⟨rfl, rfl⟩ := Yields.pure_iff.1 hp
    obtain ⟨hd, rfl⟩ := Yields.delivered_iff.1 hm
    refine finish hy hC fun hf => ⟨fun _ => hK hf, fun hH => ?_⟩
    rw [pure_bind, otherwise_of_isEmpty]
    exact (hK hf).missing hd hH
  | some b =>
    rw [diverges_some] at hK
    obtain ⟨other, t, hd, hy⟩ := Yields.bind_iff.1 h
    obtain ⟨_, _, hp, hy⟩ := Yields.bind_iff.1 hy
    obtain ⟨rfl, rfl⟩ := Yields.pure_iff.1 hp
    refine finish hy (hC.extends (Steady.isStepProperty.lowerBlock _ _ _ hd)) fun hf => ?_
    refine ⟨fun hb => hK (by simp [hf, hb]), fun hH => ?_⟩
    change Simulates _ (I.execAll (Lowered.suite other)) _ _
    rw [I.execAll_suite]
    exact ho b rfl hd hC (fun hb => hK (by simp [hf, hb])) hH

/-! #### Assembly -/

/-- A block runs its statements, and then its tail. -/
theorem BlockPreserved.tail {ss : List Statement} {t : Tail} {boundary : Bool}
    (hs : StatementsPreserved I guards ss)
    (ht : ∀ {α : Type} {C : Surroundings V} {sink : Sink} {K : V → Program σ V V α}
      {D : α → Unit → Store V → Prop} {st st' : State} {stmts : List Lowered} {H : Store V},
      Yields (lowerTail guards sink span t) st stmts st' → Fits I C st →
      ((Block.mk [] (some t) span boundary).diverges = false → Delivers I C sink K D) → C.calm H →
      Simulates (I.tailValue t >>= K) (I.execAll stmts) H (Ends C D)) :
    BlockPreserved I guards (.mk ss (some t) span boundary) := by
  intro α C sink K D st st' stmts H h hC hK hH
  refine hs h hC (Steady.isStepProperty.lowerTail _ _ _ _) (fun hd _ _ _ _ hy hC hH => ?_) hH
  refine ht hy hC (fun hd' => hK ?_) hH
  cases t <;> simp_all [Block.diverges, statementsDiverge]

theorem BlockPreserved.noTail {ss : List Statement} {boundary : Bool}
    (hs : StatementsPreserved I guards ss) :
    BlockPreserved I guards (.mk ss none span boundary) := by
  intro α C sink K D st st' stmts H h hC hK hH
  refine hs h hC (Steady.isStepProperty.delivered _) (fun hd _ _ _ _ hy _ hH => ?_) hH
  have hK := hK (by simpa [Block.diverges] using hd)
  rw [pure_bind]
  exact hK.missing (Yields.delivered_iff.1 hy).1 hH

theorem BlockPreserved.value {ss : List Statement} {e : Expr} {boundary : Bool}
    (hs : StatementsPreserved I guards ss) (he : e.written = true) :
    BlockPreserved I guards (.mk ss (some (.value e)) span boundary) := by
  refine .tail hs fun {α C sink K D st st' stmts H} hy hC hK hH => ?_
  obtain ⟨⟨prelude, value⟩, t, hl, hy⟩ := Yields.bind_iff.1 hy
  have hlf : Lifted I C e H (prelude, value) := lift_lifted he hl hC hH
  cases value with
  | none =>
    obtain ⟨rfl, -⟩ := Yields.pure_iff.1 hy
    exact Simulates.noResult hlf
  | some v =>
    obtain ⟨after, t', hd, hp⟩ := Yields.bind_iff.1 hy
    obtain ⟨rfl, -⟩ := Yields.pure_iff.1 hp
    have hne : e.alwaysEscapes = false := Bool.eq_false_iff.2 fun ha =>
      absurd (hl.lift_of_alwaysEscapes ha) (by simp)
    rw [I.execAll_append, execAll_deliver (Yields.delivered_iff.1 hd).1]
    exact hlf.andThen fun hH => (hK (by simp [Block.diverges, statementsDiverge, hne])).value hH

mutual

/-- The code of a well-formed block simulates it. -/
theorem blockPreserved : ∀ {b : Block}, b.wellFormed guards = true → BlockPreserved I guards b
  | .mk ss none span _, hb => by
    simp only [Block.wellFormed, Bool.and_true] at hb
    exact .noTail (statementsPreserved hb)
  | .mk ss (some (.value e)) span _, hb => by
    simp only [Block.wellFormed, Tail.wellFormed, Bool.and_eq_true] at hb
    exact .value (statementsPreserved hb.1) hb.2
  | .mk ss (some (.escape e)) span _, hb => by
    simp only [Block.wellFormed, Tail.wellFormed, Bool.and_eq_true] at hb
    refine .tail (statementsPreserved hb.1) fun hy hC _ hH => ?_
    exact (lowerEscape_simulates hb.2 hy hC hH).noResult
  | .mk ss (some (.conditional c)) span _, hb => by
    simp only [Block.wellFormed, Tail.wellFormed, Bool.and_eq_true] at hb
    refine .tail (statementsPreserved hb.1) fun hy hC hK hH => ?_
    exact conditionalPreserved hb.2 hy hC
      (fun hd => hK (by simpa [Block.diverges, statementsDiverge] using hd)) hH
  | .mk ss (some (.block b)) span _, hb => by
    simp only [Block.wellFormed, Tail.wellFormed, Bool.and_eq_true] at hb
    refine .tail (statementsPreserved hb.1) fun hy hC hK hH => ?_
    obtain ⟨r, t, hr, hp⟩ := Yields.bind_iff.1 hy
    obtain ⟨rfl, -⟩ := Yields.pure_iff.1 hp
    exact (blockPreserved hb.2).boundary hb.2 hr hC (hK rfl) hH

theorem statementsPreserved : ∀ {ss : List Statement}, statementsWellFormed guards ss = true →
    StatementsPreserved I guards ss
  | [], _ => .nil
  | s :: rest, hs => by
    simp only [statementsWellFormed, Bool.and_eq_true] at hs
    have hr := statementsPreserved hs.2
    obtain ⟨hs, -⟩ := hs
    cases s with
    | simple s span => exact .simple hs hr
    | escape e => exact .escape hs
    | letMatch primary source arms span =>
      simp only [Statement.wellFormed, Bool.and_eq_true] at hs
      exact .letMatch hs.1.1 hs.1.2 (armsPreserved hs.2) hr
    | conditional c => exact .conditional (conditionalPreserved hs) hr
    | whileLoop test body span =>
      simp only [Statement.wellFormed, Bool.and_eq_true] at hs
      exact .whileLoop hs.1 hs.2 (blockPreserved hs.2) hr
    | forLoop target iterable body span =>
      simp only [Statement.wellFormed, Bool.and_eq_true] at hs
      exact .forLoop hs.1 hs.2 (blockPreserved hs.2) hr
    | nested sink b span =>
      simp only [Statement.wellFormed, Bool.and_eq_true] at hs
      exact .nested hs.1 hs.2 (blockPreserved hs.2) hr

theorem armsPreserved : ∀ {arms : List Arm}, armsWellFormed guards arms = true →
    ArmsPreserved I guards arms
  | [], _ => .nil
  | .mk _ _ _ _ _ :: _, ha => by
    simp only [armsWellFormed, Bool.and_eq_true] at ha
    exact .cons ha.1.1 (blockPreserved ha.1.2) (armsPreserved ha.2)

theorem conditionalPreserved : ∀ {c : Conditional}, c.wellFormed guards = true →
    ConditionalPreserved I guards c
  | .mk bs none _, hc => by
    simp only [Conditional.wellFormed, Bool.and_eq_true, Bool.not_eq_true', List.isEmpty_eq_false_iff]
      at hc
    exact .mk hc.1.1 (branchesPreserved hc.1.2) nofun
  | .mk bs (some b) _, hc => by
    simp only [Conditional.wellFormed, Bool.and_eq_true, Bool.not_eq_true', List.isEmpty_eq_false_iff]
      at hc
    refine .mk hc.1.1 (branchesPreserved hc.1.2) fun b' hb' => ?_
    cases hb'
    exact blockPreserved hc.2

theorem branchesPreserved : ∀ {bs : List Branch}, branchesWellFormed guards bs = true →
    BranchesPreserved I guards bs
  | [], _ => .nil
  | .mk _ _ :: _, hb => by
    simp only [branchesWellFormed, Bool.and_eq_true] at hb
    exact .cons hb.1.1 (blockPreserved hb.1.2) (branchesPreserved hb.2)

end

end Lowering

end DoBlocks
