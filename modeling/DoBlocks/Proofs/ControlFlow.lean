import DoBlocks.Proofs.Meaning
import DoBlocks.Proofs.WellFormed

/-!
# Blocks without escapes

Lowering decides by looking at a block whether it can escape. The answer is right on every run: a block
that holds no escape of its own never escapes.
-/

namespace DoBlocks

open Program

namespace Interpretation

variable {σ V ι : Type} (I : Interpretation σ V ι)

/-! ### Expressions -/

theorem escapeFree_run {E α : Type} (a : Action σ V α) :
    EscapeFree (a.run : Program σ V E α) := by
  rintro s e s' ⟨x, -, hx⟩
  cases x <;> cases hx

/-- An expression without escapes is the host's. -/
theorem expression_eq_run {e : Expr} (h : e.hasEscape = false) :
    I.expression e = (I.evaluate e).run := by
  cases e with
  | plain text buried => rfl
  | hidden name => rfl
  | escape text mark operand => cases h
  | logical c opening left before after right closing =>
    rw [Expr.hasEscape_logical] at h
    rw [expression, h]
    rfl
  | conditional opening body ifText test elseText orelse closing =>
    rw [Expr.hasEscape_conditional] at h
    rw [expression, h]
    rfl

theorem escapeFree_expression {e : Expr} (h : e.hasEscape = false) :
    EscapeFree (I.expression e) := by
  rw [I.expression_eq_run h]
  exact escapeFree_run _

theorem escapeFree_test {e : Expr} (h : e.hasEscape = false) : EscapeFree (I.test e) :=
  (I.escapeFree_expression h).bind fun _ => .pure _

/-! ### Simple statements and sinks -/

theorem escapeFree_transfer {S E : Type} (form : SimpleForm) (v : V) :
    EscapeFree (transfer form v : Program S V E Unit) := by
  rintro s e s' h
  cases form <;> cases h.1

theorem escapeFree_simple {s : Simple} (h : s.hasEscape = false) : EscapeFree (I.simple s) := by
  refine .bind ?_ fun v => escapeFree_transfer _ v
  rw [I.simpleValue_of_not_hasEscape fun e he => by
    simp_all [Simple.hasEscape, Simple.marks, Expr.hasEscape]]
  exact escapeFree_run _

theorem escapeFree_assignTargets {E : Type} (v : V) (targets : List Target) :
    EscapeFree (I.assignTargets v targets : Program σ V E Unit) := by
  induction targets with
  | nil => exact .pure _
  | cons t rest ih =>
    cases t with
    | written text => exact (escapeFree_run _).bind fun _ => ih
    | hidden name => exact ih

theorem escapeFree_hand {E : Type} (sink : Sink) (v : V) :
    EscapeFree (I.hand sink v : Program σ V E Unit) := by
  unfold hand
  split
  · exact I.escapeFree_assignTargets v _
  · rintro s e s' ⟨h, -⟩
    cases h
  · exact .pure _

theorem escapeFree_takes (pattern : Pattern) {guard : Option Expr} (h : guard.all Expr.fixed = true)
    (v : V) : EscapeFree (I.takes pattern guard v) := by
  refine (escapeFree_run _).bind fun accepted => .ite ?_ (.pure _)
  cases guard with
  | none => exact .pure _
  | some g =>
    simp only [Option.all_some, Expr.fixed, Bool.and_eq_true, Bool.not_eq_true'] at h
    exact I.escapeFree_test h.2

theorem escapeFree_whileOver {test : Expr} (ht : test.fixed = true) {body : Program σ V V V}
    (hb : EscapeFree body) : EscapeFree (I.whileOver test body) := by
  simp only [Expr.fixed, Bool.and_eq_true, Bool.not_eq_true'] at ht
  refine .loop (fun _ => (I.escapeFree_test ht.2).bind fun _ => .ite ?_ (.pure _)) _
  exact .mapEnd_tripEnd (hb.bind fun _ => .pure _) _

theorem escapeFree_forOver (target : Host.Surface) (i : ι) {body : Program σ V V V}
    (hb : EscapeFree body) : EscapeFree (I.forOver target i body) := by
  refine .loop (fun i => (escapeFree_run _).bind fun next => ?_) _
  cases next with
  | none => exact .pure _
  | some j => exact .mapEnd_tripEnd (hb.bind fun _ => .pure _) _

/-! ### Blocks -/

variable {guards : Bool}

mutual

theorem escapeFree_block : ∀ {b : Block}, b.wellFormed guards = true → b.containsEscape = false →
    EscapeFree (I.block b)
  | .mk ss none _ _, hb, h => by
    simp only [Block.wellFormed, Block.containsEscape, Bool.and_true, Bool.or_false] at hb h
    exact escapeFree_statements (.pure _) hb h
  | .mk ss (some (.value e)) _ _, hb, h => by
    simp only [Block.wellFormed, Block.containsEscape, Bool.and_eq_true, Bool.or_eq_false_iff] at hb h
    exact escapeFree_statements (I.escapeFree_expression h.2) hb.1 h.1
  | .mk ss (some (.escape e)) _ _, _, h => by
    simp only [Block.containsEscape, Bool.or_true, Bool.true_eq_false] at h
  | .mk ss (some (.conditional c)) _ _, hb, h => by
    simp only [Block.wellFormed, Block.containsEscape, Bool.and_eq_true, Bool.or_eq_false_iff] at hb h
    exact escapeFree_statements (escapeFree_conditional hb.2 h.2) hb.1 h.1
  | .mk ss (some (.block b)) _ _, hb, h => by
    simp only [Block.wellFormed, Block.containsEscape, Bool.and_eq_true, Bool.or_false] at hb h
    exact escapeFree_statements (.caught _) hb.1 h

theorem escapeFree_statements {finish : Program σ V V V} (hf : EscapeFree finish) :
    ∀ {ss : List Statement}, statementsWellFormed guards ss = true → statementsContainEscape ss = false →
      EscapeFree (I.statements finish ss)
  | [], _, _ => hf
  | s :: rest, hw, h => by
    simp only [statementsWellFormed, statementsContainEscape, Bool.and_eq_true,
      Bool.or_eq_false_iff] at hw h
    have hr := escapeFree_statements hf hw.2 h.2
    obtain ⟨hw, -⟩ := hw
    obtain ⟨h, -⟩ := h
    cases s with
    | simple s span => exact (I.escapeFree_simple h).bind fun _ => hr
    | escape e => cases h
    | letMatch primary source arms span =>
      simp only [Statement.wellFormed, Statement.containsEscape, Bool.and_eq_true,
        Bool.or_eq_false_iff] at hw h
      exact (I.escapeFree_expression h.1).bind fun v => (escapeFree_run _).bind fun _ =>
        .ite hr (escapeFree_fallback v hw.2 h.2)
    | conditional c => exact (escapeFree_conditional hw h).bind fun _ => hr
    | whileLoop test body span =>
      simp only [Statement.wellFormed, Bool.and_eq_true] at hw
      exact (I.escapeFree_whileOver hw.1 (escapeFree_block hw.2 h)).bind fun _ => hr
    | forLoop target iterable body span =>
      simp only [Statement.wellFormed, Statement.containsEscape, Bool.and_eq_true,
        Bool.or_eq_false_iff] at hw h
      exact (I.escapeFree_expression h.1).bind fun v => (escapeFree_run _).bind fun i =>
        (I.escapeFree_forOver target i (escapeFree_block hw.2 h.2)).bind fun _ => hr
    | nested sink b span =>
      exact (EscapeFree.caught _).bind fun v => (I.escapeFree_hand sink v).bind fun _ => hr

theorem escapeFree_fallback (v : V) : ∀ {arms : List Arm}, armsWellFormed guards arms = true →
    armsContainEscape arms = false → EscapeFree (I.fallback v arms)
  | [], _, _ => by
    rintro s e s' ⟨h, -⟩
    cases h
  | .mk pattern guard body _ _ :: rest, hw, h => by
    simp only [armsWellFormed, armsContainEscape, Bool.and_eq_true, Bool.or_eq_false_iff] at hw h
    exact (I.escapeFree_takes pattern hw.1.1 v).bind fun _ =>
      .ite (escapeFree_block hw.1.2 h.1) (escapeFree_fallback v hw.2 h.2)

theorem escapeFree_conditional : ∀ {c : Conditional}, c.wellFormed guards = true →
    c.containsEscape = false → EscapeFree (I.conditional c)
  | .mk bs none _, hw, h => by
    simp only [Conditional.wellFormed, Conditional.containsEscape, Bool.and_eq_true,
      Bool.or_eq_false_iff] at hw h
    exact escapeFree_branches (.pure _) hw.1.2 h.1
  | .mk bs (some b) _, hw, h => by
    simp only [Conditional.wellFormed, Conditional.containsEscape, Bool.and_eq_true,
      Bool.or_eq_false_iff] at hw h
    exact escapeFree_branches (escapeFree_block hw.2 h.2) hw.1.2 h.1

theorem escapeFree_branches {other : Program σ V V V} (ho : EscapeFree other) :
    ∀ {bs : List Branch}, branchesWellFormed guards bs = true → branchesContainEscape bs = false →
      EscapeFree (I.branches other bs)
  | [], _, _ => ho
  | .mk test body :: rest, hw, h => by
    simp only [branchesWellFormed, branchesContainEscape, Bool.and_eq_true,
      Bool.or_eq_false_iff] at hw h
    exact (I.escapeFree_test h.1.1).bind fun _ =>
      .ite (escapeFree_block hw.1.2 h.1.2) (escapeFree_branches ho hw.2 h.2)

end

end Interpretation

end DoBlocks
