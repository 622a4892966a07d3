import DoBlocks.Proofs.Counterparts
import DoBlocks.Proofs.Rollback

/-!
# Lowering does not depend on numbering

Two runs of lowering on the same blocks, with names from two sources, do the same up to names. `Twin`
says this of two steps: from states that correspond, both fail alike, or both succeed with results that
correspond, and the states they leave correspond again. The counterparts only grow, and at the end they
are part of a bijection.
-/

namespace DoBlocks.Lowering

/-! ### Steps that do the same -/

variable {α β : Type} {R R₁ R₂ R₃ : Counterparts}

/-- Two runs go from `st` to `t` and from `st'` to `t'`, and put corresponding entries on record. -/
structure Advance (R R' : Counterparts) (st t st' t' : State) : Prop where
  more : R ⊆ R'
  aligned : Aligned R' t t'
  obligations : ∃ os os', t.obligations = st.obligations ++ os ∧ t'.obligations = st'.obligations ++ os' ∧
    Alike R' os os'
  wrappers : ∃ ws ws', t.wrappers = st.wrappers ++ ws ∧ t'.wrappers = st'.wrappers ++ ws' ∧ Alike R' ws ws'

namespace Advance

variable {st t u st' t' u' : State}

/-- Nothing was put on record. -/
theorem silent (hR : R ⊆ R₁) (h : Aligned R₁ t t') (ho : t.obligations = st.obligations)
    (ho' : t'.obligations = st'.obligations) (hw : t.wrappers = st.wrappers)
    (hw' : t'.wrappers = st'.wrappers) : Advance R R₁ st t st' t' :=
  ⟨hR, h, ⟨[], [], by simp [ho], by simp [ho'], fun _ _ => rfl⟩,
    ⟨[], [], by simp [hw], by simp [hw'], fun _ _ => rfl⟩⟩

theorem refl (h : Aligned R st st') : Advance R R st st st' st' :=
  silent (List.Subset.refl R) h rfl rfl rfl rfl

theorem trans (h : Advance R R₁ st t st' t') (h' : Advance R₁ R₂ t u t' u') :
    Advance R R₂ st u st' u' := by
  obtain ⟨os, os', ho, ho', hos⟩ := h.obligations
  obtain ⟨os₁, os₁', ho₁, ho₁', hos₁⟩ := h'.obligations
  obtain ⟨ws, ws', hw, hw', hws⟩ := h.wrappers
  obtain ⟨ws₁, ws₁', hw₁, hw₁', hws₁⟩ := h'.wrappers
  refine ⟨List.Subset.trans h.more h'.more, h'.aligned, ?_, ?_⟩
  · refine ⟨os ++ os₁, os' ++ os₁', by rw [ho₁, ho, List.append_assoc],
      by rw [ho₁', ho', List.append_assoc], fun ρ hρ => ?_⟩
    rw [rename_append, ← hos ρ (hρ.mono h'.more), ← hos₁ ρ hρ]
  · refine ⟨ws ++ ws₁, ws' ++ ws₁', by rw [hw₁, hw, List.append_assoc],
      by rw [hw₁', hw', List.append_assoc], fun ρ hρ => ?_⟩
    rw [rename_append, ← hws ρ (hρ.mono h'.more), ← hws₁ ρ hρ]

end Advance

/-- Both runs fail alike, or both succeed with results that correspond. -/
inductive Both (rel : α → α → Prop) : Except LoweringFailure α → Except LoweringFailure α → Prop
  | ok {a a' : α} : rel a a' → Both rel (.ok a) (.ok a')
  | error (e : LoweringFailure) : Both rel (.error e) (.error e)

theorem Both.mono {rel rel' : α → α → Prop} {r r' : Except LoweringFailure α} (h : Both rel r r')
    (hrel : ∀ a a', rel a a' → rel' a a') : Both rel' r r' := by
  cases h with
  | ok h => exact .ok (hrel _ _ h)
  | error e => exact .error e

/-- Two steps that do the same up to names, if the names in `R` are counterparts. -/
def Twin (R : Counterparts) (rel : Counterparts → α → α → Prop) (m m' : Lower α) : Prop :=
  ∀ ⦃R₁⦄, R ⊆ R₁ → ∀ ⦃st st'⦄, Aligned R₁ st st' →
    ∃ R₂, Advance R₁ R₂ st (outcome m st).2 st' (outcome m' st').2 ∧
      Both (rel R₂) (outcome m st).1 (outcome m' st').1

/-- Results of lifting that correspond. -/
def LiftedAlike (R : Counterparts) (p p' : List Lowered × Option Expr) : Prop :=
  Alike R p.1 p'.1 ∧ Option.Rel (Alike R) p.2 p'.2

/-- Sinks that correspond: one of the user, or those inside corresponding wrappers. -/
inductive SinkAlike (R : Counterparts) : Sink → Sink → Prop
  | written {sink : Sink} : sink.names = [] → SinkAlike R sink sink
  | inner {w w' : WrapperNames} : (w.result, w'.result) ∈ R → (w.exit, w'.exit) ∈ R →
    SinkAlike R (innerSink w) (innerSink w')

namespace SinkAlike

variable {sink sink' : Sink}

theorem mono (h : SinkAlike R sink sink') (hR : R ⊆ R₁) : SinkAlike R₁ sink sink' := by
  cases h with
  | written h => exact .written h
  | inner hr he => exact .inner (hR hr) (hR he)

theorem alike (h : SinkAlike R sink sink') : Alike R sink sink' := by
  intro ρ hρ
  cases h with
  | written h => exact (Sink.rename_of_names_eq_nil ρ h).symm
  | @inner w w' hr he =>
    show innerSink w' = ⟨.assign [.hidden (ρ w.result)], some (.hidden (ρ w.exit))⟩
    rw [hρ _ hr, hρ _ he]
    rfl

theorem isDiscard_eq (h : SinkAlike R sink sink') : sink'.isDiscard = sink.isDiscard := by
  cases h with
  | written h => rfl
  | inner hr he => rfl

end SinkAlike

namespace Twin

variable {rel : Counterparts → α → α → Prop} {rel' : Counterparts → β → β → Prop}
  {m m' n n' : Lower α} {sink sink' : Sink} {span : Span}

theorem mono (h : Twin R rel m m') (hR : R ⊆ R₁) : Twin R₁ rel m m' := fun _ h₁ => h (List.Subset.trans hR h₁)

/-- Where states correspond, some renaming takes the names to their counterparts. -/
theorem of_exists (h : ∀ ρ, R.Within ρ → Twin R rel m m') : Twin R rel m m' := by
  intro R₁ hR st st' hst
  obtain ⟨ρ, hρ⟩ := hst.exists_perm
  exact h ρ (hρ.mono hR) hR hst

theorem pure {a a' : α} (h : ∀ {R₁}, R ⊆ R₁ → rel R₁ a a') : Twin R rel (pure a) (pure a') :=
  fun R₁ hR _ _ hst => ⟨R₁, .refl hst, .ok (h hR)⟩

theorem throw (e : LoweringFailure) : Twin R rel (throw e) (throw e) :=
  fun R₁ _ _ _ hst => ⟨R₁, .refl hst, .error e⟩

theorem fail (fault : LoweringFault) : Twin R rel (fail fault span) (fail fault span) := throw _

theorem bind {f f' : α → Lower β} (hm : Twin R rel m m')
    (hf : ∀ {R₁}, R ⊆ R₁ → ∀ a a', rel R₁ a a' → Twin R₁ rel' (f a) (f' a')) :
    Twin R rel' (m >>= f) (m' >>= f') := by
  intro R₁ hR st st' hst
  obtain ⟨R₂, hadvance, hboth⟩ := hm hR hst
  rw [outcome_bind, outcome_bind]
  generalize outcome m st = r at hadvance hboth ⊢
  generalize outcome m' st' = r' at hadvance hboth ⊢
  obtain ⟨x, t⟩ := r
  obtain ⟨x', t'⟩ := r'
  cases hboth with
  | error e => exact ⟨R₂, hadvance, .error e⟩
  | @ok a a' hrel =>
    obtain ⟨R₃, hadvance', hboth'⟩ := hf (List.Subset.trans hR hadvance.more) a a' hrel (List.Subset.refl R₂)
      hadvance.aligned
    exact ⟨R₃, hadvance.trans hadvance', hboth'⟩

theorem ite {c : Prop} [Decidable c] (hm : c → Twin R rel m m') (hn : ¬ c → Twin R rel n n') :
    Twin R rel (if c then m else n) (if c then m' else n') := by
  split
  · exact hm ‹_›
  · exact hn ‹_›

/-- A demand that is the same on both sides wherever the names in `R` are counterparts. -/
theorem require {c c' : Bool} (h : ∀ {R₁ st st'}, R ⊆ R₁ → Aligned R₁ st st' → c' = c) :
    Twin R (fun _ _ _ => True) (require c) (require c') := by
  intro R₁ hR st st' hst
  obtain rfl := h hR hst
  exact ite (fun _ => pure fun _ => trivial) (fun _ => throw _) hR hst

theorem modify {f f' : State → State}
    (h : ∀ {R₁ st st'}, R ⊆ R₁ → Aligned R₁ st st' → Advance R₁ R₁ st (f st) st' (f' st')) :
    Twin R (fun _ _ _ => True) (modify f) (modify f') :=
  fun R₁ hR _ _ hst => ⟨R₁, h hR hst, .ok trivial⟩

theorem record (e e' : Event) : Twin R (fun _ _ _ => True) (record e) (record e') := by
  refine modify fun {R₁ st st'} _ h => Advance.silent (List.Subset.refl R₁) ?_ rfl rfl rfl rfl
  exact h.moved rfl rfl rfl rfl h.wrapper h.loopDepth

theorem fresh {role : String} (hrole : role.toList.all Text.isIdentifierPart = true) :
    Twin R (fun R n n' => (n, n') ∈ R) (fresh role) (fresh role) := by
  intro R₁ hR st st' hst
  have hdraw := hst.draw [role] (by simp) (by simpa using hrole)
  refine ⟨_, .silent (List.subset_append_right _ _) hdraw rfl rfl rfl rfl, .ok ?_⟩
  exact .head _

theorem guardCallee : Twin R (fun R n n' => (n, n') ∈ R) guardCallee guardCallee := by
  intro R₁ hR st st' hst
  obtain ⟨R₂, hsub, hmem, haligned⟩ := hst.calling
  rw [outcome_guardCallee, outcome_guardCallee]
  have hrecord (st : State) : st.calling.2.obligations = st.obligations ∧
      st.calling.2.wrappers = st.wrappers := by
    obtain ⟨⟨names, hstate⟩, -⟩ := st.calling_spec
    rw [hstate]
    exact ⟨rfl, rfl⟩
  exact ⟨R₂, .silent hsub haligned (hrecord st).1 (hrecord st').1 (hrecord st).2 (hrecord st').2, .ok hmem⟩

theorem delivered {value value' : Option Expr} (hs : SinkAlike R sink sink')
    (hv : Option.Rel (Alike R) value value') :
    Twin R Alike (delivered sink value) (delivered sink' value') := by
  intro R₁ hR st st' hst
  have hdeliver : ∀ ρ, R₁.Within ρ → deliver sink' value' = rename ρ (deliver sink value) := by
    intro ρ hρ
    have hsink : sink' = rename ρ sink := hs.alike ρ (hρ.mono hR)
    have hvalue : value' = rename ρ value := renameRel hv ρ (hρ.mono hR)
    rw [hsink, hvalue]
    refine deliver_rename ρ value fun name hname => ?_
    cases hs with
    | written hnames =>
      have hflag : rename ρ sink.exitFlag = sink.exitFlag :=
        congrArg Sink.exitFlag (Sink.rename_of_names_eq_nil ρ hnames)
      rw [Option.mem_def.1 hname] at hflag
      have hname : rename ρ name = name := Option.some.inj hflag
      rw [hname]
      exact ⟨rfl, rfl⟩
    | @inner w w' hr he =>
      obtain rfl : Name.hidden w.exit = name := Option.some.inj hname
      obtain ⟨hvalid, hvalid'⟩ := hst.valid (hR he)
      have heq : ρ w.exit = w'.exit := hρ _ (hR he)
      have hempty {n : HiddenName} (h : n.isValid = true) : n.render.isEmpty = false := by
        by_contra hempty
        rw [Bool.not_eq_false, String.isEmpty_iff] at hempty
        rw [HiddenName.isValid, hempty] at h
        cases h
      show (ρ w.exit).isValid = w.exit.isValid ∧ (ρ w.exit).render.isEmpty = w.exit.render.isEmpty
      rw [heq, hvalid, hvalid', hempty hvalid, hempty hvalid']
      exact ⟨rfl, rfl⟩
  obtain ⟨ρ, hρ⟩ := hst.exists_perm
  have hboth := hdeliver ρ hρ
  unfold Lowering.delivered
  cases hd : deliver sink value with
  | error e =>
    rw [hd] at hboth
    rw [show deliver sink' value' = .error e from hboth]
    exact throw e hR hst
  | ok stmts =>
    rw [hd] at hboth hdeliver
    rw [show deliver sink' value' = .ok (rename ρ stmts) from hboth]
    refine pure (fun {R₂} hR₂ ρ' hρ' => ?_) (List.Subset.refl R₁) hst
    exact Except.ok.inj (hboth.symm.trans (hdeliver ρ' (hρ'.mono hR₂)))

theorem withLoop (h : Twin R rel m m') : Twin R rel (withLoop m) (withLoop m') := by
  intro R₁ hR st st' hst
  have hinside : Aligned R₁ { st with loopDepth := st.loopDepth + 1 }
      { st' with loopDepth := st'.loopDepth + 1 } :=
    hst.moved rfl rfl rfl rfl hst.wrapper (congrArg (· + 1) hst.loopDepth)
  obtain ⟨R₂, hadvance, hboth⟩ := h hR hinside
  refine ⟨R₂, ⟨hadvance.more, ?_, hadvance.obligations, hadvance.wrappers⟩, hboth⟩
  exact hadvance.aligned.moved rfl rfl rfl rfl hadvance.aligned.wrapper hst.loopDepth

theorem withWrapper {w w' : WrapperNames} (hw : Alike R w w') (h : Twin R rel m m') :
    Twin R rel (withWrapper w m) (withWrapper w' m') := by
  intro R₁ hR st st' hst
  have hinside : Aligned R₁ { st with wrapper := some w, loopDepth := 0 }
      { st' with wrapper := some w', loopDepth := 0 } :=
    hst.moved rfl rfl rfl rfl (.some (hw.mono hR)) rfl
  obtain ⟨R₂, hadvance, hboth⟩ := h hR hinside
  refine ⟨R₂, ⟨hadvance.more, ?_, hadvance.obligations, hadvance.wrappers⟩, hboth⟩
  exact hadvance.aligned.moved rfl rfl rfl rfl (relMono hst.wrapper hadvance.more) hst.loopDepth

/-- What both steps read from their states is the same up to names. -/
theorem get_bind {f f' : State → Lower α}
    (h : ∀ {R₁ st st'}, R ⊆ R₁ → Aligned R₁ st st' → Twin R₁ rel (f st) (f' st')) :
    Twin R rel (get >>= f) (get >>= f') :=
  fun R₁ hR _ _ hst => h hR hst (List.Subset.refl R₁) hst

theorem escapeTo {v v' : Expr} (hv : Alike R v v') :
    Twin R Alike (escapeTo span v) (escapeTo span v') := by
  refine get_bind fun {R₁ st st'} hR hst => ?_
  have hw := hst.wrapper
  generalize st.wrapper = w, st'.wrapper = w' at hw
  cases hw with
  | none => exact fail _
  | @some w w' hw =>
    refine pure fun hR₁ ρ hρ => ?_
    show leaveWrapper w' v' = rename ρ (leaveWrapper w v)
    rw [rename_leaveWrapper, ← hw ρ (hρ.mono hR₁), ← hv ρ (hρ.mono (List.Subset.trans hR hR₁))]

/-- Steps after a lift: the value is missing on both sides, or it is there on both. -/
theorem lift_bind {m m' : Lower (List Lowered × Option Expr)}
    {f f' : List Lowered × Option Expr → Lower α} (hm : Twin R LiftedAlike m m')
    (hnone : ∀ {R₁}, R ⊆ R₁ → ∀ prelude prelude', Alike R₁ prelude prelude' →
      Twin R₁ rel (f (prelude, none)) (f' (prelude', none)))
    (hsome : ∀ {R₁}, R ⊆ R₁ → ∀ prelude prelude' v v', Alike R₁ prelude prelude' → Alike R₁ v v' →
      Twin R₁ rel (f (prelude, some v)) (f' (prelude', some v'))) :
    Twin R rel (m >>= f) (m' >>= f') := by
  refine hm.bind fun hR p p' hp => ?_
  obtain ⟨prelude, value⟩ := p
  obtain ⟨prelude', value'⟩ := p'
  obtain ⟨hprelude, hvalue⟩ := hp
  cases hvalue with
  | none => exact hnone hR _ _ hprelude
  | some hv => exact hsome hR _ _ _ _ hprelude hv

theorem lift {e : Expr} (he : e.written = true) : Twin R LiftedAlike (lift span e) (lift span e) := by
  induction e generalizing R with
  | plain text buried =>
    change Twin R LiftedAlike (if _ then _ else _) (if _ then _ else _)
    exact ite (fun _ => throw _) fun _ => pure fun _ => ⟨fun _ _ => rfl, .some fun _ _ => rfl⟩
  | hidden name => cases he
  | escape text mark operand ih =>
    refine lift_bind (ih he) (fun _ _ _ hp => pure fun hR => ⟨hp.mono hR, .none⟩) fun _ _ _ _ _ hp hv => ?_
    refine (escapeTo hv).bind fun hR stmts stmts' hstmts => pure fun hR₁ => ⟨fun ρ hρ => ?_, .none⟩
    rw [rename_append, ← hp ρ (hρ.mono (List.Subset.trans hR hR₁)), ← hstmts ρ (hρ.mono hR₁)]
  | logical c opening left before after right closing ihl ihr =>
    have hwritten := he
    rw [Expr.written, Bool.and_eq_true] at he
    rw [Lowering.lift]
    refine ite (fun _ => pure fun _ => ⟨fun _ _ => rfl, .some fun ρ _ => ?_⟩) fun _ => ?_
    · exact (Expr.rename_of_written ρ hwritten).symm
    refine lift_bind (ihl he.1) (fun _ _ _ hp => pure fun hR => ⟨hp.mono hR, .none⟩) ?_
    intro R₁ _ prelude prelude' v v' hp hv
    refine ite (fun _ => ?_) fun _ => ?_
    · refine bind (require fun hR hst => ?_) fun hR _ _ _ => pure fun hR₁ => ⟨hp.mono (List.Subset.trans hR hR₁), .some ?_⟩
      · obtain ⟨ρ, hρ⟩ := hst.exists_perm
        rw [hv ρ (hρ.mono hR), Expr.isHidden_rename]
      · intro ρ hρ
        rw [Expr.rename_logical, ← hv ρ (hρ.mono (List.Subset.trans hR hR₁)), Expr.rename_of_written ρ he.2]
    · refine bind (fresh (by decide)) fun {R₂} hR₂ name name' hname => ?_
      refine bind (ihr he.2) fun {R₃} hR₃ p p' hlifted => ?_
      obtain ⟨guarded, right?⟩ := p
      obtain ⟨guarded', right?'⟩ := p'
      refine bind (require fun hR hst => ?_) fun {R₄} hR₄ _ _ _ => pure fun {R₅} hR₅ => ⟨?_, .some ?_⟩
      · rw [(hst.valid (hR (hR₃ hname))).1, (hst.valid (hR (hR₃ hname))).2]
      · intro ρ hρ
        have hρ₃ := hρ.mono (List.Subset.trans hR₄ hR₅)
        have hrename : ρ name = name' := hρ₃ _ (hR₃ hname)
        have hright : right?' = rename ρ right? := renameRel hlifted.2 ρ hρ₃
        have hguarded : guarded' = rename ρ guarded := hlifted.1 ρ hρ₃
        have hprelude : prelude' = rename ρ prelude := hp ρ (hρ₃.mono (List.Subset.trans hR₂ hR₃))
        have hvalue : v' = rename ρ v := hv ρ (hρ₃.mono (List.Subset.trans hR₂ hR₃))
        simp [hprelude, hvalue, hright, hguarded, ← hrename]
      · intro ρ hρ
        rw [Expr.rename_hidden, hρ _ (hR₅ (hR₄ (hR₃ hname)))]
  | conditional opening body ifText test elseText orelse closing ihb iht iho =>
    have hwritten := he
    rw [Expr.written, Bool.and_eq_true, Bool.and_eq_true] at he
    obtain ⟨⟨hb, ht⟩, ho⟩ := he
    rw [Lowering.lift]
    refine ite (fun _ => pure fun _ => ⟨fun _ _ => rfl, .some fun ρ _ => ?_⟩) fun _ => ?_
    · exact (Expr.rename_of_written ρ hwritten).symm
    refine lift_bind (iht ht) (fun _ _ _ hp => pure fun hR => ⟨hp.mono hR, .none⟩) ?_
    intro R₁ _ prelude prelude' v v' hp hv
    refine bind (fresh (by decide)) fun {R₂} hR₂ name name' hname => ?_
    refine bind (ihb hb) fun {R₃} hR₃ p p' hfirst => ?_
    refine bind (iho ho) fun {R₄} hR₄ q q' hsecond => ?_
    obtain ⟨first, body?⟩ := p
    obtain ⟨first', body?'⟩ := p'
    obtain ⟨second, orelse?⟩ := q
    obtain ⟨second', orelse?'⟩ := q'
    have hvalues {R₅ : Counterparts} {ρ : HiddenName → HiddenName} (hR₅ : R₄ ⊆ R₅) (hρ : R₅.Within ρ) :
        body?' = rename ρ body? ∧ orelse?' = rename ρ orelse? :=
      ⟨renameRel hfirst.2 ρ (hρ.mono (List.Subset.trans hR₄ hR₅)), renameRel hsecond.2 ρ (hρ.mono hR₅)⟩
    have hvalid {R₅ : Counterparts} {st st' : State} (hR₅ : R₄ ⊆ R₅) (hst : Aligned R₅ st st') :=
      hst.valid (hR₅ (hR₄ (hR₃ hname)))
    refine bind (require fun hR hst => ?_) fun {R₅} hR₅ _ _ _ => pure fun {R₆} hR₆ => ⟨?_, ?_⟩
    · obtain ⟨ρ, hρ⟩ := hst.exists_perm
      rw [(hvalues hR hρ).1, (hvalues hR hρ).2, isSome_rename, isSome_rename, (hvalid hR hst).1,
        (hvalid hR hst).2]
    · intro ρ hρ
      have hρ₄ := hρ.mono (List.Subset.trans hR₅ hR₆)
      have hrename : ρ name = name' := hρ₄ _ (hR₄ (hR₃ hname))
      have hprelude : prelude' = rename ρ prelude := hp ρ (hρ₄.mono (List.Subset.trans hR₂ (List.Subset.trans hR₃ hR₄)))
      have hvalue : v' = rename ρ v := hv ρ (hρ₄.mono (List.Subset.trans hR₂ (List.Subset.trans hR₃ hR₄)))
      have hfirst : first' = rename ρ first := hfirst.1 ρ (hρ₄.mono hR₄)
      have hsecond : second' = rename ρ second := hsecond.1 ρ hρ₄
      obtain ⟨hbody, horelse⟩ := hvalues (List.Subset.refl R₄) hρ₄
      simp [hprelude, hvalue, hfirst, hsecond, hbody, horelse, ← hrename]
    · have hsame {R₅ : Counterparts} {x x' : Option Expr} (h : Option.Rel (Alike R₅) x x') :
          x'.isSome = x.isSome := by cases h <;> rfl
      rw [hsame hfirst.2, hsame hsecond.2]
      split
      · exact .some fun ρ hρ => by rw [Expr.rename_hidden, hρ _ (hR₆ (hR₅ (hR₄ (hR₃ hname))))]
      · exact .none

theorem lowerEscape {e : Escape} (he : e.value.written = true) :
    Twin R Alike (lowerEscape e) (lowerEscape e) := by
  refine lift_bind (lift he) (fun _ _ _ hp => pure fun hR => hp.mono hR) fun _ _ _ _ _ hp hv => ?_
  refine (escapeTo hv).bind fun hR stmts stmts' hstmts => pure fun hR₁ ρ hρ => ?_
  rw [rename_append, ← hp ρ (hρ.mono (List.Subset.trans hR hR₁)), ← hstmts ρ (hρ.mono hR₁)]

theorem checkLoopControl (s : Simple) :
    Twin R (fun _ _ _ => True) (checkLoopControl s span) (checkLoopControl s span) := by
  refine get_bind fun {R₁ st st'} _ hst => ?_
  have hsome : st'.wrapper.isSome = st.wrapper.isSome := by
    have hw := hst.wrapper
    generalize st.wrapper = w, st'.wrapper = w' at hw
    cases hw <;> rfl
  rw [hsome, hst.loopDepth]
  have hcontinue : Twin R₁ (fun _ _ _ => True)
      (if s.form == .continue then Lowering.fail (.loopControl "continue") span else Pure.pure ())
      (if s.form == .continue then Lowering.fail (.loopControl "continue") span else Pure.pure ()) :=
    ite (fun _ => fail _) fun _ => pure fun _ => trivial
  refine ite (fun _ => ?_) fun _ => pure fun _ => trivial
  exact ite (fun _ => throw _) fun _ => hcontinue

theorem lowerSimple {s : Simple} (hs : s.value.all Expr.written = true) :
    Twin R Alike (lowerSimple s span) (lowerSimple s span) := by
  have hsame (R₁ : Counterparts) : Alike R₁ [Lowered.simple s] [Lowered.simple s] := by
    intro ρ _
    have hvalue : rename ρ s.value = s.value := by
      cases hv : s.value with
      | none => rfl
      | some e =>
        rw [hv] at hs
        exact congrArg some (Expr.rename_of_written ρ hs)
    show [Lowered.simple s] = [Lowered.simple { s with value := rename ρ s.value }]
    rw [hvalue]
  refine (checkLoopControl s).bind fun _ _ _ _ => ite (fun _ => pure fun _ => hsame _) fun _ => ?_
  cases hvalue : s.value with
  | none => exact pure fun _ => hsame _
  | some e =>
    rw [hvalue] at hs
    refine lift_bind (lift hs) (fun _ _ _ hp => pure fun hR => hp.mono hR) fun _ _ _ v v' hp hv => ?_
    refine bind (require fun hR hst => ?_) fun hR _ _ _ => pure fun hR₁ ρ hρ => ?_
    · obtain ⟨ρ, hρ⟩ := hst.exists_perm
      rw [hv ρ (hρ.mono hR), Expr.fitsAfterWord_rename]
    · rw [rename_append, ← hp ρ (hρ.mono (List.Subset.trans hR hR₁)), hv ρ (hρ.mono (List.Subset.trans hR hR₁))]
      rfl

theorem afterLoop (escapes : Bool) : Twin R Alike (afterLoop escapes) (afterLoop escapes) := by
  refine get_bind fun {R₁ st st'} hR hst => ?_
  have hw := hst.wrapper
  generalize st.wrapper = w, st'.wrapper = w' at hw
  cases hw with
  | none => exact pure fun _ _ _ => rfl
  | @some w w' hw =>
    refine ite (fun _ => pure fun hR₁ ρ hρ => ?_) fun _ => pure fun _ _ _ => rfl
    have hexit : w'.exit = ρ w.exit := congrArg WrapperNames.exit (hw ρ (hρ.mono hR₁))
    simp [hexit]

theorem inWrapper {w w' : WrapperNames} {inside : Sink → Lower (List Lowered)}
    (hs : SinkAlike R sink sink') (hr : (w.result, w'.result) ∈ R) (he : (w.exit, w'.exit) ∈ R)
    (h : ∀ {R s s'}, SinkAlike R s s' → Twin R Alike (inside s) (inside s')) :
    Twin R Alike (inWrapper w span sink inside) (inWrapper w' span sink' inside) := by
  have hw {R₁ : Counterparts} (hR : R ⊆ R₁) : Alike R₁ w w' := by
    intro ρ hρ
    show w' = ⟨ρ w.result, ρ w.exit⟩
    rw [hρ _ (hR hr), hρ _ (hR he)]
  refine (record _ _).bind fun {R₁} hR₁ _ _ _ => bind (require fun hR hst => ?_) fun {R₂} hR₂ _ _ _ => ?_
  · rw [(hst.valid (hR (hR₁ hr))).1, (hst.valid (hR (hR₁ hr))).2, (hst.valid (hR (hR₁ he))).1,
      (hst.valid (hR (hR₁ he))).2]
  have hR := List.Subset.trans hR₁ hR₂
  refine (withWrapper (hw hR) (h (.inner (hR hr) (hR he)))).bind fun {R₃} hR₃ tree tree' htree => ?_
  have hrest {R₄ : Counterparts} (hR₄ : R₃ ⊆ R₄) (after after' : List Lowered) (hafter : Alike R₄ after after') :
      Twin R₄ Alike (do
        Lowering.record (.blockLowered span.render true sink.destination.render)
        return Result.mk ([.set (.hidden w.result) (.constant .none), .set (.hidden w.exit) (.constant .false),
          .whileLoop (.not w.exit) (Lowered.suite tree)] ++ after) sink (some w))
      (do
        Lowering.record (.blockLowered span.render true sink'.destination.render)
        return Result.mk ([.set (.hidden w'.result) (.constant .none), .set (.hidden w'.exit) (.constant .false),
          .whileLoop (.not w'.exit) (Lowered.suite tree')] ++ after') sink' (some w')) := by
    refine (record _ _).bind fun {R₅} hR₅ _ _ _ => pure fun {R₆} hR₆ ρ hρ => ?_
    have hρ₄ := hρ.mono (List.Subset.trans hR₅ hR₆)
    have hρ₃ := hρ₄.mono hR₄
    have hsink : sink' = rename ρ sink := hs.alike ρ (hρ₃.mono (List.Subset.trans hR hR₃))
    obtain rfl : w' = rename ρ w := hw (List.Subset.trans hR hR₃) ρ hρ₃
    have htree : tree' = rename ρ tree := htree ρ hρ₃
    have hafter : after' = rename ρ after := hafter ρ hρ₄
    show Result.mk _ _ _ = Result.mk (rename ρ (_ ++ _)) (rename ρ sink) (some (rename ρ w))
    rw [hsink, htree, hafter, rename_append, ← Lowered.rename_suite]
    simp only [rename_cons, rename_nil, Lowered.rename_set, Lowered.rename_whileLoop, rename_hiddenName,
      rename_constant, rename_not]
    rfl
  dsimp only
  rw [hs.isDiscard_eq]
  refine ite (fun _ => bind (pure fun _ _ _ => rfl) hrest) fun _ => bind ?_ hrest
  refine delivered (hs.mono (List.Subset.trans hR hR₃)) (.some fun ρ hρ => ?_)
  rw [Expr.rename_hidden, hρ _ (hR₃ (hR hr))]

/-- A boundary block gives its wrapper names on both sides or on neither. -/
theorem boundary {escapes : Bool} {inside : Sink → Lower (List Lowered)} (hs : SinkAlike R sink sink')
    (h : ∀ {R s s'}, SinkAlike R s s' → Twin R Alike (inside s) (inside s')) :
    Twin R Alike (boundary escapes span sink inside) (boundary escapes span sink' inside) := by
  cases escapes with
  | false =>
    rw [Lowering.boundary, Lowering.boundary, Bool.not_false, if_pos rfl, if_pos rfl]
    refine (record _ _).bind fun hR _ _ _ => (h (hs.mono hR)).bind fun hR₁ body body' hbody => ?_
    refine pure fun hR₂ ρ hρ => ?_
    show Result.mk body' sink' none = Result.mk (rename ρ body) (rename ρ sink) none
    rw [hbody ρ (hρ.mono hR₂), hs.alike ρ (hρ.mono (List.Subset.trans hR (List.Subset.trans hR₁ hR₂)))]
  | true =>
    intro R₁ hR st st' hst
    rw [outcome_boundary, outcome_boundary]
    have hdraw := hst.draw ["result", "exit"] (by decide) (by decide)
    have hsub : R₁ ⊆ Aligned.drawnPairs st st' ["result", "exit"] ++ R₁ := List.subset_append_right _ _
    have hwrapping : Advance R₁ (Aligned.drawnPairs st st' ["result", "exit"] ++ R₁) st st.wrapping st'
        st'.wrapping := by
      refine ⟨hsub, hdraw.moved rfl rfl rfl rfl hdraw.wrapper hdraw.loopDepth, ⟨[], [], by simp [State.wrapping],
        by simp [State.wrapping], fun _ _ => rfl⟩, ⟨_, _, rfl, rfl, fun ρ hρ => ?_⟩⟩
      have hr : ρ st.names.wrapper.1.result = st'.names.wrapper.1.result := hρ _ (.head _)
      have he : ρ st.names.wrapper.1.exit = st'.names.wrapper.1.exit := hρ _ (.tail _ (.head _))
      show [st'.names.wrapper.1] = [⟨ρ st.names.wrapper.1.result, ρ st.names.wrapper.1.exit⟩]
      rw [hr, he]
    have hin : Twin (Aligned.drawnPairs st st' ["result", "exit"] ++ R₁) Alike
        (Lowering.inWrapper st.names.wrapper.1 span sink inside)
        (Lowering.inWrapper st'.names.wrapper.1 span sink' inside) :=
      inWrapper (hs.mono (List.Subset.trans hR hsub)) (.head _) (.tail _ (.head _)) h
    obtain ⟨R₂, hadvance, hboth⟩ := hin (List.Subset.refl _) hwrapping.aligned
    exact ⟨R₂, hwrapping.trans hadvance, hboth⟩

theorem closeMatch (guards : Bool) {source source' : Expr} {cases cases' : List LoweredCase}
    (hs : Alike R source source') (hc : Alike R cases cases') :
    Twin R Alike (closeMatch guards source cases span) (closeMatch guards source' cases' span) := by
  refine of_exists fun ρ hρ => ?_
  have hcovered : isCovered cases' = isCovered cases := by rw [hc ρ hρ, isCovered_rename]
  have hplain {R₁ : Counterparts} (hR : R ⊆ R₁) :
      Alike R₁ (Lowered.matchOn source cases none) (.matchOn source' cases' none) := by
    intro ρ hρ
    rw [Lowered.rename_matchOn, ← hs ρ (hρ.mono hR), ← hc ρ (hρ.mono hR), rename_none]
  unfold Lowering.closeMatch
  rw [hcovered]
  refine ite (fun _ => (record _ _).bind fun hR _ _ _ => pure fun hR₁ => hplain (List.Subset.trans hR hR₁)) fun _ => ?_
  refine ite (fun _ => pure hplain) fun _ => ?_
  refine (fresh (by decide)).bind fun {R₁} hR₁ subject subject' hsubject => ?_
  refine guardCallee.bind fun {R₂} hR₂ callee callee' hcallee => ?_
  refine bind (require fun hR hst => ?_) fun {R₃} hR₃ _ _ _ => ?_
  · rw [(hst.valid (hR hcallee)).1, (hst.valid (hR hcallee)).2, (hst.valid (hR (hR₂ hsubject))).1,
      (hst.valid (hR (hR₂ hsubject))).2]
  have hsubject := hR₃ (hR₂ hsubject)
  have hcallee := hR₃ hcallee
  refine (modify fun {R st st'} hR hst => ?_).bind fun {R₄} hR₄ _ _ _ => (record _ _).bind fun {R₅} hR₅ _ _ _ => ?_
  · refine ⟨List.Subset.refl R, hst.moved rfl rfl rfl rfl hst.wrapper hst.loopDepth,
      ⟨_, _, rfl, rfl, fun ρ hρ => ?_⟩, ⟨[], [], by simp, by simp, fun _ _ => rfl⟩⟩
    show [Obligation.mk subject' span] = [⟨ρ subject, span⟩]
    rw [hρ _ (hR hsubject)]
  · refine pure fun {R₆} hR₆ ρ hρ => ?_
    have hρ₃ := hρ.mono (List.Subset.trans hR₄ (List.Subset.trans hR₅ hR₆))
    have hρ₀ := hρ₃.mono (List.Subset.trans hR₁ (List.Subset.trans hR₂ hR₃))
    rw [Lowered.rename_matchOn, ← hs ρ hρ₀, ← hc ρ hρ₀]
    show _ = Lowered.matchOn source' cases' (some ⟨ρ callee, ρ subject⟩)
    rw [hρ₃ _ hcallee, hρ₃ _ hsubject]

theorem andThen {here here' rest rest' : Lower (List Lowered)} {leaves : Bool} (h : Twin R Alike here here')
    (hr : Twin R Alike rest rest') : Twin R Alike (andThen here leaves rest) (andThen here' leaves rest') := by
  refine h.bind fun hR stmts stmts' hstmts => ite (fun _ => pure fun hR₁ => hstmts.mono hR₁) fun _ => ?_
  refine (hr.mono hR).bind fun hR₁ more more' hmore => pure fun hR₂ ρ hρ => ?_
  rw [rename_append, ← hstmts ρ (hρ.mono (List.Subset.trans hR₁ hR₂)), ← hmore ρ (hρ.mono hR₂)]

theorem getD {m m' : Lower (Option (List Lowered))} (h : Twin R Alike m m') :
    Twin R Alike (do return (← m).getD []) (do return (← m').getD []) := by
  refine h.bind fun _ r r' hr => pure fun hR ρ hρ => ?_
  rw [hr ρ (hρ.mono hR)]
  cases r <;> rfl

variable (guards : Bool)

mutual

theorem lowerBlock {R : Counterparts} {sink sink' : Sink} (hs : SinkAlike R sink sink') :
    ∀ {b : Block}, b.isWritten = true →
      Twin R Alike (lowerBlock guards sink b) (lowerBlock guards sink' b)
  | .mk ss none _ _, hb => by
    simp only [Block.isWritten, Bool.and_true] at hb
    exact lowerStatements (delivered hs .none) hb
  | .mk ss (some t) span _, hb => by
    simp only [Block.isWritten, Bool.and_eq_true] at hb
    exact lowerStatements (lowerTail hs span hb.2) hb.1

theorem lowerStatements {R : Counterparts} {finish finish' : Lower (List Lowered)}
    (hf : Twin R Alike finish finish') : ∀ {ss : List Statement}, statementsWritten ss = true →
      Twin R Alike (lowerStatements guards finish ss) (lowerStatements guards finish' ss)
  | [], _ => hf
  | s :: rest, hss => by
    simp only [statementsWritten, Bool.and_eq_true] at hss
    have hr := lowerStatements hf hss.2
    obtain ⟨hs, -⟩ := hss
    cases s with
    | simple s span => exact (lowerSimple hs).andThen hr
    | escape e => exact (lowerEscape hs).andThen hr
    | letMatch primary source arms span =>
      simp only [Statement.isWritten, Bool.and_eq_true] at hs
      refine lift_bind (lift hs.1) (fun _ _ _ hp => pure fun hR => hp.mono hR) ?_
      intro R₁ hR₁ prelude prelude' v v' hp hv
      refine (hr.mono hR₁).bind fun {R₂} hR₂ body body' hbody => ?_
      refine (lowerArms hs.2).bind fun {R₃} hR₃ cases cases' hcases => ?_
      refine bind (closeMatch _ (hv.mono (List.Subset.trans hR₂ hR₃)) fun ρ hρ => ?_) fun hR₄ m m' hm => pure fun hR₅ ρ hρ => ?_
      · rw [rename_cons, ← hcases ρ hρ, Lowered.rename_case, Lowered.rename_suite, ← hbody ρ (hρ.mono hR₃),
          rename_none]
      · rw [rename_append, rename_cons, rename_nil, ← hm ρ (hρ.mono hR₅),
          ← hp ρ (hρ.mono (List.Subset.trans hR₂ (List.Subset.trans hR₃ (List.Subset.trans hR₄ hR₅))))]
    | conditional c => exact (lowerConditional (.written rfl) hs).andThen hr
    | whileLoop test body span =>
      simp only [Statement.isWritten, Bool.and_eq_true] at hs
      refine andThen (bind (withLoop (lowerBlock (.written rfl) hs.2)) fun hR inside inside' hinside => ?_) hr
      refine (afterLoop _).bind fun hR₁ after after' hafter => pure fun hR₂ ρ hρ => ?_
      rw [rename_cons, ← hafter ρ (hρ.mono hR₂), Lowered.rename_whileLoop, Lowered.rename_suite,
        ← hinside ρ (hρ.mono (List.Subset.trans hR₁ hR₂)), rename_exprTest, Expr.rename_of_written ρ hs.1]
    | forLoop target iterable body span =>
      simp only [Statement.isWritten, Bool.and_eq_true] at hs
      refine andThen (lift_bind (lift hs.1) (fun _ _ _ hp => pure fun hR => hp.mono hR) ?_) hr
      intro R₁ hR₁ prelude prelude' v v' hp hv
      refine bind (withLoop (lowerBlock (.written rfl) hs.2)) fun hR inside inside' hinside => ?_
      refine (afterLoop _).bind fun hR₁ after after' hafter => pure fun hR₂ ρ hρ => ?_
      have hρ₁ := hρ.mono (List.Subset.trans hR₁ hR₂)
      rw [rename_append, rename_cons, ← hafter ρ (hρ.mono hR₂), Lowered.rename_forLoop, Lowered.rename_suite,
        ← hinside ρ hρ₁, ← hp ρ (hρ₁.mono hR), ← hv ρ (hρ₁.mono hR)]
    | nested sink b span =>
      simp only [Statement.isWritten, Bool.and_eq_true, List.isEmpty_iff] at hs
      refine andThen (bind (boundary (.written hs.1) fun h => lowerBlock h hs.2) ?_) hr
      exact fun _ r r' hr => pure fun hR ρ hρ => congrArg Result.body (hr ρ (hρ.mono hR))

theorem lowerTail {R : Counterparts} {sink sink' : Sink} (hs : SinkAlike R sink sink') (span : Span) :
    ∀ {t : Tail}, t.isWritten = true →
      Twin R Alike (lowerTail guards sink span t) (lowerTail guards sink' span t)
  | .value e, ht => by
    refine lift_bind (lift ht) (fun _ _ _ hp => pure fun hR => hp.mono hR) fun hR _ _ _ _ hp hv => ?_
    refine (delivered (hs.mono hR) (.some hv)).bind fun hR stmts stmts' hstmts => pure fun hR₁ ρ hρ => ?_
    rw [rename_append, ← hp ρ (hρ.mono (List.Subset.trans hR hR₁)), ← hstmts ρ (hρ.mono hR₁)]
  | .escape e, ht => lowerEscape ht
  | .conditional c, ht => lowerConditional hs ht
  | .block b, ht => by
    refine bind (boundary hs fun h => lowerBlock h ht) ?_
    exact fun _ r r' hr => pure fun hR ρ hρ => congrArg Result.body (hr ρ (hρ.mono hR))

theorem lowerArms {R : Counterparts} : ∀ {arms : List Arm}, armsWritten arms = true →
    Twin R Alike (lowerArms guards arms) (lowerArms guards arms)
  | [], _ => pure fun _ _ _ => rfl
  | .mk pattern guard body span _ :: rest, ha => by
    simp only [armsWritten, Bool.and_eq_true] at ha
    have h : Twin R Alike
        (do
          let b ← Lowering.lowerBlock guards .discard body
          return .mk pattern guard (Lowered.suite b) :: (← Lowering.lowerArms guards rest))
        (do
          let b ← Lowering.lowerBlock guards .discard body
          return .mk pattern guard (Lowered.suite b) :: (← Lowering.lowerArms guards rest)) := by
      refine (lowerBlock (.written rfl) ha.1.2).bind fun hR b b' hb => ?_
      refine (lowerArms ha.2).bind fun hR₁ cases cases' hcases => pure fun hR₂ ρ hρ => ?_
      have hguard : rename ρ guard = guard := by
        cases guard with
        | none => rfl
        | some g => exact congrArg some (Expr.rename_of_written ρ ha.1.1)
      rw [rename_cons, ← hcases ρ (hρ.mono hR₂), Lowered.rename_case, hguard, Lowered.rename_suite,
        ← hb ρ (hρ.mono (List.Subset.trans hR₁ hR₂))]
    exact ite (fun _ => throw _) fun _ => h

theorem lowerConditional {R : Counterparts} {sink sink' : Sink} (hs : SinkAlike R sink sink') :
    ∀ {c : Conditional}, c.isWritten = true →
      Twin R Alike (lowerConditional guards sink c) (lowerConditional guards sink' c)
  | .mk bs none span, hc => by
    simp only [Conditional.isWritten, Bool.and_true] at hc
    refine (delivered hs .none).bind fun hR stmts stmts' hstmts => ?_
    refine getD (lowerBranches (hs.mono hR) span (fun ρ hρ => ?_) hc)
    rw [hstmts ρ hρ, isEmpty_rename]
    split <;> rfl
  | .mk bs (some b) span, hc => by
    simp only [Conditional.isWritten, Bool.and_eq_true] at hc
    refine (lowerBlock hs hc.2).bind fun hR stmts stmts' hstmts => ?_
    refine getD (lowerBranches (hs.mono hR) span (fun ρ hρ => ?_) hc.1)
    rw [rename_some, Lowered.rename_suite, ← hstmts ρ hρ]

theorem lowerBranches {R : Counterparts} {sink sink' : Sink} (hs : SinkAlike R sink sink') (span : Span)
    {orelse orelse' : Option (List Lowered)} (ho : Alike R orelse orelse') :
    ∀ {bs : List Branch}, branchesWritten bs = true →
      Twin R Alike (lowerBranches guards sink span orelse bs) (lowerBranches guards sink' span orelse' bs)
  | [], _ => pure fun _ _ _ => rfl
  | .mk test body :: rest, hb => by
    simp only [branchesWritten, Bool.and_eq_true] at hb
    refine (lowerBranches hs span ho hb.2).bind fun {R₁} hR₁ later later' hlater => ?_
    refine lift_bind (lift hb.1.1) (fun _ _ _ hp => pure fun hR ρ hρ => ?_) ?_
    · rw [rename_some, ← hp ρ (hρ.mono hR)]
    intro R₂ hR₂ prelude prelude' v v' hp hv
    refine (lowerBlock (hs.mono (List.Subset.trans hR₁ hR₂)) hb.1.2).bind fun {R₃} hR₃ stmts stmts' hstmts => ?_
    refine pure fun {R₄} hR₄ ρ hρ => ?_
    have hρ₃ := hρ.mono hR₄
    have hlater : later' = rename ρ later := hlater ρ (hρ₃.mono (List.Subset.trans hR₂ hR₃))
    have horelse : orelse' = rename ρ orelse := ho ρ (hρ₃.mono (List.Subset.trans hR₁ (List.Subset.trans hR₂ hR₃)))
    have hchain : (later'.map continueWith).getD ([], orelse') =
        (rename ρ ((later.map continueWith).getD ([], orelse)).1,
          rename ρ ((later.map continueWith).getD ([], orelse)).2) := by
      rw [hlater, horelse]
      cases later with
      | none => rfl
      | some chain => exact continueWith_rename ρ chain
    show some (prelude' ++ [.branch (.mk (.expr v') (Lowered.suite stmts') ::
      ((later'.map continueWith).getD ([], orelse')).1) ((later'.map continueWith).getD ([], orelse')).2]) =
      rename ρ (some (prelude ++ [.branch (.mk (.expr v) (Lowered.suite stmts) ::
        ((later.map continueWith).getD ([], orelse)).1) ((later.map continueWith).getD ([], orelse)).2]))
    rw [hchain, hstmts ρ hρ₃, hp ρ (hρ₃.mono hR₃), hv ρ (hρ₃.mono hR₃)]
    simp

end

theorem lower {b : Block} (hs : SinkAlike R sink sink') (hb : b.isWritten = true) :
    Twin R Alike (lower guards sink b) (lower guards sink' b) :=
  boundary hs fun h => lowerBlock guards h hb

/-- A site that fails goes off the record on both sides. -/
theorem lowerSite {b : Block} (hs : SinkAlike R sink sink') (hb : b.isWritten = true) :
    Twin R Alike (lowerSite guards sink b) (lowerSite guards sink' b) := by
  intro R₁ hR st st' hst
  obtain ⟨R₂, hadvance, hboth⟩ := lower guards hs hb hR hst
  rw [outcome_lowerSite, outcome_lowerSite]
  generalize outcome (Lowering.lower guards sink b) st = r at hadvance hboth ⊢
  generalize outcome (Lowering.lower guards sink' b) st' = r' at hadvance hboth ⊢
  obtain ⟨x, t⟩ := r
  obtain ⟨x', t'⟩ := r'
  cases hboth with
  | ok h => exact ⟨R₂, hadvance, .ok h⟩
  | error e =>
    cases e with
    | spelling => exact ⟨R₂, hadvance, .error _⟩
    | error e =>
      have haligned := hadvance.aligned
      exact ⟨R₂, .silent hadvance.more (haligned.moved rfl rfl rfl rfl haligned.wrapper haligned.loopDepth)
        rfl rfl rfl rfl, .error _⟩

end Twin

/-! ### Runs -/

/-- The sink and the block are of the user: no generated name occurs in them. -/
def IsUsers (step : Sink × Block) : Prop := step.1.names = [] ∧ step.2.isWritten = true

theorem lowerEach_advance (guards : Bool) {steps : List (Sink × Block)} (hsteps : ∀ s ∈ steps, IsUsers s)
    {st st' : State} (h : Aligned R st st') :
    ∃ R', Advance R R' st (lowerEach guards steps st).2 st' (lowerEach guards steps st').2 ∧
      List.Forall₂ (Both (Alike R')) (lowerEach guards steps st).1 (lowerEach guards steps st').1 := by
  induction steps generalizing R st st' with
  | nil => exact ⟨R, .refl h, .nil⟩
  | cons step rest ih =>
    obtain ⟨sink, b⟩ := step
    obtain ⟨⟨hs, hb⟩, hrest⟩ := List.forall_mem_cons.1 hsteps
    obtain ⟨R₁, hadvance, hboth⟩ := Twin.lowerSite guards (.written hs) hb (List.Subset.refl R) h
    obtain ⟨R₂, hadvance', hall⟩ := ih hrest hadvance.aligned
    rw [lowerEach_cons, lowerEach_cons]
    exact ⟨R₂, hadvance.trans hadvance', .cons (hboth.mono fun _ _ h => h.mono hadvance'.more) hall⟩

/-- The states before any block correspond. -/
theorem aligned_initial {a a' : Allocator} (hstem : Text.isIdentifier a.stem = true)
    (hstem' : Text.isIdentifier a'.stem = true) (hnext : 0 ≤ a.next) (hnext' : 0 ≤ a'.next) :
    Aligned [] (.initial a) (.initial a') where
  left := ⟨hstem, hnext, .nil, nofun, nofun, nofun⟩
  right := ⟨hstem', hnext', .nil, nofun, nofun, nofun⟩
  roles := nofun
  wrapper := .none
  loopDepth := rfl
  callee := .inr ⟨nofun, nofun⟩

/-- States between sites correspond even after different sites: no name of one need stand for a name of
the other yet. -/
theorem aligned_between (guards : Bool) {a a' : Allocator} {before before' : List (Sink × Block)}
    (h : Aligned [] (.initial a) (.initial a')) (hbefore : ∀ s ∈ before, IsUsers s)
    (hbefore' : ∀ s ∈ before', IsUsers s) :
    Aligned [] (lowerEach guards before (.initial a)).2 (lowerEach guards before' (.initial a')).2 := by
  have hdrawn {a : Allocator} {steps : List (Sink × Block)} (hsteps : ∀ s ∈ steps, IsUsers s)
      (h : Drawn [] (.initial a)) : Drawn [] (lowerEach guards steps (.initial a)).2 := by
    obtain ⟨R, hadvance, -⟩ := lowerEach_advance guards hsteps (aligned_initial h.stem h.stem h.next h.next)
    have hleft := hadvance.aligned.left
    exact ⟨hleft.stem, hleft.next, .nil, nofun, nofun, hleft.callee⟩
  constructor
  · exact hdrawn hbefore h.left
  · exact hdrawn hbefore' h.right
  · exact nofun
  · rw [(lowerEach_place before _).1, (lowerEach_place before' _).1]
    exact .none
  · rw [(lowerEach_place before _).2, (lowerEach_place before' _).2]
    rfl
  · exact .inr ⟨fun _ _ => List.not_mem_nil, fun _ _ => List.not_mem_nil⟩

/-- The generated names in the code that a site was lowered to. -/
def resultNames : Except LoweringFailure Result → List HiddenName
  | .ok r => Lowered.namesOf r.body
  | .error _ => []

/-- The generated names in what a run has come to: its code, its obligations and its wrappers. -/
def shownNames (run : List (Except LoweringFailure Result) × State) : List HiddenName :=
  run.1.flatMap resultNames ++ run.2.obligations.map Obligation.subject ++
    run.2.wrappers.flatMap WrapperNames.toList

/-- Among the names `ns`, the bijection keeps roles, and different names are written differently before
and after it. -/
structure Faithful (ρ : Equiv.Perm HiddenName) (ns : List HiddenName) : Prop where
  role : ∀ n ∈ ns, (ρ n).role = n.role
  before : ∀ n ∈ ns, ∀ m ∈ ns, n.render = m.render → n = m
  after : ∀ n ∈ ns, ∀ m ∈ ns, (ρ n).render = (ρ m).render → n = m

/-- What corresponds shows no names but those with a counterpart: any other could be renamed in two ways. -/
theorem Alike.names_subset {α : Type} [Renamable α] {R : Counterparts} {x x' : α} {names : α → List HiddenName}
    (hnames : ∀ ρ x, names (rename ρ x) = (names x).map ρ) (h : Alike R x x')
    (hR : ∃ ρ : Equiv.Perm HiddenName, R.Within ρ) : names x ⊆ R.map Prod.fst := by
  intro n hn
  by_contra hnot
  obtain ⟨ρ, hρ⟩ := hR
  have hother : R.Within (Function.update ρ n { ρ n with index := (ρ n).index + 1 }) := by
    intro p hp
    have hne : p.1 ≠ n := fun heq => hnot (heq ▸ List.mem_map_of_mem hp)
    rw [Function.update_of_ne hne]
    exact hρ p hp
  have hsame := congrArg names ((h ρ hρ).symm.trans (h _ hother))
  rw [hnames, hnames, List.map_inj_left] at hsame
  have hindex := congrArg HiddenName.index (hsame n hn)
  rw [Function.update_self] at hindex
  change (ρ n).index = (ρ n).index + 1 at hindex
  omega

theorem Aligned.faithful {st st' : State} {ρ : Equiv.Perm HiddenName} {ns : List HiddenName}
    (h : Aligned R st st') (hρ : R.Within ρ) (hns : ns ⊆ R.map Prod.fst) : Faithful ρ ns := by
  constructor
  · intro n hn
    obtain ⟨p, hp, rfl⟩ := List.mem_map.1 (hns hn)
    rw [hρ p hp]
    exact h.roles p hp
  · intro n hn m hm heq
    exact List.inj_on_of_nodup_map h.left.nodup (hns hn) (hns hm) heq
  · intro n hn m hm heq
    obtain ⟨p, hp, rfl⟩ := List.mem_map.1 (hns hn)
    obtain ⟨q, hq, rfl⟩ := List.mem_map.1 (hns hm)
    rw [hρ p hp, hρ q hq] at heq
    have heq := List.inj_on_of_nodup_map h.right.nodup (List.mem_map_of_mem hp) (List.mem_map_of_mem hq) heq
    rw [← hρ p hp, ← hρ q hq] at heq
    exact ρ.injective heq

theorem Both.alike {r r' : Except LoweringFailure Result} (h : Both (Alike R) r r') : Alike R r r' := by
  intro ρ hρ
  cases h with
  | ok h => exact congrArg Except.ok (h ρ hρ)
  | error e => rfl

theorem Alike.of_forall₂ {rs rs' : List (Except LoweringFailure Result)}
    (h : List.Forall₂ (Both (Alike R)) rs rs') : Alike R rs rs' := by
  intro ρ hρ
  induction h with
  | nil => rfl
  | cons h _ ih => exact congrArg₂ List.cons (h.alike ρ hρ) ih

theorem resultNames_rename (ρ : HiddenName → HiddenName) (r : Except LoweringFailure Result) :
    resultNames (rename ρ r) = (resultNames r).map ρ := by
  cases r with
  | ok r => exact Lowered.namesOf_rename ρ r.body
  | error e => rfl

theorem flatMap_names_rename {α : Type} [Renamable α] {names : α → List HiddenName}
    (hnames : ∀ ρ x, names (rename ρ x) = (names x).map ρ) (ρ : HiddenName → HiddenName) (xs : List α) :
    (rename ρ xs).flatMap names = (xs.flatMap names).map ρ := by
  induction xs with
  | nil => rfl
  | cons x xs ih =>
    rw [rename_cons, List.flatMap_cons, List.flatMap_cons, List.map_append, hnames, ih]

theorem subjects_rename (ρ : HiddenName → HiddenName) (os : List Obligation) :
    (rename ρ os).map Obligation.subject = (os.map Obligation.subject).map ρ := by
  induction os with
  | nil => rfl
  | cons o os ih => rw [rename_cons, List.map_cons, List.map_cons, List.map_cons, ih]; rfl

/-- Two runs over the same sites, whatever their stems, first numbers and names in use, fail at the same
sites with the same failures, and one bijection of generated names takes the code, the obligations and the
wrappers of one to those of the other. A single site comes out the same up to such a bijection whatever
sites stand around it. -/
theorem lowering_ignores_numbering (guards : Bool) {stem stem' : String} {start start' : Int}
    {a a' : Allocator} (ha : Allocator.make stem start = .ok a) (ha' : Allocator.make stem' start' = .ok a')
    (hstart : 0 ≤ start) (hstart' : 0 ≤ start') (taken taken' : List String) :
    (∀ steps, (∀ s ∈ steps, IsUsers s) →
      ∃ ρ : Equiv.Perm HiddenName,
        let run := lowerEach guards steps (.initial (a.reserve taken))
        let run' := lowerEach guards steps (.initial (a'.reserve taken'))
        run'.1 = rename ρ run.1 ∧ run'.2.obligations = rename ρ run.2.obligations ∧
          run'.2.wrappers = rename ρ run.2.wrappers ∧ Faithful ρ (shownNames run)) ∧
    ∀ before before' site after after', (∀ s ∈ before ++ site :: before', IsUsers s) →
      ∃ (ρ : Equiv.Perm HiddenName) (r r' : Except LoweringFailure Result),
        (lowerEach guards (before ++ site :: after) (.initial (a.reserve taken))).1[before.length]? = some r ∧
        (lowerEach guards (before' ++ site :: after') (.initial (a'.reserve taken'))).1[before'.length]? = some r' ∧
          r' = rename ρ r ∧ Faithful ρ (resultNames r) := by
  have hstem {stem : String} {start : Int} {a : Allocator} (ha : Allocator.make stem start = .ok a) :
      Text.isIdentifier a.stem = true ∧ a.next = start := by
    unfold Allocator.make at ha
    split at ha
    · cases ha
      exact ⟨(Bool.and_eq_true_iff.1 ‹_›).1, rfl⟩
    · cases ha
  have hinitial : Aligned [] (.initial (a.reserve taken)) (.initial (a'.reserve taken')) :=
    aligned_initial (hstem ha).1 (hstem ha').1 ((hstem ha).2 ▸ hstart) ((hstem ha').2 ▸ hstart')
  constructor
  · intro steps hsteps
    obtain ⟨R, hadvance, hall⟩ := lowerEach_advance guards hsteps hinitial
    obtain ⟨os, os', ho, ho', hos⟩ := hadvance.obligations
    obtain ⟨ws, ws', hw, hw', hws⟩ := hadvance.wrappers
    have hR := hadvance.aligned.exists_perm
    obtain ⟨ρ, hρ⟩ := id hR
    have hresults := Alike.of_forall₂ hall
    refine ⟨ρ, hresults ρ hρ, ?_, ?_, hadvance.aligned.faithful hρ ?_⟩
    · rw [ho, ho']
      exact hos ρ hρ
    · rw [hw, hw']
      exact hws ρ hρ
    · unfold shownNames
      rw [ho, hw]
      refine List.append_subset.2 ⟨List.append_subset.2 ⟨?_, ?_⟩, ?_⟩
      · exact hresults.names_subset (flatMap_names_rename resultNames_rename) hR
      · exact hos.names_subset subjects_rename hR
      · exact hws.names_subset (flatMap_names_rename fun _ _ => rfl) hR
  · intro before before' site after after' hsites
    have hbefore : ∀ s ∈ before, IsUsers s := fun s hs => hsites s (List.mem_append_left _ hs)
    have hbefore' : ∀ s ∈ before', IsUsers s := fun s hs =>
      hsites s (List.mem_append_right _ (List.mem_cons_of_mem _ hs))
    obtain ⟨sink, b⟩ := site
    obtain ⟨hsink, hb⟩ := hsites (sink, b) (List.mem_append_right _ List.mem_cons_self)
    obtain ⟨R, hadvance, hboth⟩ := Twin.lowerSite guards (.written hsink) hb (List.Subset.refl [])
      (aligned_between guards hinitial hbefore hbefore')
    have hR := hadvance.aligned.exists_perm
    obtain ⟨ρ, hρ⟩ := id hR
    refine ⟨ρ, _, _, lowerEach_at .., lowerEach_at .., hboth.alike ρ hρ, ?_⟩
    exact hadvance.aligned.faithful hρ (hboth.alike.names_subset resultNames_rename hR)

/-- A block that fails after it has drawn names stands before one with a wrapper and a catch-all. One run
counts from `_lm_…_0`, the other from `x_…_7` with `x_result_7` taken; the second block comes out alike also
where nothing stands before it. -/
theorem lowering_ignores_numbering_after_failure :
    ∃ bad good : Block,
      Block.parse "do" "\x7b x = do \x7b ^y \x7d\n let 1 match x else 2 => z\n x \x7d" = .ok bad ∧
      Block.parse "do" "\x7b y = do \x7b let 1 match x else 2 => ^3\n ^x \x7d\n y \x7d" = .ok good ∧
      let sites := [(Sink.returning, bad), (Sink.returning, good)]
      let st := State.initial ⟨"_lm", 0, []⟩
      let st' := State.initial (Allocator.reserve ⟨"x", 7, []⟩ ["x_result_7"])
      ((lowerEach true sites st).1.map fun r => (resultNames r).length) = [0, 10] ∧
      (∃ ρ : Equiv.Perm HiddenName,
        (lowerEach true sites st').1 = rename ρ (lowerEach true sites st).1 ∧
        (lowerEach true sites st').2.obligations = rename ρ (lowerEach true sites st).2.obligations ∧
        (lowerEach true sites st').2.wrappers = rename ρ (lowerEach true sites st).2.wrappers ∧
          Faithful ρ (shownNames (lowerEach true sites st))) ∧
      ∃ (ρ : Equiv.Perm HiddenName) (r r' : Except LoweringFailure Result),
        (lowerEach true sites st).1[1]? = some r ∧
        (lowerEach true [(Sink.returning, good)] st').1[0]? = some r' ∧
          r' = rename ρ r ∧ Faithful ρ (resultNames r) := by
  obtain ⟨bad, hbad, hreads⟩ := Block.exists_parse_of_reads
    (show Block.reads "do" "\x7b x = do \x7b ^y \x7d\n let 1 match x else 2 => z\n x \x7d" (fun bad =>
      Block.reads "do" "\x7b y = do \x7b let 1 match x else 2 => ^3\n ^x \x7d\n y \x7d" fun good =>
        ((lowerEach true [(.returning, bad), (.returning, good)] (.initial ⟨"_lm", 0, []⟩)).1.map
          fun r => (resultNames r).length) == [0, 10]) = true by decide +kernel)
  obtain ⟨good, hgood, htest⟩ := Block.exists_parse_of_reads hreads
  rw [beq_iff_eq] at htest
  have husers {b : Block} {text : String} (hb : Block.parse "do" text = .ok b) : IsUsers (.returning, b) :=
    ⟨rfl, Block.isWritten_of_wellFormed (Block.Accepted.wellFormed (.inl ⟨_, _, hb⟩))⟩
  have hsites : ∀ s ∈ [(Sink.returning, bad), (Sink.returning, good)], IsUsers s :=
    List.forall_mem_cons.2 ⟨husers hbad, List.forall_mem_singleton.2 (husers hgood)⟩
  have ha : Allocator.make "_lm" 0 = .ok ⟨"_lm", 0, []⟩ := by decide
  have ha' : Allocator.make "x" 7 = .ok ⟨"x", 7, []⟩ := by decide
  obtain ⟨hruns, hsite⟩ :=
    lowering_ignores_numbering true ha ha' (by decide) (by decide) [] ["x_result_7"]
  exact ⟨bad, good, hbad, hgood, htest, hruns _ hsites, hsite [(.returning, bad)] [] _ [] [] hsites⟩

end DoBlocks.Lowering
