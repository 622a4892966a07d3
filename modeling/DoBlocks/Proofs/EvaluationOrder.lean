import DoBlocks.Proofs.Accepted
import DoBlocks.Proofs.Lifting
import DoBlocks.Proofs.Spacing

/-!
# Lifting keeps the order of evaluation

The statements that the escapes of an expression are lifted into, and after them what is left of the
expression, evaluate the parts of the expression without escapes in the order of the host and as often, and
they end as the expression does: with its value, with its exception, or with the value of its escape in the
result slot, the flag up and a `break`.

Lifting fails only where it would leave a generated name directly at the connective after it.
-/

namespace DoBlocks

open Program

namespace Expr

/-- Lifting comes to a left operand of which a name is left that touches the connective after it. -/
def touches : Expr → Bool
  | plain _ _ => false
  | hidden _ => false
  | escape _ _ operand => operand.touches
  | logical _ _ left before _ right _ =>
    left.touches || !left.alwaysEscapes &&
      (right.touches || before.isEmpty && left.leavesName && !right.hasEscape)
  | conditional _ body _ test _ orelse _ =>
    test.touches || !test.alwaysEscapes && (body.touches || orelse.touches)

theorem hasEscape_of_leavesName {e : Expr} (h : e.leavesName = true) : e.hasEscape = true := by
  cases e with
  | logical c opening left before after right closing =>
    rw [leavesName, Bool.and_eq_true] at h
    rw [hasEscape_logical, h.1, Bool.or_true]
  | conditional opening body ifText test elseText orelse closing => exact h
  | plain text buried => cases h
  | hidden name => cases h
  | escape text mark operand => rfl

theorem hasEscape_of_touches {e : Expr} (h : e.touches = true) : e.hasEscape = true := by
  induction e with
  | plain text buried => cases h
  | hidden name => cases h
  | escape text mark operand ih => rfl
  | logical c opening left before after right closing ihl ihr =>
    simp only [touches, Bool.or_eq_true, Bool.and_eq_true] at h
    rw [hasEscape_logical, Bool.or_eq_true]
    rcases h with h | ⟨-, h | ⟨⟨-, h⟩, -⟩⟩
    · exact .inl (ihl h)
    · exact .inr (ihr h)
    · exact .inl (hasEscape_of_leavesName h)
  | conditional opening body ifText test elseText orelse closing ihb iht iho =>
    simp only [touches, Bool.or_eq_true, Bool.and_eq_true] at h
    rw [hasEscape_conditional, Bool.or_eq_true, Bool.or_eq_true]
    rcases h with h | ⟨-, h | h⟩
    · exact .inl (.inr (iht h))
    · exact .inl (.inl (ihb h))
    · exact .inr (iho h)

theorem touches_eq_false {e : Expr} (h : e.hasEscape = false) : e.touches = false :=
  Bool.eq_false_iff.2 fun ht => by rw [hasEscape_of_touches ht] at h; cases h

end Expr

/-- The name that is left of an expression, if one is. -/
theorem Yields.isHidden_of_lift {span : Span} {e v : Expr} {st st' : Lowering.State} {prelude : List Lowered}
    (hw : e.written = true) (h : Yields (Lowering.lift span e) st (prelude, some v) st') :
    v.isHidden = e.leavesName := by
  by_cases he : e.hasEscape = true
  · cases e with
    | plain text buried => exact absurd he (by rw [h.lift_plain]; decide)
    | hidden name => cases hw
    | escape text mark operand => obtain ⟨_, -, hp⟩ | ⟨_, _, _, -, -, hp⟩ := h.lift_escape <;> cases hp
    | logical c opening left before after right closing =>
      have ha : left.alwaysEscapes = false := Bool.eq_false_iff.2 fun ha => nomatch h.lift_of_alwaysEscapes ha
      rw [Expr.hasEscape_logical] at he
      rw [Expr.leavesName, ha, Bool.not_false, Bool.and_true]
      rw [Lowering.lift, if_neg (by rw [← Bool.not_or, he]; decide)] at h
      obtain ⟨⟨_, left?⟩, t, -, h⟩ := bind_iff.1 h
      cases left? with
      | none => cases (pure_iff.1 h).1
      | some left' =>
        cases hr : right.hasEscape with
        | false =>
          simp only [hr, Bool.not_false, if_true] at h
          obtain ⟨_, _, -, h⟩ := bind_iff.1 h
          cases (pure_iff.1 h).1
          rfl
        | true =>
          simp only [hr, Bool.not_true, Bool.false_eq_true, if_false] at h
          obtain ⟨_, _, -, h⟩ := bind_iff.1 h
          obtain ⟨_, _, -, h⟩ := bind_iff.1 h
          obtain ⟨_, _, -, h⟩ := bind_iff.1 h
          cases (pure_iff.1 h).1
          rfl
    | conditional opening body ifText test elseText orelse closing =>
      obtain ⟨_, -, hp⟩ | ⟨_, _, _, _, _, _, _, _, _, -, -, -, -, hp⟩ := h.lift_conditional (by simpa using he)
      · cases hp
      · obtain ⟨-, hv⟩ := Prod.mk.inj hp
        split at hv
        · cases hv
          exact he.symm
        · cases hv
  · have he : e.hasEscape = false := Bool.eq_false_iff.2 he
    obtain ⟨hp, -⟩ := h.lift_of_not_hasEscape he
    cases hp
    rw [Expr.isHidden_eq_false_of_written hw]
    exact (Bool.eq_false_iff.2 fun hl => by rw [Expr.hasEscape_of_leavesName hl] at he; cases he).symm

namespace Lowering

variable {span : Span} {st st' : State}

/-! ### When lifting succeeds -/

/-- There is a wrapper to escape from, and generated names can be written. -/
structure Ready (st : State) : Prop where
  drawn : Drawn [] st
  wrapper : st.wrapper.isSome = true

/-- The step succeeds unless it is `blocked`, and then it fails because its code cannot be written. -/
def Decided {α : Type} (blocked : Bool) (m : Lower α) (st : State) : Prop :=
  match blocked with
  | true => ∃ st', outcome m st = (.error .spelling, st')
  | false => ∃ a st', Yields m st a st' ∧ Ready st'

namespace Decided

variable {α β : Type} {m : Lower α} {f : α → Lower β} {blocked later : Bool}

theorem pure (a : α) (hst : Ready st) : Decided false (pure a : Lower α) st := ⟨a, st, rfl, hst⟩

theorem bind (hm : Decided blocked m st) (hf : ∀ a t, Yields m st a t → Ready t → Decided later (f a) t) :
    Decided (blocked || later) (m >>= f) st := by
  cases blocked with
  | true =>
    obtain ⟨t, hm⟩ := hm
    exact ⟨t, by rw [outcome_bind, hm]⟩
  | false =>
    obtain ⟨a, t, hm, ht⟩ := hm
    have hf := hf a t hm ht
    rw [Bool.false_or]
    cases later with
    | true =>
      obtain ⟨t', hf⟩ := hf
      exact ⟨t', by rw [outcome_bind, hm]; exact hf⟩
    | false =>
      obtain ⟨b, t', hf, ht'⟩ := hf
      exact ⟨b, t', hm.bind hf, ht'⟩

/-- A step that fails only at its end. -/
theorem andThen (hm : Decided false m st) (hf : ∀ a t, Yields m st a t → Ready t → Decided later (f a) t) :
    Decided later (m >>= f) st := hm.bind hf

theorem last (hm : Decided blocked m st) (hf : ∀ a t, Yields m st a t → Ready t → Decided false (f a) t) :
    Decided blocked (m >>= f) st := by
  have h := hm.bind hf
  rwa [Bool.or_false] at h

theorem require (c : Bool) (hst : Ready st) : Decided (!c) (require c) st := by
  cases c with
  | true => exact pure () hst
  | false => exact ⟨st, rfl⟩

theorem fresh (hst : Ready st) : Decided false (fresh "value") st :=
  ⟨_, _, Yields.fresh_iff.2 ⟨rfl, rfl⟩, (hst.drawn.draw ["value"] (by decide) (by decide)).forget, hst.wrapper⟩

theorem escapeTo (v : Expr) (hst : Ready st) : Decided false (escapeTo span v) st := by
  obtain ⟨w, hw⟩ := Option.isSome_iff_exists.1 hst.wrapper
  exact ⟨_, st, Yields.escapeTo_iff.2 ⟨w, hw, rfl, rfl⟩, hst⟩

end Decided

theorem Ready.isValid_of_fresh {name : HiddenName} (hst : Ready st) (h : Yields (fresh "value") st name st') :
    name.isValid = true := by
  obtain ⟨rfl, -⟩ := Yields.fresh_iff.1 h
  exact (hst.drawn.draw ["value"] (by decide) (by decide)).valid _ (.head _)

/-- Inside a wrapper, escapes that can be lifted are lifted unless a generated name would touch a word. -/
theorem decided_lift {e : Expr} (hw : e.written = true) (hm : e.misplaced = []) (hst : Ready st) :
    Decided e.touches (lift span e) st := by
  induction e generalizing st with
  | plain text buried =>
    obtain rfl : buried = [] := hm
    exact .pure _ hst
  | hidden name => cases hw
  | escape text mark operand ih =>
    refine Decided.last (ih hw hm hst) fun r t _ ht => ?_
    obtain ⟨prelude, value⟩ := r
    cases value with
    | none => exact .pure _ ht
    | some v => exact (Decided.escapeTo v ht).andThen fun _ _ _ ht => .pure _ ht
  | logical c opening left before after right closing ihl ihr =>
    rw [Expr.written, Bool.and_eq_true] at hw
    rw [Expr.misplaced, List.append_eq_nil_iff] at hm
    rw [lift]
    split
    · rename_i he
      rw [Expr.touches_eq_false (by simpa using he)]
      exact .pure _ hst
    · rw [Expr.touches]
      refine (ihl hw.1 hm.1 hst).bind fun r t hl ht => ?_
      obtain ⟨prelude, left?⟩ := r
      cases left? with
      | none =>
        rw [hl.lift_eq_none_iff.1 rfl]
        exact .pure _ ht
      | some left' =>
        have ha : left.alwaysEscapes = false := by
          rw [Bool.eq_false_iff]
          intro ha
          cases hl.lift_of_alwaysEscapes ha
        rw [ha, Bool.not_false, Bool.true_and, ← hl.isHidden_of_lift hw.1]
        cases hr : right.hasEscape with
        | false =>
          rw [Expr.touches_eq_false hr, Bool.false_or, Bool.not_false, Bool.and_true]
          have hrequire := Decided.require (!(before.isEmpty && left'.isHidden)) ht
          rw [Bool.not_not] at hrequire
          exact hrequire.last fun _ _ _ ht => .pure _ ht
        | true =>
          rw [Bool.not_true, Bool.and_false, Bool.or_false]
          refine (Decided.fresh ht).andThen fun name u hname hu => ?_
          refine (ihr hw.2 hm.2 hu).last fun _ v _ hv => ?_
          rw [ht.isValid_of_fresh hname]
          exact (Decided.require true hv).andThen fun _ _ _ hv => .pure _ hv
  | conditional opening body ifText test elseText orelse closing ihb iht iho =>
    simp only [Expr.written, Bool.and_eq_true] at hw
    simp only [Expr.misplaced, List.append_eq_nil_iff] at hm
    rw [lift]
    split
    · rename_i he
      rw [Expr.touches_eq_false (by simpa using he)]
      exact .pure _ hst
    · rw [Expr.touches]
      refine (iht hw.1.2 hm.1.1 hst).bind fun r t ht hready => ?_
      obtain ⟨prelude, test?⟩ := r
      cases test? with
      | none =>
        rw [ht.lift_eq_none_iff.1 rfl]
        exact .pure _ hready
      | some test' =>
        have ha : test.alwaysEscapes = false := by
          rw [Bool.eq_false_iff]
          intro ha
          cases ht.lift_of_alwaysEscapes ha
        rw [ha, Bool.not_false, Bool.true_and]
        refine (Decided.fresh hready).andThen fun name u hname hu => ?_
        refine (ihb hw.1.1 hm.1.2 hu).bind fun _ v _ hv => ?_
        refine (iho hw.2 hm.2 hv).last fun _ x _ hx => ?_
        dsimp only
        rw [hready.isValid_of_fresh hname, Bool.or_true]
        exact (Decided.require true hx).andThen fun _ _ _ hx => .pure _ hx

end Lowering

/-! ### How expressions end -/

namespace Interpretation

variable {σ V ι : Type} (I : Interpretation σ V ι)

theorem run_error {E α : Type} {a : Action σ V α} {s s' : σ} {x : Exit V E}
    (h : (a.run : Program σ V E α) s (.error x) s') : ∃ v, x = .raise v := by
  obtain ⟨r, -, hr⟩ := h
  cases r with
  | ok a => cases hr
  | error v =>
    cases hr
    exact ⟨v, rfl⟩

/-- An expression ends with a value, an exception or an escape. -/
theorem expression_error {e : Expr} {s s' : σ} {x : Exit V V} (h : I.expression e s (.error x) s') :
    (∃ v, x = .raise v) ∨ ∃ v, x = .escape v := by
  induction e generalizing s with
  | plain text buried => exact .inl (run_error h)
  | hidden name => exact .inl (run_error h)
  | escape text mark operand ih =>
    rcases bind_error_iff.1 h with h | ⟨v, t, -, h⟩
    · exact ih h
    · cases h.1
      exact .inr ⟨v, rfl⟩
  | logical c opening left before after right closing ihl ihr =>
    rw [expression] at h
    split at h
    · rcases bind_error_iff.1 h with h | ⟨v, t, -, h⟩
      · exact ihl h
      · split at h
        · cases h.1
        · exact ihr h
    · exact .inl (run_error h)
  | conditional opening body ifText test elseText orelse closing ihb iht iho =>
    rw [expression] at h
    split at h
    · rcases bind_error_iff.1 h with h | ⟨v, t, -, h⟩
      · exact iht h
      · split at h
        · exact ihb h
        · exact iho h
    · exact .inl (run_error h)

/-- Code evaluates an expression to a value or an exception. -/
theorem evalExpr_error {e : Expr} {s s' : σ × Store V} {x : Exit V Empty}
    (h : I.evalExpr e s (.error x) s') : ∃ v, x = .raise v := by
  induction e generalizing s with
  | plain text buried => exact run_error h.1
  | hidden name =>
    obtain ⟨-, h⟩ := h
    split at h
    · cases h
    · cases h
      exact ⟨_, rfl⟩
  | escape text mark operand ih => exact run_error h.1
  | logical c opening left before after right closing ihl ihr =>
    rw [evalExpr] at h
    split at h
    · rcases bind_error_iff.1 h with h | ⟨v, t, -, h⟩
      · exact ihl h
      · split at h
        · cases h.1
        · exact ihr h
    · exact run_error h.1
  | conditional opening body ifText test elseText orelse closing ihb iht iho =>
    rw [evalExpr] at h
    split at h
    · rcases bind_error_iff.1 h with h | ⟨v, t, -, h⟩
      · exact iht h
      · split at h
        · exact ihb h
        · exact iho h
    · exact run_error h.1

end Interpretation

namespace Lowering

variable {σ V ι : Type} {span : Span} {st st' : State} {w : WrapperNames}

/-! ### What was lifted runs as the expression -/

/-- Inside the wrapper `w`: its flag is down until an escape puts a value into the slot and the flag up. -/
def slotAndFlag (I : Interpretation σ V ι) (w : WrapperNames) (free : Prop) : Surroundings V where
  calm H := H w.exit.render = some (I.constant .false)
  escaped v H := H w.result.render = some v ∧ H w.exit.render = some (I.constant .true)
  free := free

theorem fits_slotAndFlag (I : Interpretation σ V ι) (hwr : st.wrapper = some w)
    (hst : Drawn [w.result, w.exit] st) : Fits I (slotAndFlag I w st.Free) st where
  write {H name v} hname hH := by
    have hne : w.exit.render ≠ name := fun h => hname (h ▸ hst.reserved _ (by simp))
    exact (Store.write_ne hne H v).trans hH
  flag_down h' hH := by
    obtain rfl := Option.some.inj (hwr.symm.trans h')
    exact hH
  flag_up h' hH := by
    obtain rfl := Option.some.inj (hwr.symm.trans h')
    exact hH.2
  escape {w' v H} h' _ := by
    obtain rfl := Option.some.inj (hwr.symm.trans h')
    have hne : w.result.render ≠ w.exit.render := by simpa using hst.nodup
    exact ⟨by rw [Store.write_ne hne, Store.write_self], Store.write_self _ _ _⟩
  none h' := by
    rw [hwr] at h'
    cases h'
  free := Iff.rfl

/-- Run from `s` with the generated names valued as in `H`, the statements and after them the expression that is
left come to the ends of `e`: to its values, to its exceptions, and for an escape to a `break` with the value in
the slot of `w` and the flag up. -/
structure Evaluates (I : Interpretation σ V ι) (e : Expr) (w : WrapperNames) (stmts : List Lowered)
    (left : Option Expr) (s : σ) (H : Store V) : Prop where
  value : ∀ v s', I.expression e s (.ok v) s' ↔ ∃ x t H' H'', left = some x ∧
    I.execAll stmts (s, H) (.ok ()) (t, H') ∧ I.evalExpr x (t, H') (.ok v) (s', H'')
  escape : ∀ v s', I.expression e s (.error (.escape v)) s' ↔ ∃ H',
    I.execAll stmts (s, H) (.error .break) (s', H') ∧ H' w.result.render = some v ∧
      H' w.exit.render = some (I.constant .true)
  raise : ∀ v s', I.expression e s (.error (.raise v)) s' ↔
    (∃ H', I.execAll stmts (s, H) (.error (.raise v)) (s', H')) ∨ ∃ x t H' H'', left = some x ∧
      I.execAll stmts (s, H) (.ok ()) (t, H') ∧ I.evalExpr x (t, H') (.error (.raise v)) (s', H'')
  /-- The statements end in no other way, and an expression is left wherever they are run to their end. -/
  ends : ∀ r t H', I.execAll stmts (s, H) r (t, H') →
    r = .ok () ∧ left.isSome = true ∨ r = .error .break ∨ ∃ v, r = .error (.raise v)

/-- Evaluates what is left of an expression; where nothing is left, there is nothing to come to. -/
def residue (I : Interpretation σ V ι) : Option Expr → Code σ V V
  | some x => I.evalExpr x
  | none => fun _ _ _ => False

theorem residue_iff {I : Interpretation σ V ι} {left : Option Expr} {s s' : σ × Store V}
    {r : Except (Exit V Empty) V} : residue I left s r s' ↔ ∃ x, left = some x ∧ I.evalExpr x s r s' := by
  cases left <;> simp [residue]

theorem evaluates_of_lift (I : Interpretation σ V ι) {e : Expr} {stmts : List Lowered} {left : Option Expr}
    (hw : e.written = true) (hwr : st.wrapper = some w) (hst : Drawn [w.result, w.exit] st)
    (h : Yields (lift span e) st (stmts, left) st') (s : σ) {H : Store V}
    (hH : H w.exit.render = some (I.constant .false)) : Evaluates I e w stmts left s H := by
  have hlifted := lift_lifted hw h (fits_slotAndFlag I hwr hst) hH
  have hsim : Simulates (I.expression e) (I.execAll stmts >>= fun _ => residue I left) H
      (Ends (slotAndFlag I w st.Free) (slotAndFlag I w st.Free).Same) := by
    cases left with
    | some x => exact hlifted
    | none =>
      rw [← bind_pure (I.expression e)]
      exact Simulates.andThen hlifted fun hd => hd.elim
  have hraise {x : Exit V Empty} {t t' : σ × Store V} (hx : residue I left t (.error x) t') :
      ∃ v, x = .raise v := by
    obtain ⟨_, -, hx⟩ := residue_iff.1 hx
    exact I.evalExpr_error hx
  constructor
  · intro v s'
    constructor
    · intro he
      obtain ⟨r, H'', hc, hends⟩ := hsim.forth he
      cases hends with
      | ok hd =>
        obtain ⟨rfl, -⟩ := hd
        obtain ⟨_, ⟨t, H'⟩, hs, hx⟩ := bind_ok_iff.1 hc
        obtain ⟨x, rfl, hx⟩ := residue_iff.1 hx
        exact ⟨x, t, H', H'', rfl, hs, hx⟩
    · rintro ⟨x, t, H', H'', rfl, hs, hx⟩
      obtain ⟨r, he, hends⟩ := hsim.back (bind_ok_iff.2 ⟨(), (t, H'), hs, hx⟩)
      cases hends with
      | ok hd =>
        obtain ⟨rfl, -⟩ := hd
        exact he
  · intro v s'
    constructor
    · intro he
      obtain ⟨r, H', hc, hends⟩ := hsim.forth he
      cases hends with
      | escape hescaped =>
        obtain hs | ⟨_, _, -, hx⟩ := bind_error_iff.1 hc
        · exact ⟨H', hs, hescaped⟩
        · obtain ⟨_, hx⟩ := hraise hx
          cases hx
    · rintro ⟨H', hs, hslot, -⟩
      obtain ⟨r, he, hends⟩ := hsim.back (bind_error_iff.2 (.inl hs))
      cases hends with
      | «break» _ _ => obtain ⟨_, hx⟩ | ⟨_, hx⟩ := I.expression_error he <;> cases hx
      | escape hescaped =>
        obtain rfl := Option.some.inj (hescaped.1.symm.trans hslot)
        exact he
  · intro v s'
    constructor
    · intro he
      obtain ⟨r, H'', hc, hends⟩ := hsim.forth he
      cases hends with
      | raise =>
        obtain hs | ⟨_, ⟨t, H'⟩, hs, hx⟩ := bind_error_iff.1 hc
        · exact .inl ⟨H'', hs⟩
        · obtain ⟨x, rfl, hx⟩ := residue_iff.1 hx
          exact .inr ⟨x, t, H', H'', rfl, hs, hx⟩
    · intro hcode
      have hc : ∃ H', (I.execAll stmts >>= fun _ => residue I left) (s, H) (.error (.raise v)) (s', H') := by
        rcases hcode with ⟨H', hs⟩ | ⟨x, t, H', H'', rfl, hs, hx⟩
        · exact ⟨H', bind_error_iff.2 (.inl hs)⟩
        · exact ⟨H'', bind_error_iff.2 (.inr ⟨(), (t, H'), hs, hx⟩)⟩
      obtain ⟨H', hc⟩ := hc
      obtain ⟨r, he, hends⟩ := hsim.back hc
      cases hends with
      | raise => exact he
  · intro r t H' hs
    cases r with
    | ok _ =>
      refine .inl ⟨rfl, ?_⟩
      cases left with
      | some x => rfl
      | none =>
        -- the code would have a result where nothing is left
        obtain ⟨r, -, hends⟩ := Simulates.back hlifted hs
        cases hends with
        | ok hd => exact hd.elim
    | error x =>
      obtain ⟨r, he, hends⟩ := hsim.back (bind_error_iff.2 (.inl hs))
      cases hends with
      | «break» _ _ => exact .inr (.inl rfl)
      | «continue» _ _ => obtain ⟨_, hx⟩ | ⟨_, hx⟩ := I.expression_error he <;> cases hx
      | «return» => obtain ⟨_, hx⟩ | ⟨_, hx⟩ := I.expression_error he <;> cases hx
      | raise => exact .inr (.inr ⟨_, rfl⟩)
      | escape _ => exact .inr (.inl rfl)

/-- Inside a wrapper whose names were drawn, escapes that can be lifted are lifted, unless lifting would leave a
generated name directly at a connective. What they are lifted to evaluates the parts of the expression in their
order and ends as the expression does, whatever these parts do. -/
theorem lifting_keeps_evaluation_order (span : Span) {e : Expr} (hw : e.written = true)
    (hm : e.misplaced = []) (hwr : st.wrapper = some w) (hst : Drawn [w.result, w.exit] st) :
    if e.touches then ∃ st', outcome (lift span e) st = (.error .spelling, st')
    else ∃ stmts left st', Yields (lift span e) st (stmts, left) st' ∧
      ∀ (σ V ι : Type) (I : Interpretation σ V ι) (s : σ) (H : Store V),
        H w.exit.render = some (I.constant .false) → Evaluates I e w stmts left s H := by
  have hready : Ready st := ⟨hst.forget, by rw [hwr]; rfl⟩
  have hdecided : Decided e.touches (lift span e) st := decided_lift hw hm hready
  split
  · rename_i ht
    rwa [ht] at hdecided
  · rename_i ht
    rw [Bool.eq_false_iff.2 ht] at hdecided
    obtain ⟨⟨stmts, left⟩, st', hy, -⟩ := hdecided
    exact ⟨stmts, left, st', hy, fun σ V ι I s H hH => evaluates_of_lift I hw hwr hst hy s hH⟩

/-- The state inside a new wrapper. -/
def State.entered (st : State) : State :=
  { st.wrapping with wrapper := some st.names.wrapper.1, loopDepth := 0 }

theorem Drawn.entered (h : Drawn [] st) :
    Drawn [st.names.wrapper.1.result, st.names.wrapper.1.exit] st.entered :=
  (h.draw ["result", "exit"] (by decide) (by decide)).congr rfl rfl

/-- The tail of the block is a value that passes the test. -/
def hasValue (test : Expr → Bool) (b : Block) : Bool :=
  match b.tail with
  | some (.value e) => test e
  | _ => false

theorem exists_value_of_reads {keyword text : String} {test : Expr → Bool}
    (h : Block.reads keyword text (hasValue test) = true) :
    ∃ b e, Block.parse keyword text = .ok b ∧ b.tail = some (.value e) ∧ test e = true := by
  obtain ⟨b, hb, htest⟩ := Block.exists_parse_of_reads h
  unfold hasValue at htest
  split at htest
  · exact ⟨b, _, hb, ‹_›, htest⟩
  · cases htest

/-- Escapes in both branches of a conditional that is the right operand of a connective. -/
theorem lifting_keeps_evaluation_order_branches :
    ∃ (b : Block) (e : Expr) (w : WrapperNames) (stmts : List Lowered) (left : Option Expr) (st' : State),
      Block.parse "do" "do \x7b p() or (q() and ^r() if s() else ^t() or u()) \x7d" = .ok b ∧
      b.tail = some (.value e) ∧ e.marks.length = 2 ∧ e.misplaced = [] ∧
      (State.initial ⟨"_lm", 0, []⟩).entered.wrapper = some w ∧
      Yields (lift b.span e) (State.initial ⟨"_lm", 0, []⟩).entered (stmts, left) st' ∧
      Evaluates counting e w stmts left 0 (Store.empty.write w.exit.render false) := by
  obtain ⟨b, e, hb, htail, he⟩ := exists_value_of_reads (show Block.reads "do"
    "do \x7b p() or (q() and ^r() if s() else ^t() or u()) \x7d" (hasValue fun e => e.written && e.marks.length == 2 && e.misplaced.isEmpty && !e.touches) = true
    by decide +kernel)
  simp only [Bool.and_eq_true, Bool.not_eq_true', beq_iff_eq, List.isEmpty_iff] at he
  obtain ⟨⟨⟨hw, hlen⟩, hm⟩, ht⟩ := he
  have hdrawn : Drawn [] (State.initial ⟨"_lm", 0, []⟩) :=
    ⟨by decide, by decide, .nil, List.forall_mem_nil _, List.forall_mem_nil _, by simp [State.initial]⟩
  have hlift := lifting_keeps_evaluation_order b.span hw hm rfl hdrawn.entered
  rw [if_neg (by rw [ht]; decide)] at hlift
  obtain ⟨stmts, left, st', hy, hruns⟩ := hlift
  exact ⟨b, e, _, stmts, left, st', hb, htail, hlen, hm, rfl, hy, hruns _ _ _ counting 0 _ (Store.write_self _ _ _)⟩

/-- The escape of this expression can be lifted, but the name that lifting leaves would touch `or`. -/
theorem lift_fails_at_tight_operand :
    ∃ (b : Block) (e : Expr) (st' : State),
      Block.parse "do" "\x7b (a and ^b)or c \x7d" = .ok b ∧ b.tail = some (.value e) ∧ e.misplaced = [] ∧
      (State.initial ⟨"_lm", 0, []⟩).entered.wrapper.isSome = true ∧
      outcome (lift b.span e) (State.initial ⟨"_lm", 0, []⟩).entered = (.error .spelling, st') := by
  obtain ⟨b, e, hb, htail, he⟩ := exists_value_of_reads (show Block.reads "do" "\x7b (a and ^b)or c \x7d"
    (hasValue fun e => e.written && e.misplaced.isEmpty && e.touches) = true by decide +kernel)
  simp only [Bool.and_eq_true, List.isEmpty_iff] at he
  obtain ⟨⟨hw, hm⟩, ht⟩ := he
  have hdrawn : Drawn [] (State.initial ⟨"_lm", 0, []⟩) :=
    ⟨by decide, by decide, .nil, List.forall_mem_nil _, List.forall_mem_nil _, by simp [State.initial]⟩
  have hdecided : Decided e.touches (lift b.span e) (State.initial ⟨"_lm", 0, []⟩).entered :=
    decided_lift hw hm ⟨hdrawn.entered.forget, rfl⟩
  rw [ht] at hdecided
  obtain ⟨st', hout⟩ := hdecided
  exact ⟨b, e, st', hb, htail, hm, rfl, hout⟩

end Lowering

end DoBlocks
