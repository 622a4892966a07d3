import DoBlocks.Proofs.Landmarks

/-!
# The account of lowered code

Lowering writes for each landmark of a block what the account asks for, and records its obligations and
wrappers as it goes. What is dropped is recorded all the same.
-/

namespace DoBlocks

namespace Lowering

variable {e : Expr} {prelude : List Lowered} {p : List Lowered × Option Expr} {sink : Sink} {b : Block} {r : Result}

/-- The value that is left of an operand once its own escapes are lifted. -/
def LiftsTo (operand value : Expr) : Prop :=
  ∃ span t prelude t', Yields (lift span operand) t (prelude, some value) t'

/-- The statement that leaves a host loop inside a wrapper. -/
def leaveIf (w : WrapperNames) : Lowered := .branch [.mk (.expr (.hidden w.exit)) [.break]] none

/-- The landmarks `ms` of code inside the wrapper `w` have become the sights `ss`, and the obligations
`os` and the wrappers `ws` are recorded for them. -/
inductive Account (guards : Bool) (callee : HiddenName) : Option WrapperNames → List Landmark →
    List Sight → List Obligation → List WrapperNames → Prop
  | nil {w : Option WrapperNames} : Account guards callee w [] [] [] []
  /-- An escape leaves the wrapper around it. -/
  | exit {w : WrapperNames} {operand value : Expr} {ms : List Landmark} {ss : List Sight}
      {os : List Obligation} {ws : List WrapperNames} :
      LiftsTo operand value → Account guards callee (some w) ms ss os ws →
      Account guards callee (some w) (.exit operand :: ms) (.exit w value :: ss) os ws
  /-- A match has its catch-all, and an obligation with its place. -/
  | guarded {w : Option WrapperNames} {cases : List CaseHead} {span : Span} {subject : HiddenName}
      {ms : List Landmark} {ss : List Sight} {os : List Obligation} {ws : List WrapperNames} :
      Account guards callee w ms ss os ws →
      Account guards callee w (.openMatch cases span :: ms) (.guarded cases ⟨callee, subject⟩ :: ss)
        (⟨subject, span⟩ :: os) ws
  /-- A boundary block with a wrapper has been lowered on its own, with names that were fresh then. -/
  | wrapped {w : Option WrapperNames} {w' : WrapperNames} {sink : Sink} {b : Block} {t t' : State}
      {r : Result} {before after : List Lowered} {inside : List Landmark} {inside' : List Sight}
      {ms : List Landmark} {ss : List Sight} {os os' : List Obligation} {ws ws' : List WrapperNames} :
      Yields (lower guards sink b) t r t' → w' = t.names.wrapper.1 → r.wrapper = some w' →
      Lowered.sightsOf before after r.body = [.wrapped w' inside'] →
      Account guards callee (some w') inside inside' os ws → Account guards callee w ms ss os' ws' →
      Account guards callee w (.boundary b inside :: ms) (.wrapped w' inside' :: ss) (os ++ os')
        (w' :: ws ++ ws')
  /-- A boundary block without a wrapper has been lowered on its own; no escape can belong to it. -/
  | unwrapped {w : Option WrapperNames} {sink : Sink} {b : Block} {t t' : State} {r : Result}
      {before after : List Lowered} {inside : List Landmark} {inside' : List Sight} {ms : List Landmark}
      {ss : List Sight} {os os' : List Obligation} {ws ws' : List WrapperNames} :
      Yields (lower guards sink b) t r t' → r.wrapper = none →
      Lowered.sightsOf before after r.body = inside' →
      Account guards callee none inside inside' os ws → Account guards callee w ms ss os' ws' →
      Account guards callee w (.boundary b inside :: ms) (inside' ++ ss) (os ++ os') (ws ++ ws')
  /-- A loop out of which an escape leads is left as soon as it ends. -/
  | loop {w : Option WrapperNames} {next : List Lowered} {inside : List Landmark} {inside' : List Sight}
      {ms : List Landmark} {ss : List Sight} {os os' : List Obligation} {ws ws' : List WrapperNames} :
      (Sight.ownsAny inside' = true → ∃ names later, w = some names ∧ next = leaveIf names :: later) →
      Account guards callee w inside inside' os ws → Account guards callee w ms ss os' ws' →
      Account guards callee w (.loop inside :: ms) (.loop next inside' :: ss) (os ++ os') (ws ++ ws')
  /-- What is dropped is recorded but not seen. -/
  | dropped {w : Option WrapperNames} {inside : List Landmark} {inside' : List Sight} {ms : List Landmark}
      {ss : List Sight} {os os' : List Obligation} {ws ws' : List WrapperNames} :
      Account guards callee w inside inside' os ws → Account guards callee w ms ss os' ws' →
      Account guards callee w (.dropped inside :: ms) ss (os ++ os') (ws ++ ws')

namespace Account

variable {guards : Bool} {callee : HiddenName} {w w' : Option WrapperNames} {ms ms' : List Landmark}
  {ss ss' : List Sight} {os os' : List Obligation} {ws ws' : List WrapperNames}

theorem append (h : Account guards callee w ms ss os ws) (h' : Account guards callee w ms' ss' os' ws') :
    Account guards callee w (ms ++ ms') (ss ++ ss') (os ++ os') (ws ++ ws') := by
  induction h with
  | nil => exact h'
  | exit hv _ ih => exact .exit hv (ih h')
  | guarded _ ih => exact .guarded (ih h')
  | wrapped hy hw hr hs hi _ _ ih => simpa using Account.wrapped hy hw hr hs hi (ih h')
  | unwrapped hy hr hs hi _ _ ih => simpa using Account.unwrapped hy hr hs hi (ih h')
  | loop hl hi _ _ ih => simpa using Account.loop hl hi (ih h')
  | dropped hi _ _ ih => simpa using Account.dropped hi (ih h')

/-- An escape in sight is one of the landmarks, and there is a wrapper that it leaves. -/
theorem owns (h : Account guards callee w ms ss os ws) (hs : Sight.ownsAny ss = true) :
    Landmark.ownsAny ms = true ∧ ∃ names, w = some names := by
  induction h with
  | nil => cases hs
  | exit hv _ _ => exact ⟨rfl, _, rfl⟩
  | guarded _ ih => exact ih hs
  | wrapped _ _ _ _ _ _ _ ih => exact ih hs
  | unwrapped _ _ _ _ _ ihi ih =>
    rw [Sight.ownsAny_append, Bool.or_eq_true] at hs
    rcases hs with hs | hs
    · obtain ⟨-, names, hnames⟩ := ihi hs
      cases hnames
    · exact ih hs
  | loop _ _ _ ihi ih =>
    rcases Bool.or_eq_true_iff.1 hs with hs | hs
    · obtain ⟨hown, hw⟩ := ihi hs
      exact ⟨Bool.or_eq_true_iff.2 (.inl hown), hw⟩
    · obtain ⟨hown, hw⟩ := ih hs
      exact ⟨Bool.or_eq_true_iff.2 (.inr hown), hw⟩
  | dropped _ _ _ ih =>
    obtain ⟨hown, hw⟩ := ih hs
    exact ⟨Bool.or_eq_true_iff.2 (.inr hown), hw⟩

/-- Where no escape belongs to the boundary around, it does not matter which one that is. -/
theorem anywhere (h : Account guards callee w ms ss os ws) (hm : Landmark.ownsAny ms = false) :
    Account guards callee w' ms ss os ws := by
  induction h with
  | nil => exact .nil
  | exit hv _ _ => cases hm
  | guarded _ ih => exact .guarded (ih hm)
  | wrapped hy hw hr hs hi _ _ ih => exact .wrapped hy hw hr hs hi (ih hm)
  | unwrapped hy hr hs hi _ _ ih => exact .unwrapped hy hr hs hi (ih hm)
  | loop _ hi _ ihi ih =>
    obtain ⟨hin, hrest⟩ := Bool.or_eq_false_iff.1 hm
    refine .loop (fun hs => ?_) (ihi hin) (ih hrest)
    obtain ⟨hown, -⟩ := hi.owns hs
    exact absurd (hin.symm.trans hown) Bool.false_ne_true
  | dropped _ _ ihi ih =>
    obtain ⟨hin, hrest⟩ := Bool.or_eq_false_iff.1 hm
    exact .dropped (ihi hin) (ih hrest)

end Account

/-! ### What steps record -/

/-- From `st` to `st'` the obligations `os` and the wrappers `ws` are recorded. -/
structure Records (st : State) (os : List Obligation) (ws : List WrapperNames) (st' : State) : Prop where
  obligations : st'.obligations = st.obligations ++ os
  wrappers : st'.wrappers = st.wrappers ++ ws
  wrapper : st'.wrapper = st.wrapper
  callee : ∀ c, st.callee = some c → st'.callee = some c

/-- If there is a function for catch-alls, its name is `k`. -/
def State.Calls (st : State) (k : HiddenName) : Prop := ∀ c, st.callee = some c → c = k

theorem State.exists_calls (st : State) :
    ∃ k, st.Calls k ∧ (st.callee.isSome = true → st.callee = some k) := by
  cases hc : st.callee with
  | none => exact ⟨⟨"", "", 0⟩, fun c (h : st.callee = some c) => (by simp [hc] at h), nofun⟩
  | some k =>
    exact ⟨k, fun c (h : st.callee = some c) => Option.some.inj (h.symm.trans hc), fun _ => rfl⟩

namespace Records

variable {st t st' : State} {os os' : List Obligation} {ws ws' : List WrapperNames} {k : HiddenName}

theorem refl (st : State) : Records st [] [] st := ⟨by simp, by simp, rfl, fun _ h => h⟩

theorem trans (h : Records st os ws t) (h' : Records t os' ws' st') :
    Records st (os ++ os') (ws ++ ws') st' where
  obligations := by rw [h'.obligations, h.obligations, List.append_assoc]
  wrappers := by rw [h'.wrappers, h.wrappers, List.append_assoc]
  wrapper := h'.wrapper.trans h.wrapper
  callee c hc := h'.callee c (h.callee c hc)

theorem of_names {names : Allocator} (h : Records { st with names := names } os ws st') :
    Records st os ws st' := ⟨h.obligations, h.wrappers, h.wrapper, h.callee⟩

/-- The function for catch-alls keeps its name. -/
theorem calls (h : Records st os ws st') (hk : st'.Calls k) : st.Calls k :=
  fun c hc => hk c (h.callee c hc)

end Records

/-- What was written and recorded between two states is the account of the landmarks `ms`. -/
def Written (guards : Bool) (ms : List Landmark) (st : State) (ss : List Sight) (st' : State) : Prop :=
  ∃ os ws, Records st os ws st' ∧ ∀ k, st'.Calls k → Account guards k st.wrapper ms ss os ws

/-- Whatever the step writes and records is the account of the landmarks `ms`. -/
def Accounts (guards : Bool) (ms : List Landmark) (m : Lower (List Lowered)) : Prop :=
  ∀ ⦃st xs st'⦄, Yields m st xs st' → ∀ before after,
    Written guards ms st (Lowered.sightsOf before after xs) st'

variable {guards : Bool} {span : Span} {st st' : State}

theorem sightsOf_assigned (name : HiddenName) (value : Option Expr) (before after : List Lowered) :
    Lowered.sightsOf before after (assigned name value) = [] := by
  cases value <;> rfl

/-- The sights of an `if` that lifting writes, with the assignment that ends each of its bodies. -/
theorem sights_lifted (test : Test) (name : HiddenName) (branch : List Lowered) (value : Option Expr)
    (orelse : Option (List Lowered)) (before after : List Lowered) :
    (Lowered.branch [.mk test (Lowered.suite (branch ++ assigned name value))] orelse).sights before after =
      Lowered.sightsOf [] [] (orelse.getD []) ++
        Lowered.sightsOf [] (assigned name value) branch := by
  simp [Lowered.sights_branch, Lowered.sightsOfArms, Lowered.sightsOf_append, sightsOf_assigned]

/-- What lifting comes to: nothing is recorded, a value is missing just if every evaluation escapes, and
the escapes of the expression are written. -/
structure LiftAccount (guards : Bool) (e : Expr) (st : State) (p : List Lowered × Option Expr)
    (st' : State) : Prop where
  records : Records st [] [] st'
  isNone : p.2.isNone = e.alwaysEscapes
  account : ∀ k before after, Account guards k st.wrapper e.exits (Lowered.sightsOf before after p.1) [] []

theorem LiftAccount.always (h : LiftAccount guards e st (prelude, none) st') : e.alwaysEscapes = true := h.isNone.symm

theorem LiftAccount.not_always {v : Expr} (h : LiftAccount guards e st (prelude, some v) st') :
    ¬ e.alwaysEscapes = true := by
  rw [← h.isNone]
  exact Bool.false_ne_true

theorem LiftAccount.of_not_hasEscape (h : Yields (lift span e) st p st') (he : e.hasEscape = false) :
    LiftAccount guards e st p st' := by
  obtain ⟨rfl, rfl⟩ := h.lift_of_not_hasEscape he
  have ha : e.alwaysEscapes = false := by
    rw [Bool.eq_false_iff]
    intro ha
    rw [Expr.hasEscape_of_alwaysEscapes ha] at he
    cases he
  refine ⟨.refl _, ha.symm, fun k before after => ?_⟩
  rw [Expr.exits_of_not_hasEscape he]
  exact .nil

theorem liftAccount (h : Yields (lift span e) st p st') :
    LiftAccount guards e st p st' := by
  induction e generalizing st p st' with
  | plain text buried => exact .of_not_hasEscape h h.lift_plain
  | hidden name => exact .of_not_hasEscape h rfl
  | escape text mark operand ih =>
    obtain ⟨prelude, hy, rfl⟩ | ⟨prelude, v, w, hy, hw, rfl⟩ := h.lift_escape
    · refine ⟨(ih hy).records, rfl, fun k before after => ?_⟩
      rw [Expr.exits, if_pos (ih hy).always, List.append_nil]
      exact (ih hy).account k before after
    · have hst : st.wrapper = some w := (ih hy).records.wrapper ▸ hw
      refine ⟨(ih hy).records, rfl, fun k before after => ?_⟩
      rw [Expr.exits, if_neg (ih hy).not_always, Lowered.sightsOf_append, Lowered.sightsOf_leaveWrapper]
      refine ((ih hy).account k _ _).append ?_
      rw [hst]
      exact .exit ⟨_, _, _, _, hy⟩ .nil
  | logical c opening left before after right closing ihl ihr =>
    by_cases he : (left.hasEscape || right.hasEscape) = true
    · obtain ⟨prelude, hl, rfl⟩ | ⟨prelude, left', hl, hr, rfl⟩ |
        ⟨prelude, left', t, name, branch, right?, hl, rfl, hr, rfl⟩ := h.lift_logical he
      · refine ⟨(ihl hl).records, (ihl hl).isNone, fun k before after => ?_⟩
        rw [Expr.exits, if_pos (ihl hl).always, List.append_nil]
        exact (ihl hl).account k before after
      · refine ⟨(ihl hl).records, (ihl hl).isNone, fun k before after => ?_⟩
        rw [Expr.exits, Expr.exits_of_not_hasEscape hr, ite_self, List.append_nil]
        exact (ihl hl).account k before after
      · have hrecords : Records t [] [] st' := (ihr hr).records.of_names
        refine ⟨(ihl hl).records.trans hrecords, (ihl hl).isNone, fun k before after => ?_⟩
        rw [Expr.exits, if_neg (ihl hl).not_always, Lowered.sightsOf_append]
        refine ((ihl hl).account k _ _).append ?_
        have hright := (ihr hr).account k [] (assigned (t.names.fresh "value").1 right?)
        rw [show State.wrapper _ = st.wrapper from (ihl hl).records.wrapper] at hright
        simpa [sights_lifted] using hright
    · exact .of_not_hasEscape h (by rw [Expr.hasEscape_logical]; simpa using he)
  | conditional opening body ifText test elseText orelse closing ihb iht iho =>
    by_cases he : (body.hasEscape || test.hasEscape || orelse.hasEscape) = true
    · obtain ⟨prelude, ht, rfl⟩ |
        ⟨prelude, test', t, name, first, body?, t', second, orelse?, ht, rfl, hb, ho, rfl⟩ :=
        h.lift_conditional he
      · refine ⟨(iht ht).records, by rw [Expr.alwaysEscapes, (iht ht).always]; rfl, fun k before after => ?_⟩
        rw [Expr.exits, if_pos (iht ht).always, List.append_nil]
        exact (iht ht).account k before after
      · have hrecords : Records t [] [] t' := (ihb hb).records.of_names
        have hwt : t.wrapper = st.wrapper := (iht ht).records.wrapper
        refine ⟨((iht ht).records.trans hrecords).trans (iho ho).records, ?_, fun k before after => ?_⟩
        · have hbody := (ihb hb).isNone
          have horelse := (iho ho).isNone
          have htest := (iht ht).isNone
          rw [Expr.alwaysEscapes, ← htest, ← hbody, ← horelse]
          cases body? <;> cases orelse? <;> rfl
        · rw [Expr.exits, if_neg (iht ht).not_always, Lowered.sightsOf_append]
          refine ((iht ht).account k _ _).append ?_
          have hsecond := (iho ho).account k [] (assigned (t.names.fresh "value").1 orelse?)
          have hfirst := (ihb hb).account k [] (assigned (t.names.fresh "value").1 body?)
          rw [hrecords.wrapper, hwt] at hsecond
          rw [show State.wrapper _ = st.wrapper from hwt] at hfirst
          simpa [sights_lifted, Lowered.sightsOf_append, sightsOf_assigned] using hsecond.append hfirst
    · exact .of_not_hasEscape h (by rw [Expr.hasEscape_conditional]; simpa using he)

/-! ### Composing accounts -/

namespace Written

variable {ms ms' : List Landmark} {ss ss' : List Sight} {t : State}

theorem refl (st : State) : Written guards [] st [] st := ⟨[], [], .refl st, fun _ _ => .nil⟩

theorem append (h : Written guards ms st ss t) (h' : Written guards ms' t ss' st') :
    Written guards (ms ++ ms') st (ss ++ ss') st' := by
  obtain ⟨os, ws, hr, ha⟩ := h
  obtain ⟨os', ws', hr', ha'⟩ := h'
  refine ⟨os ++ os', ws ++ ws', hr.trans hr', fun k hk => ?_⟩
  exact (ha k (hr'.calls hk)).append (hr.wrapper ▸ ha' k hk)

theorem of_lift {e : Expr} {p : List Lowered × Option Expr} (h : LiftAccount guards e st p st')
    (before after : List Lowered) : Written guards e.exits st (Lowered.sightsOf before after p.1) st' :=
  ⟨[], [], h.records, fun k _ => h.account k before after⟩

/-- What is lifted later may be written first, since nothing is recorded for it. -/
theorem lift_first {e : Expr} {p : List Lowered × Option Expr} (h : Written guards ms st ss t)
    (hl : LiftAccount guards e t p st') (before after : List Lowered) :
    Written guards (e.exits ++ ms) st (Lowered.sightsOf before after p.1 ++ ss) st' := by
  obtain ⟨os, ws, hr, ha⟩ := h
  refine ⟨os ++ [], ws ++ [], hr.trans hl.records, fun k hk => ?_⟩
  have hfirst := hl.account k before after
  rw [hr.wrapper] at hfirst
  simpa using hfirst.append (ha k (hl.records.calls hk))

theorem dropped (h : Written guards ms st ss st') : Written guards [.dropped ms] st [] st' := by
  obtain ⟨os, ws, hr, ha⟩ := h
  exact ⟨os, ws, hr, fun k hk => by simpa using Account.dropped (ha k hk) .nil⟩

theorem loop {next : List Lowered} (h : Written guards ms st ss st')
    (hnext : Landmark.ownsAny ms = true → ∀ w, st.wrapper = some w → ∃ later, next = leaveIf w :: later) :
    Written guards [.loop ms] st [.loop next ss] st' := by
  obtain ⟨os, ws, hr, ha⟩ := h
  refine ⟨os, ws, hr, fun k hk => ?_⟩
  have hleft : Sight.ownsAny ss = true →
      ∃ names later, st.wrapper = some names ∧ next = leaveIf names :: later := by
    intro hs
    obtain ⟨hown, w, hw⟩ := (ha k hk).owns hs
    obtain ⟨later, hlater⟩ := hnext hown w hw
    exact ⟨w, later, hw, hlater⟩
  simpa using Account.loop hleft (ha k hk) .nil

/-- The number of loops around does not matter. -/
theorem of_loopDepth {m n : Nat} (h : Written guards ms { st with loopDepth := m } ss st') :
    Written guards ms st ss { st' with loopDepth := n } := by
  obtain ⟨os, ws, hr, ha⟩ := h
  exact ⟨os, ws, ⟨hr.obligations, hr.wrappers, hr.wrapper, hr.callee⟩, ha⟩

end Written

namespace Accounts

theorem delivered (sink : Sink) (value : Option Expr) : Accounts guards [] (delivered sink value) := by
  intro st xs st' h before after
  obtain ⟨hd, rfl⟩ := Yields.delivered_iff.1 h
  rw [Lowered.sightsOf_deliver hd]
  exact .refl _

theorem andThen {ms ms' : List Landmark} {here rest : Lower (List Lowered)} {leaves : Bool}
    (h : Accounts guards ms here) (hr : Accounts guards ms' rest) :
    Accounts guards (ms ++ if leaves then [] else ms') (andThen here leaves rest) := by
  intro st xs st' hy before after
  obtain ⟨stmts, t, hh, hy⟩ := Yields.bind_iff.1 hy
  split at hy
  · rename_i hleaves
    obtain ⟨rfl, rfl⟩ := Yields.pure_iff.1 hy
    rw [if_pos hleaves, List.append_nil]
    exact h hh before after
  · rename_i hleaves
    obtain ⟨more, t', hm, hy⟩ := Yields.bind_iff.1 hy
    obtain ⟨rfl, rfl⟩ := Yields.pure_iff.1 hy
    rw [if_neg hleaves, Lowered.sightsOf_append]
    exact (h hh _ _).append (hr hm _ _)

/-- The account of what comes after a lifted expression, if it has a value. -/
theorem lift_bind {e : Expr} {ms : List Landmark} {f : Expr → Lower (List Lowered)}
    (hf : ∀ v, LiftsTo e v → Accounts guards ms (f v)) :
    Accounts guards (e.exits ++ if e.alwaysEscapes then [] else ms) (do
      let (prelude, value) ← lift span e
      match value with
      | none => return prelude
      | some v => return prelude ++ (← f v)) := by
  intro st xs st' h before after
  obtain ⟨⟨prelude, value⟩, t, hl, h⟩ := Yields.bind_iff.1 h
  have hlift : LiftAccount guards e st (prelude, value) t := liftAccount hl
  cases value with
  | none =>
    obtain ⟨rfl, rfl⟩ := Yields.pure_iff.1 h
    rw [if_pos hlift.always, List.append_nil]
    exact .of_lift hlift _ _
  | some v =>
    obtain ⟨stmts, t', hv, h⟩ := Yields.bind_iff.1 h
    obtain ⟨rfl, rfl⟩ := Yields.pure_iff.1 h
    rw [if_neg hlift.not_always, Lowered.sightsOf_append]
    exact (Written.of_lift hlift _ _).append (hf v ⟨_, _, _, _, hl⟩ hv _ _)

theorem escapeTo {operand value : Expr} (h : LiftsTo operand value) :
    Accounts guards [.exit operand] (escapeTo span value) := by
  intro st xs st' hy before after
  obtain ⟨w, hw, rfl, rfl⟩ := Yields.escapeTo_iff.1 hy
  rw [Lowered.sightsOf_leaveWrapper]
  refine ⟨[], [], .refl _, fun k _ => ?_⟩
  rw [hw]
  exact .exit h .nil

theorem lowerEscape (e : Escape) : Accounts guards e.exits (lowerEscape e) :=
  lift_bind fun _ hv => escapeTo hv

theorem lowerSimple (s : Simple) : Accounts guards s.exits (lowerSimple s span) := by
  intro st xs st' h before after
  obtain ⟨-, ⟨he, rfl, rfl⟩ | ⟨e, prelude, value, hv, -, hl, rfl⟩⟩ := h.lowerSimple_steps
  · have hexits : s.exits = [] := by
      unfold Simple.exits
      cases hv : s.value with
      | none => rfl
      | some e => exact Expr.exits_of_not_hasEscape (he e hv)
    rw [hexits]
    exact .refl _
  · have hlast : ∀ before after, Lowered.sightsOf before after
        (value.map fun v => Lowered.simple { s with value := some v }).toList = [] := by
      cases value <;> exact fun _ _ => rfl
    rw [Simple.exits, hv, Lowered.sightsOf_append, hlast, List.append_nil]
    exact .of_lift (liftAccount hl) _ _

/-- The account of a boundary block, given that of its inside. -/
theorem lower {b : Block} (hb : ∀ sink, Accounts guards (b.landmarks guards) (lowerBlock guards sink b))
    {sink : Sink} {r : Result} (h : Yields (Lowering.lower guards sink b) st r st')
    (before after : List Lowered) :
    Written guards [.boundary b (b.landmarks guards)] st (Lowered.sightsOf before after r.body) st' := by
  have hy : Yields (Lowering.boundary b.containsEscape b.span sink fun s => lowerBlock guards s b) st r st' :=
    h
  cases hc : b.containsEscape with
  | false =>
    rw [hc] at hy
    obtain ⟨trace, hin, hr⟩ := hy.boundary_false_steps
    obtain ⟨os, ws, hrec, ha⟩ := hb sink hin before after
    refine ⟨os, ws, ⟨hrec.obligations, hrec.wrappers, hrec.wrapper, hrec.callee⟩, fun k hk => ?_⟩
    have hinside : Account guards k none _ _ os ws := (ha k hk).anywhere (Block.ownsAny_landmarks guards hc)
    simpa using Account.unwrapped h hr rfl hinside .nil
  | true =>
    rw [hc] at hy
    have hy : Yields (inWrapper st.names.wrapper.1 b.span sink fun s => lowerBlock guards s b)
      st.wrapping r st' := hy
    obtain ⟨trace, t, trace', tree, after', hin, -, -, hafter, hbody, hr, rfl⟩ := hy.inWrapper_steps
    obtain ⟨os, ws, hrec, ha⟩ := hb _ hin [] []
    have hsights : ∀ before after, Lowered.sightsOf before after r.body =
        [.wrapped st.names.wrapper.1 (Lowered.sightsOf [] [] tree)] := by
      intro before after
      have hdeliver : ∀ before after, Lowered.sightsOf before after after' = [] := by
        split at hafter
        · exact fun _ _ => hafter ▸ rfl
        · exact Lowered.sightsOf_deliver hafter
      rw [hbody, Lowered.sightsOf_append, Lowered.sightsOf_wrapper, hdeliver, List.append_nil]
    refine ⟨os, st.names.wrapper.1 :: ws, ⟨hrec.obligations, ?_, rfl, hrec.callee⟩, fun k hk => ?_⟩
    · simp [hrec.wrappers, State.wrapping]
    · rw [hsights]
      simpa using Account.wrapped h rfl hr (hsights [] []) (ha k hk) .nil

/-- The account of a loop, given that of its body. -/
theorem loop {body : Block} (loop : List Lowered → Lowered)
    (hb : Accounts guards (body.landmarks guards) (lowerBlock guards .discard body))
    (hl : ∀ before after inside, (loop inside).sights before after =
      [.loop after (Lowered.sightsOf [] [] inside)]) :
    Accounts guards [.loop (body.landmarks guards)] (do
      let inside ← withLoop (lowerBlock guards .discard body)
      return loop (Lowered.suite inside) :: (← afterLoop body.containsEscape)) := by
  intro st xs st' h before after
  obtain ⟨inside, t, hw, h⟩ := Yields.bind_iff.1 h
  obtain ⟨stmts, t', hafter, h⟩ := Yields.bind_iff.1 h
  obtain ⟨rfl, rfl⟩ := Yields.pure_iff.1 h
  obtain ⟨u, hin, rfl⟩ := Yields.withLoop_iff.1 hw
  obtain rfl := hafter.afterLoop_state
  have hinside : Written guards (body.landmarks guards) st (Lowered.sightsOf [] [] inside)
    { u with loopDepth := st.loopDepth } := (hb hin [] []).of_loopDepth
  have hwrapper : u.wrapper = st.wrapper := by
    obtain ⟨_, _, hrec, -⟩ := hinside
    exact hrec.wrapper
  rw [Lowered.sightsOf_cons, hl, Lowered.sightsOf_suite]
  obtain ⟨w, hu, -, rfl⟩ | ⟨hno, rfl⟩ := hafter.afterLoop_cases
  · refine Written.loop hinside fun _ w' hw' => ?_
    have heq : w = w' := Option.some.inj (hu.symm.trans (hwrapper.trans hw'))
    exact ⟨after, heq ▸ rfl⟩
  · refine Written.loop hinside fun hown w' hw' => ?_
    rcases hno with hnone | hno
    · rw [show u.wrapper = none from hnone] at hwrapper
      rw [hw'] at hwrapper
      cases hwrapper
    · rw [Block.ownsAny_landmarks guards hno] at hown
      cases hown

theorem body {b : Block} (hb : ∀ sink, Accounts guards (b.landmarks guards) (lowerBlock guards sink b))
    (sink : Sink) : Accounts guards [.boundary b (b.landmarks guards)]
      (do return (← boundary b.containsEscape b.span sink fun s => lowerBlock guards s b).body) := by
  intro st xs st' h before after
  obtain ⟨r, t, hy, h⟩ := Yields.bind_iff.1 h
  obtain ⟨rfl, rfl⟩ := Yields.pure_iff.1 h
  exact Accounts.lower hb hy before after

end Accounts

theorem isCovered_eq_any (cases : List LoweredCase) :
    isCovered cases = (cases.map LoweredCase.head).any fun c => c.1.irrefutable && c.2.isNone := by
  induction cases with
  | nil => rfl
  | cons c cases ih =>
    obtain ⟨pattern, guard, body⟩ := c
    rw [isCovered_cons, ih, List.map_cons, List.any_cons]
    rfl

/-- The account of a match, given those of its first case and of its arms. -/
theorem Written.closeMatch {ms ms' : List Landmark} {t u : State} {primary : Pattern} {body : List Lowered}
    {cases : List LoweredCase} {m : Lowered} {arms : List Arm}
    (hbody : Written guards ms st (Lowered.sightsOf [] [] body) t)
    (hcases : Written guards ms' t (Lowered.sightsOfCases cases) u)
    (hheads : cases.map LoweredCase.head = arms.map Arm.head)
    (h : Yields (closeMatch guards e (.mk primary none (Lowered.suite body) :: cases) span) u m st')
    (before after : List Lowered) :
    Written guards (ms ++ ms' ++ openMatches guards ((primary, none) :: arms.map Arm.head) span) st
      (Lowered.sightsOf before after [m]) st' := by
  have hcovered : isCovered (.mk primary none (Lowered.suite body) :: cases) =
      ((primary, none) :: arms.map Arm.head).any fun c => c.1.irrefutable && c.2.isNone := by
    rw [isCovered_eq_any, List.map_cons, hheads]
    rfl
  suffices hclose : ∃ ss, Written guards (openMatches guards ((primary, none) :: arms.map Arm.head) span) u ss
      st' ∧ Lowered.sightsOf before after [m] =
        Lowered.sightsOf [] [] body ++ Lowered.sightsOfCases cases ++ ss by
    obtain ⟨ss, hss, hsights⟩ := hclose
    rw [hsights]
    exact (hbody.append hcases).append hss
  unfold openMatches
  rw [← hcovered]
  obtain ⟨hc, rfl, trace, rfl⟩ | ⟨hc, rfl, callee, subject, names, trace, rfl, hcallee, rfl⟩ :=
    h.closeMatch_steps
  · refine ⟨[], ?_, by simp [Lowered.sights, Lowered.sightsOfCases]⟩
    rw [if_neg]
    · exact ⟨[], [], ⟨by simp, by simp, rfl, fun _ h => h⟩, fun _ _ => .nil⟩
    · rcases hc with hc | rfl
      · simp [hc]
      · simp
  · refine ⟨[.guarded ((primary, none) :: arms.map Arm.head) ⟨callee, subject⟩], ?_,
      by simp [Lowered.sights, Lowered.sightsOfCases, hheads, LoweredCase.head]⟩
    rw [hc]
    refine ⟨[⟨subject, span⟩], [], ⟨rfl, by simp, rfl, ?_⟩, fun k hk => ?_⟩
    · intro c hu
      exact congrArg some (hcallee c hu).symm
    · obtain rfl : callee = k := hk callee rfl
      exact .guarded .nil

/-- What branches come to between `t` and `st'`: nothing if there are none, and else a chain whose account
goes back to `st`. -/
def ChainWritten (guards : Bool) (ms : List Landmark) (bs : List Branch) (st t : State)
    (later : Option (List Lowered)) (st' : State) : Prop :=
  (bs = [] ∧ later = none ∧ st' = t) ∨
    ∃ chain, bs ≠ [] ∧ later = some chain ∧ ∀ before after,
      Written guards ms st (Lowered.sightsOf before after chain) st'

/-- The account of a conditional, given that of what is done if no branch is taken. -/
theorem ChainWritten.conditional {other ms : List Landmark} {ss : List Sight} {bs : List Branch} {t : State}
    {later : Option (List Lowered)} (h : ChainWritten guards ms bs st t later st')
    (ho : Written guards other st ss t) (before after : List Lowered) :
    Written guards (if bs.isEmpty then [.dropped other] else ms) st
      (Lowered.sightsOf before after (later.getD [])) st' := by
  obtain ⟨rfl, rfl, rfl⟩ | ⟨chain, hne, rfl, hchain⟩ := h
  · exact ho.dropped
  · rw [if_neg (by simpa using hne)]
    exact hchain before after

/-- A block has a wrapper just if it owns an escape; its names are fresh when lowering of it begins. -/
theorem wrapper_lower (h : Yields (lower guards sink b) st r st') :
    r.wrapper = if b.containsEscape then some st.names.wrapper.1 else none := by
  have hy : Yields (boundary b.containsEscape b.span sink fun s => lowerBlock guards s b) st r st' := h
  cases hc : b.containsEscape with
  | false =>
    rw [hc] at hy
    obtain ⟨_, -, hr⟩ := hy.boundary_false_steps
    exact hr
  | true =>
    rw [hc] at hy
    have hy : Yields (inWrapper st.names.wrapper.1 b.span sink fun s => lowerBlock guards s b)
      st.wrapping r st' := hy
    obtain ⟨_, _, _, _, _, -, -, -, -, -, hr, -⟩ := hy.inWrapper_steps
    exact hr

variable (guards)

mutual

theorem accounts_lowerBlock (sink : Sink) : ∀ b : Block,
    Accounts guards (b.landmarks guards) (lowerBlock guards sink b)
  | .mk ss none _ _ => accounts_lowerStatements (.delivered sink none) ss
  | .mk ss (some t) span _ => accounts_lowerStatements (accounts_lowerTail sink span t) ss

theorem accounts_lowerStatements {ms : List Landmark} {finish : Lower (List Lowered)}
    (hf : Accounts guards ms finish) : ∀ ss : List Statement,
    Accounts guards (statementsLandmarks guards ms ss) (lowerStatements guards finish ss)
  | [] => hf
  | s :: rest => by
    have hr := accounts_lowerStatements hf rest
    cases s with
    | simple s span => exact .andThen (.lowerSimple s) hr
    | escape e =>
      have h : Accounts guards (e.exits ++ []) (andThen (lowerEscape e) true _) := .andThen (.lowerEscape e) hr
      rwa [List.append_nil] at h
    | letMatch primary source arms span =>
      intro st xs st' h before after
      obtain ⟨⟨prelude, value⟩, t, hl, h⟩ := Yields.bind_iff.1 h
      have hlift : LiftAccount guards source st (prelude, value) t := liftAccount hl
      rw [statementsLandmarks]
      cases value with
      | none =>
        obtain ⟨rfl, rfl⟩ := Yields.pure_iff.1 h
        rw [if_pos hlift.always, List.append_nil]
        exact .of_lift hlift _ _
      | some e =>
        obtain ⟨body, t₁, hbody, h⟩ := Yields.bind_iff.1 h
        obtain ⟨cases, t₂, hcases, h⟩ := Yields.bind_iff.1 h
        obtain ⟨m, t₃, hm, h⟩ := Yields.bind_iff.1 h
        obtain ⟨rfl, rfl⟩ := Yields.pure_iff.1 h
        obtain ⟨hheads, harms⟩ := accounts_lowerArms arms hcases
        rw [if_neg hlift.not_always, Lowered.sightsOf_append]
        exact (Written.of_lift hlift _ _).append (.closeMatch (hr hbody [] []) harms hheads hm _ _)
    | conditional c => exact .andThen (accounts_lowerConditional .discard c) hr
    | whileLoop test body span =>
      exact .andThen (.loop (.whileLoop (.expr test)) (accounts_lowerBlock .discard body) fun _ _ _ => rfl) hr
    | forLoop target iterable body span =>
      refine .andThen ?_ hr
      intro st xs st' h before after
      obtain ⟨⟨prelude, value⟩, t, hl, h⟩ := Yields.bind_iff.1 h
      have hlift : LiftAccount guards iterable st (prelude, value) t := liftAccount hl
      cases value with
      | none =>
        obtain ⟨rfl, rfl⟩ := Yields.pure_iff.1 h
        rw [if_pos hlift.always, List.append_nil]
        exact .of_lift hlift _ _
      | some e =>
        obtain ⟨inside, t₁, hinside, h⟩ := Yields.bind_iff.1 h
        obtain ⟨stmts, t₂, hstmts, h⟩ := Yields.bind_iff.1 h
        obtain ⟨rfl, rfl⟩ := Yields.pure_iff.1 h
        rw [if_neg hlift.not_always, Lowered.sightsOf_append]
        refine (Written.of_lift hlift _ _).append ?_
        refine Accounts.loop (.forLoop target e) (accounts_lowerBlock .discard body) (fun _ _ _ => rfl) ?_ _ _
        exact Yields.bind_iff.2 ⟨_, _, hinside, Yields.bind_iff.2 ⟨_, _, hstmts, Yields.pure_iff.2 ⟨rfl, rfl⟩⟩⟩
    | nested sink b span => exact .andThen (.body (fun sink => accounts_lowerBlock sink b) sink) hr

theorem accounts_lowerTail (sink : Sink) (span : Span) : ∀ t : Tail,
    Accounts guards (t.landmarks guards) (lowerTail guards sink span t)
  | .value e => by
    have h : Accounts guards (e.exits ++ if e.alwaysEscapes then [] else [])
      (lowerTail guards sink span (.value e)) := .lift_bind fun v _ => .delivered sink (some v)
    rwa [ite_self, List.append_nil] at h
  | .escape e => .lowerEscape e
  | .conditional c => accounts_lowerConditional sink c
  | .block b => .body (fun sink => accounts_lowerBlock sink b) sink

theorem accounts_lowerArms : ∀ (arms : List Arm) ⦃st cases st'⦄, Yields (lowerArms guards arms) st cases st' →
    cases.map LoweredCase.head = arms.map Arm.head ∧
      Written guards (armsLandmarks guards arms) st (Lowered.sightsOfCases cases) st'
  | [], st, cases, st', h => by
    obtain ⟨rfl, rfl⟩ := Yields.pure_iff.1 h
    exact ⟨rfl, .refl _⟩
  | .mk pattern guard body span shorthand :: rest, st, cases, st', h => by
    obtain ⟨-, stmts, t, cases', hb, ha, rfl⟩ := h.lowerArms_cons
    obtain ⟨hheads, hrest⟩ := accounts_lowerArms rest ha
    refine ⟨?_, ?_⟩
    · rw [List.map_cons, List.map_cons, hheads]
      rfl
    · have hbody := accounts_lowerBlock .discard body hb [] []
      rw [Lowered.sightsOfCases, Lowered.sightsOf_suite]
      exact hbody.append hrest

theorem accounts_lowerConditional (sink : Sink) : ∀ c : Conditional,
    Accounts guards (c.landmarks guards) (lowerConditional guards sink c)
  | .mk bs none span => by
    intro st xs st' h before after
    obtain ⟨stmts, t, hd, hy⟩ := Yields.bind_iff.1 h
    obtain ⟨other, u, ho, hrest⟩ := Yields.bind_iff.1 hy
    obtain ⟨rfl, rfl⟩ := Yields.pure_iff.1 ho
    obtain ⟨hdeliver, rfl⟩ := Yields.delivered_iff.1 hd
    have hother : Written guards [] u (Lowered.sightsOf [] []
        ((if stmts.isEmpty then none else some stmts : Option (List Lowered)).getD [])) u := by
      have hnil : (if stmts.isEmpty then none else some stmts : Option (List Lowered)).getD [] = stmts := by
        cases stmts <;> rfl
      rw [hnil, Lowered.sightsOf_deliver hdeliver]
      exact .refl _
    obtain ⟨later, v, hbranches, hend⟩ := Yields.bind_iff.1 hrest
    obtain ⟨rfl, rfl⟩ := Yields.pure_iff.1 hend
    exact (accounts_lowerBranches sink span bs hother hbranches).conditional hother before after
  | .mk bs (some b) span => by
    intro st xs st' h before after
    obtain ⟨stmts, t, hb, hy⟩ := Yields.bind_iff.1 h
    obtain ⟨other, u, ho, hrest⟩ := Yields.bind_iff.1 hy
    obtain ⟨rfl, rfl⟩ := Yields.pure_iff.1 ho
    have hother : Written guards (b.landmarks guards) st (Lowered.sightsOf [] []
        ((some (Lowered.suite stmts)).getD [])) u := by
      rw [Option.getD_some, Lowered.sightsOf_suite]
      exact accounts_lowerBlock sink b hb [] []
    obtain ⟨later, v, hbranches, hend⟩ := Yields.bind_iff.1 hrest
    obtain ⟨rfl, rfl⟩ := Yields.pure_iff.1 hend
    exact (accounts_lowerBranches sink span bs hother hbranches).conditional hother before after

/-- Branches are lowered after what comes if none is taken; their account includes it. -/
theorem accounts_lowerBranches (sink : Sink) (span : Span) {other : List Landmark}
    {orelse : Option (List Lowered)} {st : State} : ∀ (bs : List Branch) ⦃t later st'⦄,
    Written guards other st (Lowered.sightsOf [] [] (orelse.getD [])) t →
    Yields (lowerBranches guards sink span orelse bs) t later st' →
    ChainWritten guards (branchesLandmarks guards other bs) bs st t later st'
  | [], t, later, st', _, h => by
    obtain ⟨rfl, rfl⟩ := Yields.pure_iff.1 h
    exact .inl ⟨rfl, rfl, rfl⟩
  | .mk test body :: rest, t, later, st', ho, h => by
    obtain ⟨more, t₁, hmore, h⟩ := Yields.bind_iff.1 h
    -- what comes after the branch: the chain of later branches, or else `orelse`
    have hlater : Written guards (branchesLandmarks guards other rest) st
        ((Lowered.branch ((more.map continueWith).getD ([], orelse)).1
          ((more.map continueWith).getD ([], orelse)).2).sights [] []) t₁ := by
      obtain ⟨rfl, rfl, rfl⟩ | ⟨chain, -, rfl, hchain⟩ := accounts_lowerBranches sink span rest ho hmore
      · rw [Lowered.sights_branch]
        simpa [Lowered.sightsOfArms, branchesLandmarks] using ho
      · rw [Option.map_some, Option.getD_some, Lowered.sights_continueWith]
        exact hchain [] []
    generalize (more.map continueWith).getD ([], orelse) = next at h hlater
    obtain ⟨arms, orelse'⟩ := next
    obtain ⟨⟨prelude, value⟩, t₂, hl, h⟩ := Yields.bind_iff.1 h
    have hlift : LiftAccount guards test t₁ (prelude, value) t₂ := liftAccount hl
    rw [branchesLandmarks]
    cases value with
    | none =>
      obtain ⟨rfl, rfl⟩ := Yields.pure_iff.1 h
      refine .inr ⟨prelude, List.cons_ne_nil _ _, rfl, fun before after => ?_⟩
      rw [if_pos hlift.always]
      exact hlater.dropped.append (.of_lift hlift before after)
    | some v =>
      obtain ⟨stmts, t₃, hb, h⟩ := Yields.bind_iff.1 h
      obtain ⟨rfl, rfl⟩ := Yields.pure_iff.1 h
      refine .inr ⟨_, List.cons_ne_nil _ _, rfl, fun before after => ?_⟩
      have hbody := accounts_lowerBlock sink body hb [] []
      rw [if_neg hlift.not_always, Lowered.sightsOf_append]
      have hall := (hlater.lift_first hlift before
        ([Lowered.branch (.mk (.expr v) (Lowered.suite stmts) :: arms) orelse'] ++ after)).append hbody
      simpa [Lowered.sights_branch, Lowered.sightsOfArms] using hall

end

/-- The account of a boundary block that is lowered. -/
theorem written_lower (h : Yields (lower guards sink b) st r st') (before after : List Lowered) :
    Written guards [.boundary b (b.landmarks guards)] st (Lowered.sightsOf before after r.body) st' :=
  Accounts.lower (fun sink => accounts_lowerBlock guards sink b) h before after

end Lowering

end DoBlocks
