import DoBlocks.Proofs.Place
import DoBlocks.Proofs.Simulation

/-!
# What lowered code relies on

Code inside a wrapper relies on the flag of the wrapper being down until it escapes, and code after it
relies on what was there before. `Surroundings` says what holds of the generated names while control
stays inside, and what holds after an escape; `Ends` relates the ends of a program and its code under
such surroundings. In code an escape is a `break` with the flag up.

`Fits` ties the surroundings to a state of lowering. Fresh names can be written without harm, so the
surroundings of a step are surroundings of every later one at the same place.
-/

namespace DoBlocks

open Program

variable {σ V ι α β γ δ : Type}

/-- What is known of the generated names. -/
structure Surroundings (V : Type) where
  /-- Known while control stays inside. -/
  calm : Store V → Prop
  /-- Known after an escape with a value. -/
  escaped : V → Store V → Prop
  /-- Loop control may leave. -/
  free : Prop

/-- How a program and its code end together: with results related by `D`, or by the same exit. -/
inductive Ends (C : Surroundings V) (D : α → β → Store V → Prop) : Post V V α β
  | ok {a : α} {b : β} {H : Store V} : D a b H → Ends C D (.ok a) (.ok b) H
  | break {H : Store V} : C.free → C.calm H → Ends C D (.error .break) (.error .break) H
  | continue {H : Store V} : C.free → C.calm H → Ends C D (.error .continue) (.error .continue) H
  | return {v : V} {H : Store V} : Ends C D (.error (.return v)) (.error (.return v)) H
  | raise {v : V} {H : Store V} : Ends C D (.error (.raise v)) (.error (.raise v)) H
  | escape {v : V} {H : Store V} : C.escaped v H → Ends C D (.error (.escape v)) (.error .break) H

namespace Surroundings

variable (C : Surroundings V)

/-- Two equal results, and control stayed inside. -/
def Same (a b : α) (H : Store V) : Prop := a = b ∧ C.calm H

/-- Control stayed inside. -/
def Calm (_ : α) (_ : β) (H : Store V) : Prop := C.calm H

end Surroundings

/-- There is no result. -/
def Never (_ : α) (_ : β) (_ : Store V) : Prop := False

namespace Simulates

variable {C : Surroundings V} {H : Store V} {D : α → β → Store V → Prop}
  {D' : γ → δ → Store V → Prop} {m : Program σ V V α} {c : Code σ V β} {f : α → Program σ V V γ}
  {g : β → Code σ V δ}

theorem mono_ends {D' : α → β → Store V → Prop} (h : Simulates m c H (Ends C D))
    (hD : ∀ {a b H'}, D a b H' → D' a b H') : Simulates m c H (Ends C D') :=
  h.mono fun hq => by
    cases hq with
    | ok hd => exact .ok (hD hd)
    | «break» hf hc => exact .break hf hc
    | «continue» hf hc => exact .continue hf hc
    | «return» => exact .return
    | raise => exact .raise
    | escape he => exact .escape he

/-- Programs in a row: an exit of the first one is the end. -/
theorem andThen (h : Simulates m c H (Ends C D))
    (hf : ∀ {a b H'}, D a b H' → Simulates (f a) (g b) H' (Ends C D')) :
    Simulates (m >>= f) (c >>= g) H (Ends C D') :=
  h.bind fun _ _ _ hq => by
    cases hq with
    | ok hd => exact hf hd
    | «break» hf hc => exact .leave (.break hf hc)
    | «continue» hf hc => exact .leave (.continue hf hc)
    | «return» => exact .leave .return
    | raise => exact .leave .raise
    | escape he => exact .leave (.escape he)

/-- After code that has no result nothing is needed. -/
theorem noResult (h : Simulates m c H (Ends C Never)) {D' : γ → β → Store V → Prop} :
    Simulates (m >>= f) c H (Ends C D') := by
  have h : Simulates (m >>= f) (c >>= pure) H (Ends C D') := h.andThen fun hd => hd.elim
  rwa [bind_pure] at h

/-- An action of the host gives program and code the same result. -/
theorem action_same {a : Action σ V α} (hH : C.calm H) :
    Simulates a.run (onUser a.run) H (Ends C C.Same) :=
  action (fun _ => .ok ⟨rfl, hH⟩) fun _ => .raise

end Simulates

namespace Lowering

variable {sink : Sink} {e : Expr} {main stmts : List Lowered}

/-- Surroundings that a step of lowering started in `st` may rely on. -/
structure Fits (I : Interpretation σ V ι) (C : Surroundings V) (st : State) : Prop where
  /-- Names that are not in use can be written. -/
  write : ∀ {H name v}, name ∉ st.names.reserved → C.calm H → C.calm (H.write name v)
  /-- The flag of the wrapper is down until there is an escape. -/
  flag_down : ∀ {w H}, st.wrapper = some w → C.calm H →
    H w.exit.render = some (I.constant .false)
  flag_up : ∀ {w v H}, st.wrapper = some w → C.escaped v H →
    H w.exit.render = some (I.constant .true)
  /-- An escape fills the result slot and puts the flag up. -/
  escape : ∀ {w v H}, st.wrapper = some w → C.calm H →
    C.escaped v ((H.write w.result.render v).write w.exit.render (I.constant .true))
  /-- Without a wrapper there is no escape. -/
  none : ∀ {v H}, st.wrapper = none → ¬ C.escaped v H
  free : C.free ↔ st.Free

variable {I : Interpretation σ V ι} {C : Surroundings V} {st st' : State}

theorem Fits.extends (h : Fits I C st) (he : Extends st st') : Fits I C st' where
  write hn := h.write fun hm => hn (he.reserved hm)
  flag_down h' := h.flag_down (he.wrapper ▸ h')
  flag_up h' := h.flag_up (he.wrapper ▸ h')
  escape h' := h.escape (he.wrapper ▸ h')
  none h' := h.none (he.wrapper ▸ h')
  free := by
    rw [h.free, State.Free, State.Free, he.wrapper, he.loopDepth]

theorem Fits.fresh (h : Fits I C st) (role : String) :
    Fits I C { st with names := (st.names.fresh role).2 } :=
  h.extends ⟨rfl, rfl, List.subset_cons_self _ _⟩

/-- Inside a host loop, loop control is free. -/
theorem Fits.loop (h : Fits I C st) (n : Nat) :
    Fits I { C with free := True } { st with loopDepth := n + 1 } :=
  { h with free := iff_of_true trivial fun _ => Nat.succ_pos n }

/-! ### Delivery -/

/-- What lowered code does with a value for a destination. -/
def place (I : Interpretation σ V ι) (d : Destination) (v : V) : Code σ V Unit :=
  match d with
  | .assign targets => I.writeTargets v targets
  | .return => leave (.return v)
  | .discard => pure ()

/-- How lowered code raises the flag of a sink. -/
def raiseFlag (I : Interpretation σ V ι) (flag : Option Name) : Code σ V Unit :=
  match flag with
  | none => pure ()
  | some name => if name.render.isEmpty then pure () else I.setName name (I.constant .true)

theorem execAll_placed (h : placed sink (some e) = .ok main) :
    I.execAll main = I.evalExpr e >>= place I sink.destination := by
  obtain ⟨destination, exitFlag⟩ := sink
  cases destination with
  | assign targets =>
    unfold placed at h
    simp only [Option.isNone_some, Bool.false_and, Bool.false_eq_true, if_false] at h
    split at h
    · cases h
    · cases h
      exact I.execAll_singleton _
  | «return» =>
    cases h
    exact I.execAll_singleton _
  | discard =>
    cases h
    exact I.execAll_singleton _

/-- Without a flag a missing value is `None`. -/
theorem execAll_placed_none (hf : sink.exitFlag = none) (h : placed sink none = .ok main) :
    I.execAll main = place I sink.destination (I.constant .none) := by
  obtain ⟨destination, exitFlag⟩ := sink
  subst hf
  cases destination with
  | assign targets =>
    unfold placed at h
    simp only [Option.isSome_none, Bool.and_false, Bool.false_eq_true, if_false] at h
    split at h
    · cases h
    · cases h
      exact (I.execAll_singleton _).trans (pure_bind _ _)
  | «return» =>
    cases h
    exact I.execAll_singleton _
  | discard =>
    cases h
    rfl

theorem execAll_flagged {flag : Option Name} (h : flagged flag main = .ok stmts) :
    I.execAll stmts = I.execAll main >>= fun _ => raiseFlag I flag := by
  cases flag with
  | none =>
    cases h
    exact bind_pure_unit.symm
  | some name =>
    simp only [flagged] at h
    simp only [raiseFlag]
    split at h
    · cases h
      rw [if_pos ‹_›, bind_pure_unit]
    · split at h
      · cases h
        rw [if_neg ‹_›, I.execAll_append, I.execAll_singleton]
        exact congrArg _ (funext fun _ => pure_bind _ _)
      · cases h

/-- What lowered code does with a value for a sink. -/
def delivery (I : Interpretation σ V ι) (sink : Sink) (v : V) : Code σ V Unit :=
  place I sink.destination v >>= fun _ => raiseFlag I sink.exitFlag

theorem execAll_deliver (h : deliver sink (some e) = .ok stmts) :
    I.execAll stmts = I.evalExpr e >>= delivery I sink := by
  obtain ⟨main, hp, hf⟩ := deliver_eq_ok h
  rw [execAll_flagged hf, execAll_placed hp, bind_assoc]
  rfl

/-- Under the surroundings, what code does for a sink with a value is `K`, and so is what it does
without one for `None`. -/
structure Delivers (I : Interpretation σ V ι) (C : Surroundings V) (sink : Sink)
    (K : V → Program σ V V α) (D : α → Unit → Store V → Prop) : Prop where
  value : ∀ {v H}, C.calm H → Simulates (K v) (delivery I sink v) H (Ends C D)
  missing : ∀ {stmts H}, deliver sink none = .ok stmts → C.calm H →
    Simulates (K (I.constant .none)) (I.execAll stmts) H (Ends C D)
  discard : sink.isDiscard = true → sink.exitFlag = none

theorem delivery_of_noFlag (h : sink.exitFlag = none) (v : V) :
    delivery I sink v = place I sink.destination v := by
  rw [delivery, h]
  exact bind_pure_unit

namespace Delivers

/-- A sink without flag delivers if its destination can take the value. -/
theorem of_noFlag {sink : Sink} {K : V → Program σ V V α} {D : α → Unit → Store V → Prop}
    (hf : sink.exitFlag = none)
    (h : ∀ {v H}, C.calm H → Simulates (K v) (place I sink.destination v) H (Ends C D)) :
    Delivers I C sink K D where
  value hH := by
    rw [delivery_of_noFlag hf]
    exact h hH
  missing hs hH := by
    obtain ⟨main, hp, hm⟩ := deliver_eq_ok hs
    rw [hf] at hm
    cases hm
    rw [execAll_placed_none hf hp]
    exact h hH
  discard _ := hf

protected theorem discarding {D : Unit → Unit → Store V → Prop} (hD : ∀ {H}, C.calm H → D () () H) :
    Delivers I C .discard (fun _ => pure ()) D :=
  of_noFlag rfl fun hH => .pure (.ok (hD hH))

/-- Targets of the user are assigned as they are; generated names among them are not the user's. -/
theorem assignTargets {P : Store V → Prop} {targets : List Target} {v : V} {H : Store V}
    (hP : ∀ {name H}, Target.hidden name ∈ targets → P H → P (H.write name.render v)) (hH : P H) :
    Simulates (I.assignTargets v targets) (I.writeTargets v targets) H
      (Ends C fun _ _ H => P H) := by
  induction targets generalizing H with
  | nil => exact .pure (.ok hH)
  | cons t rest ih =>
    have ih {H : Store V} (hH : P H) := ih (fun hm => hP (.tail _ hm)) hH
    cases t with
    | written text =>
      have h : Simulates (I.assign text v).run (onUser (I.assign text v).run) H
        (Ends C fun _ _ H => P H) := .action (fun _ => .ok hH) fun _ => .raise
      exact h.andThen fun hH => ih hH
    | hidden name => exact .write (ih (hP (.head _) hH))

/-- A sink without flag hands over the value; what it writes to generated names must keep `P`. -/
theorem hand {sink : Sink} {P : Store V → Prop} (hf : sink.exitFlag = none)
    (hC : ∀ {H}, C.calm H → P H)
    (hP : ∀ {name targets v H}, sink.destination = .assign targets → Target.hidden name ∈ targets →
      P H → P (H.write name.render v)) :
    Delivers I C sink (I.hand sink) fun _ _ H => P H := by
  obtain ⟨destination, exitFlag⟩ := sink
  refine of_noFlag hf fun hH => ?_
  cases destination with
  | assign targets => exact assignTargets (hP rfl) (hC hH)
  | «return» => exact .leave .return
  | discard => exact .pure (.ok (hC hH))

/-- A sink that returns the value never comes to a result. -/
theorem returning {sink : Sink} {D : Unit → Unit → Store V → Prop} (hf : sink.exitFlag = none)
    (hr : sink.isReturn = true) : Delivers I C sink (I.hand sink) D := by
  obtain ⟨destination, exitFlag⟩ := sink
  obtain rfl : destination = .return := by simpa [Sink.isReturn] using hr
  exact of_noFlag hf fun hH => .leave .return

/-- The sink inside a wrapper stores the value in the result slot and raises the flag. A missing value
leaves the slot as it is. -/
theorem inner {w : WrapperNames} {D : V → Unit → Store V → Prop} (hw : w.exit.isValid = true)
    (hv : ∀ {v H}, C.calm H →
      D v () ((H.write w.result.render v).write w.exit.render (I.constant .true)))
    (hn : ∀ {H}, C.calm H → D (I.constant .none) () (H.write w.exit.render (I.constant .true))) :
    Delivers I C (innerSink w) pure D := by
  have hne : ¬ (Name.hidden w.exit).render.isEmpty = true := fun h => by
    have h : w.exit.render = "" := String.isEmpty_iff.1 h
    rw [HiddenName.isValid, h] at hw
    exact absurd hw (by decide)
  have hflag : raiseFlag I (some (.hidden w.exit)) =
      (write w.exit (I.constant .true) : Code σ V Unit) := if_neg hne
  have up {v : V} {H : Store V} (h : D v () (H.write w.exit.render (I.constant .true))) :
      Simulates (σ := σ) (pure v) (write w.exit (I.constant .true)) H (Ends C D) := by
    rw [← bind_pure (write _ _)]
    exact .write (.pure (.ok h))
  refine ⟨fun {v H} hH => ?_, fun {stmts H} hs hH => ?_, fun h => by cases h⟩
  · change Simulates _ ((write w.result v >>= fun _ => pure ()) >>= fun _ =>
      raiseFlag I (some (.hidden w.exit))) H _
    rw [bind_assoc, hflag]
    refine .write ?_
    rw [pure_bind]
    exact up (hv hH)
  · obtain ⟨main, hp, hf⟩ := deliver_eq_ok hs
    cases hp
    rw [execAll_flagged hf]
    change Simulates _ (pure () >>= fun _ => raiseFlag I (some (.hidden w.exit))) H _
    rw [pure_bind, hflag]
    exact up (hn hH)

end Delivers

/-! ### Wrappers -/

/-- The surroundings inside a wrapper: until there is a value, the slot is empty and the flag down. -/
def inside (I : Interpretation σ V ι) (C : Surroundings V) (w : WrapperNames) : Surroundings V where
  calm H := C.calm H ∧ H w.result.render = some (I.constant .none) ∧
    H w.exit.render = some (I.constant .false)
  escaped v H := C.calm H ∧ H w.result.render = some v ∧ H w.exit.render = some (I.constant .true)
  free := False

variable {t : State} {w : WrapperNames}

/-- The names of a new wrapper can be written. -/
theorem Fits.enter (h : Fits I C st) (hw : w = st.names.wrapper.1) {H : Store V} (hH : C.calm H)
    (v v' : V) : C.calm ((H.write w.result.render v).write w.exit.render v') := by
  subst hw
  exact h.write st.names.wrapper_exit_notMem_reserved
    (h.write st.names.wrapper_result_notMem_reserved hH)

theorem read_slot (hw : w = st.names.wrapper.1) (H : Store V) (v v' : V) :
    ((H.write w.result.render v).write w.exit.render v') w.result.render = some v := by
  subst hw
  rw [Store.write_ne st.names.wrapper_result_ne_exit, Store.write_self]

theorem Fits.inside (h : Fits I C st) (hw : w = st.names.wrapper.1)
    (hn : t.names = st.names.wrapper.2) (ht : t.wrapper = some w) (hl : t.loopDepth = 0) :
    Fits I (inside I C w) t where
  write {H name v} hname hH := by
    rw [hn, Allocator.reserved_wrapper, ← hw, List.mem_cons, List.mem_cons] at hname
    push Not at hname
    obtain ⟨hr, he, hname⟩ := hname
    refine ⟨h.write hname hH.1, ?_, ?_⟩
    · rw [Store.write_ne hr.symm]
      exact hH.2.1
    · rw [Store.write_ne he.symm]
      exact hH.2.2
  flag_down h' hH := by
    obtain rfl := Option.some.inj (ht.symm.trans h')
    exact hH.2.2
  flag_up h' hH := by
    obtain rfl := Option.some.inj (ht.symm.trans h')
    exact hH.2.2
  escape h' hH := by
    obtain rfl := Option.some.inj (ht.symm.trans h')
    exact ⟨h.enter hw hH.1 _ _, read_slot hw _ _ _, Store.write_self _ _ _⟩
  none h' := by
    rw [ht] at h'
    cases h'
  free := iff_of_false id fun h => absurd (h (by rw [ht]; rfl)) (by omega)

theorem Delivers.inside (h : Fits I C st) (hw : w = st.names.wrapper.1)
    (he : w.exit.isValid = true) :
    Delivers I (inside I C w) (innerSink w) pure
      fun v _ H => (Lowering.inside I C w).escaped v H := by
  refine .inner he (fun hH => ?_) fun {H} hH => ?_
  · exact ⟨h.enter hw hH.1 _ _, read_slot hw _ _ _, Store.write_self _ _ _⟩
  · subst hw
    refine ⟨h.write st.names.wrapper_exit_notMem_reserved hH.1, ?_, Store.write_self _ _ _⟩
    rw [Store.write_ne st.names.wrapper_result_ne_exit]
    exact hH.2.1

end Lowering

end DoBlocks
