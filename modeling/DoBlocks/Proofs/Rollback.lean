import DoBlocks.Proofs.Accepted
import DoBlocks.Proofs.StepProperties

/-!
# Sites that fail

A site that fails leaves nothing behind but the names it has drawn: what was on record before is on
record afterwards, and lowering stands where it stood. No step reads the trace, so whatever is lowered
next comes out as if the site had not been there.
-/

namespace DoBlocks.Lowering

variable {α β : Type}

/-- Whatever the step comes to, it stands where it stood before, and it has not looked at the trace. -/
structure Discreet (m : Lower α) : Prop where
  wrapper (st : State) : (outcome m st).2.wrapper = st.wrapper
  loopDepth (st : State) : (outcome m st).2.loopDepth = st.loopDepth
  blind (st : State) (trace : Trace) : ∃ trace', outcome m { st with trace := trace } =
    ((outcome m st).1, { (outcome m st).2 with trace := trace' })

namespace Discreet

theorem bind {m : Lower α} {f : α → Lower β} (hm : Discreet m) (hf : ∀ a, Discreet (f a)) :
    Discreet (m >>= f) := by
  constructor
  · intro st
    have hw := hm.wrapper st
    rw [outcome_bind]
    generalize outcome m st = r at hw ⊢
    obtain ⟨_ | a, t⟩ := r
    · exact hw
    · exact ((hf a).wrapper t).trans hw
  · intro st
    have hl := hm.loopDepth st
    rw [outcome_bind]
    generalize outcome m st = r at hl ⊢
    obtain ⟨_ | a, t⟩ := r
    · exact hl
    · exact ((hf a).loopDepth t).trans hl
  · intro st trace
    obtain ⟨trace', hb⟩ := hm.blind st trace
    rw [outcome_bind, outcome_bind, hb]
    generalize outcome m st = r
    obtain ⟨_ | a, t⟩ := r
    · exact ⟨trace', rfl⟩
    · exact (hf a).blind t trace'

theorem guardCallee : Discreet guardCallee := by
  constructor
  · intro st
    obtain ⟨⟨names, hstate⟩, -⟩ := st.calling_spec
    rw [outcome_guardCallee, hstate]
  · intro st
    obtain ⟨⟨names, hstate⟩, -⟩ := st.calling_spec
    rw [outcome_guardCallee, hstate]
  · intro st trace
    refine ⟨trace, ?_⟩
    rw [outcome_guardCallee, outcome_guardCallee]
    obtain ⟨names, obligations, wrappers, callee, _, wrapper, loopDepth⟩ := st
    cases callee <;> rfl

/-- What the step inside comes to does not depend on the trace, nor does what surrounds it. -/
theorem withWrapper {m : Lower α} (w : WrapperNames) (hm : Discreet m) : Discreet (withWrapper w m) := by
  refine ⟨fun _ => rfl, fun _ => rfl, fun st trace => ?_⟩
  obtain ⟨trace', hb⟩ := hm.blind { st with wrapper := some w, loopDepth := 0 } trace
  refine ⟨trace', ?_⟩
  show ((outcome m { st with wrapper := some w, loopDepth := 0, trace := trace }).1,
    ({ (outcome m { st with wrapper := some w, loopDepth := 0, trace := trace }).2 with
      wrapper := st.wrapper, loopDepth := st.loopDepth } : State)) = _
  rw [hb]
  rfl

theorem withLoop {m : Lower α} (hm : Discreet m) : Discreet (withLoop m) := by
  refine ⟨fun st => hm.wrapper { st with loopDepth := st.loopDepth + 1 }, fun _ => rfl, fun st trace => ?_⟩
  obtain ⟨trace', hb⟩ := hm.blind { st with loopDepth := st.loopDepth + 1 } trace
  refine ⟨trace', ?_⟩
  show ((outcome m { st with loopDepth := st.loopDepth + 1, trace := trace }).1,
    ({ (outcome m { st with loopDepth := st.loopDepth + 1, trace := trace }).2 with
      loopDepth := st.loopDepth } : State)) = _
  rw [hb]
  rfl

theorem isStepProperty : StepProperty Discreet where
  pure _ := ⟨fun _ => rfl, fun _ => rfl, fun _ trace => ⟨trace, rfl⟩⟩
  throw _ := ⟨fun _ => rfl, fun _ => rfl, fun _ trace => ⟨trace, rfl⟩⟩
  bind := bind
  record {e} _ := ⟨fun _ => rfl, fun _ => rfl, fun _ trace => ⟨trace.record e, rfl⟩⟩
  fresh _ := ⟨fun _ => rfl, fun _ => rfl, fun _ trace => ⟨trace, rfl⟩⟩
  guardCallee := guardCallee
  oblige _ := ⟨fun _ => rfl, fun _ => rfl, fun _ trace => ⟨trace, rfl⟩⟩
  look _ hf := ⟨fun st => (hf st.wrapper st.loopDepth).wrapper st,
    fun st => (hf st.wrapper st.loopDepth).loopDepth st,
    fun st trace => (hf st.wrapper st.loopDepth).blind st trace⟩
  enter hf := ⟨fun st => (hf st.names.wrapper.1).wrapper st.wrapping,
    fun st => (hf st.names.wrapper.1).loopDepth st.wrapping,
    fun st trace => (hf st.names.wrapper.1).blind st.wrapping trace⟩
  withWrapper := withWrapper
  withLoop := withLoop

theorem lower (guards : Bool) (sink : Sink) (b : Block) : Discreet (lower guards sink b) :=
  isStepProperty.lower guards b

theorem lowerSite (guards : Bool) (sink : Sink) (b : Block) : Discreet (lowerSite guards sink b) := by
  have h := lower guards sink b
  constructor
  · intro st
    have hw := h.wrapper st
    rw [outcome_lowerSite]
    unfold settle
    split
    · rename_i hout
      rwa [hout] at hw
    · exact hw
  · intro st
    have hl := h.loopDepth st
    rw [outcome_lowerSite]
    unfold settle
    split
    · rename_i hout
      rwa [hout] at hl
    · exact hl
  · intro st trace
    obtain ⟨trace', hb⟩ := h.blind st trace
    refine ⟨trace', ?_⟩
    rw [outcome_lowerSite, outcome_lowerSite, hb]
    generalize outcome (Lowering.lower guards sink b) st = r
    obtain ⟨(_ | _) | _, _⟩ := r <;> rfl

end Discreet

/-! ### Sites in order -/

/-- Lowers the blocks of sites one after the other, and goes on where one of them fails. -/
def lowerEach (guards : Bool) : List (Sink × Block) → State → List (Except LoweringFailure Result) × State
  | [], st => ([], st)
  | (sink, b) :: rest, st =>
    let (r, t) := outcome (lowerSite guards sink b) st
    let (rs, st') := lowerEach guards rest t
    (r :: rs, st')

variable {guards : Bool}

theorem lowerEach_cons (sink : Sink) (b : Block) (rest : List (Sink × Block)) (st : State) :
    lowerEach guards ((sink, b) :: rest) st =
      ((outcome (lowerSite guards sink b) st).1 ::
          (lowerEach guards rest (outcome (lowerSite guards sink b) st).2).1,
        (lowerEach guards rest (outcome (lowerSite guards sink b) st).2).2) := rfl

theorem lowerEach_append (steps more : List (Sink × Block)) (st : State) :
    lowerEach guards (steps ++ more) st =
      ((lowerEach guards steps st).1 ++ (lowerEach guards more (lowerEach guards steps st).2).1,
        (lowerEach guards more (lowerEach guards steps st).2).2) := by
  induction steps generalizing st with
  | nil => rfl
  | cons step rest ih =>
    obtain ⟨sink, b⟩ := step
    rw [List.cons_append, lowerEach_cons, lowerEach_cons, ih]
    rfl

theorem length_lowerEach (steps : List (Sink × Block)) (st : State) :
    (lowerEach guards steps st).1.length = steps.length := by
  induction steps generalizing st with
  | nil => rfl
  | cons step rest ih => exact congrArg (· + 1) (ih _)

theorem lowerEach_at (before after : List (Sink × Block)) (sink : Sink) (b : Block) (st : State) :
    (lowerEach guards (before ++ (sink, b) :: after) st).1[before.length]? =
      some (outcome (lowerSite guards sink b) (lowerEach guards before st).2).1 := by
  have hlength : (lowerEach guards before st).1.length = before.length := length_lowerEach before st
  rw [lowerEach_append, lowerEach_cons, ← hlength]
  simp

theorem lowerEach_place (steps : List (Sink × Block)) (st : State) :
    (lowerEach guards steps st).2.wrapper = st.wrapper ∧
      (lowerEach guards steps st).2.loopDepth = st.loopDepth := by
  induction steps generalizing st with
  | nil => exact ⟨rfl, rfl⟩
  | cons step rest ih =>
    obtain ⟨sink, b⟩ := step
    have hsite := Discreet.lowerSite guards sink b
    rw [lowerEach_cons]
    exact ⟨(ih _).1.trans (hsite.wrapper st), (ih _).2.trans (hsite.loopDepth st)⟩

theorem lowerEach_blind (steps : List (Sink × Block)) (st : State) (trace : Trace) :
    ∃ trace', lowerEach guards steps { st with trace := trace } =
      ((lowerEach guards steps st).1, { (lowerEach guards steps st).2 with trace := trace' }) := by
  induction steps generalizing st trace with
  | nil => exact ⟨trace, rfl⟩
  | cons step rest ih =>
    obtain ⟨sink, b⟩ := step
    obtain ⟨trace₁, hb⟩ := (Discreet.lowerSite guards sink b).blind st trace
    obtain ⟨trace₂, hrest⟩ := ih (outcome (lowerSite guards sink b) st).2 trace₁
    refine ⟨trace₂, ?_⟩
    rw [lowerEach_cons, lowerEach_cons, hb, hrest]

/-- Lowering has failed with an error that passes the test. -/
def failsWith (test : LoweringError → State → Bool) : Except LoweringFailure Result × State → Bool
  | (.error (.error e), st') => test e st'
  | _ => false

end DoBlocks.Lowering
