import DoBlocks.Lowering
import DoBlocks.Proofs.Steps
import DoBlocks.Proofs.WellFormed

/-!
# The steps of lowering

What each step of lowering has done when it succeeds.
-/

namespace DoBlocks

namespace Lowering

variable {sink : Sink} {value : Option Expr} {stmts : List Lowered}

/-- The statements that leave a wrapper with a value. -/
def leaveWrapper (w : WrapperNames) (v : Expr) : List Lowered :=
  [.set (.hidden w.result) (.expr v), .set (.hidden w.exit) (.constant .true), .break]

/-- Loop control does not act on a wrapper. -/
def State.Free (st : State) : Prop := st.wrapper.isSome = true → 0 < st.loopDepth

theorem isCovered_cons (pattern : Pattern) (guard : Option Expr) (body : List Lowered)
    (cases : List LoweredCase) :
    isCovered (.mk pattern guard body :: cases) =
      (pattern.irrefutable && guard.isNone || isCovered cases) := rfl

/-! ### Delivery -/

/-- The statement that takes the value to its destination. -/
def placed (sink : Sink) (value : Option Expr) : Except LoweringFailure (List Lowered) :=
  match sink.destination with
  | .assign targets =>
    if value.isNone && sink.exitFlag.isSome then pure []
    else if targets.isEmpty then throw .spelling
    else pure [.assign targets ((value.map Value.expr).getD (.constant .none))]
  | .return => pure [.return value]
  | .discard => pure (value.map Lowered.evaluate).toList

/-- Statements followed by the one that raises the flag. -/
def flagged (flag : Option Name) (main : List Lowered) : Except LoweringFailure (List Lowered) :=
  match flag with
  | none => return main
  | some name =>
    if name.render.isEmpty then return main
    else if name.isValid then return main ++ [.set name (.constant .true)]
    else throw .spelling

theorem deliver_eq (sink : Sink) (value : Option Expr) :
    deliver sink value = placed sink value >>= flagged sink.exitFlag := by
  obtain ⟨destination, exitFlag⟩ := sink
  cases destination with
  | assign targets =>
    unfold deliver placed
    dsimp only
    split
    · rfl
    · split <;> rfl
  | «return» => rfl
  | discard => rfl

theorem deliver_eq_ok (h : deliver sink value = .ok stmts) :
    ∃ main, placed sink value = .ok main ∧ flagged sink.exitFlag main = .ok stmts := by
  rw [deliver_eq] at h
  cases hp : placed sink value with
  | error e =>
    rw [hp] at h
    cases h
  | ok main =>
    rw [hp] at h
    exact ⟨main, rfl, h⟩

/-- What delivery can write: at most one statement for the destination, and at most one for the flag. -/
theorem deliver_cases (h : deliver sink value = .ok stmts) :
    ∃ main flag, stmts = main ++ flag ∧
      (main = [] ∨ main = [.return value] ∨ (∃ v, value = some v ∧ main = [.evaluate v]) ∨
        ∃ targets, sink.destination = .assign targets ∧
          main = [.assign targets ((value.map Value.expr).getD (.constant .none))]) ∧
      (flag = [] ∨ ∃ name, sink.exitFlag = some name ∧ flag = [.set name (.constant .true)]) := by
  obtain ⟨main, hp, hf⟩ := deliver_eq_ok h
  have hmain : main = [] ∨ main = [.return value] ∨ (∃ v, value = some v ∧ main = [.evaluate v]) ∨
      ∃ targets, sink.destination = .assign targets ∧
        main = [.assign targets ((value.map Value.expr).getD (.constant .none))] := by
    unfold placed at hp
    split at hp
    · rename_i targets hd
      split at hp
      · cases hp
        exact .inl rfl
      · split at hp
        · cases hp
        · cases hp
          exact .inr (.inr (.inr ⟨targets, hd, rfl⟩))
    · cases hp
      exact .inr (.inl rfl)
    · cases hp
      cases value with
      | none => exact .inl rfl
      | some v => exact .inr (.inr (.inl ⟨v, rfl, rfl⟩))
  unfold flagged at hf
  split at hf
  · cases hf
    exact ⟨stmts, [], by simp, hmain, .inl rfl⟩
  · rename_i name hname
    split at hf
    · cases hf
      exact ⟨stmts, [], by simp, hmain, .inl rfl⟩
    · split at hf
      · cases hf
        exact ⟨main, _, rfl, hmain, .inr ⟨name, hname, rfl⟩⟩
      · cases hf

/-! ### Catch-alls -/

/-- The state in which the function of the catch-alls has a name, and that name. -/
def State.calling (st : State) : HiddenName × State :=
  match st.callee with
  | some c => (c, st)
  | none => ((st.names.fresh "assert_never").1, { st with
      names := (st.names.fresh "assert_never").2
      callee := some (st.names.fresh "assert_never").1 })

theorem State.calling_spec (st : State) :
    (∃ names, st.calling.2 = { st with names := names, callee := some st.calling.1 }) ∧
      ∀ c, st.callee = some c → c = st.calling.1 := by
  unfold State.calling
  split
  · rename_i c hc
    refine ⟨⟨st.names, ?_⟩, fun c' h => ?_⟩
    · rw [← hc]
    · exact Option.some.inj (h.symm.trans hc)
  · rename_i hc
    refine ⟨⟨_, rfl⟩, fun c h => ?_⟩
    rw [hc] at h
    cases h

theorem outcome_guardCallee (st : State) : outcome guardCallee st = (.ok st.calling.1, st.calling.2) := by
  unfold guardCallee State.calling
  rw [outcome_bind]
  change outcome (match st.callee with
    | some c => pure c
    | none => _) st = _
  cases st.callee <;> rfl

/-- The event of a match that gets a catch-all. -/
def guardedEvent (e : Expr) (subject : HiddenName) : Event :=
  .inspection e.surface.plain "guarded" s!"catch-all binds {subject.render}"

/-- How a match is closed with a catch-all. -/
theorem outcome_closeMatch {e : Expr} {cases : List LoweredCase} (hc : isCovered cases = false)
    (span : Span) (st : State) :
    outcome (closeMatch true e cases span) st =
      let (subject, names) := st.names.fresh "unmatched"
      let (callee, t) := State.calling { st with names := names }
      if callee.isValid && subject.isValid then
        (.ok (.matchOn e cases (some ⟨callee, subject⟩)), { t with
          obligations := t.obligations ++ [⟨subject, span⟩]
          trace := t.trace.record (guardedEvent e subject) })
      else (.error .spelling, t) := by
  unfold closeMatch
  rw [if_neg (by rw [hc]; decide), if_neg (by decide), outcome_bind]
  change outcome (guardCallee >>= _) { st with names := (st.names.fresh "unmatched").2 } = _
  rw [outcome_bind, outcome_guardCallee]
  have hrest (subject callee : HiddenName) (t : State) : outcome (do
      require (callee.isValid && subject.isValid)
      modify fun st => { st with obligations := st.obligations ++ [⟨subject, span⟩] }
      record (guardedEvent e subject)
      return Lowered.matchOn e cases (some ⟨callee, subject⟩)) t =
      if callee.isValid && subject.isValid then
        (.ok (.matchOn e cases (some ⟨callee, subject⟩)), { t with
          obligations := t.obligations ++ [⟨subject, span⟩]
          trace := t.trace.record (guardedEvent e subject) })
      else (.error .spelling, t) := by
    cases callee.isValid && subject.isValid <;> rfl
  exact hrest _ _ _

/-! ### Wrappers -/

/-- What a boundary block that owns an escape comes to once its wrapper `w` has its names. -/
def inWrapper (w : WrapperNames) (span : Span) (sink : Sink) (inside : Sink → Lower (List Lowered)) :
    Lower Result := do
  record (.wrapperAllocated w.result.render w.exit.render)
  require (w.result.isValid && w.exit.isValid)
  let tree ← withWrapper w (inside (innerSink w))
  let after ← if sink.isDiscard then pure [] else delivered sink (some (.hidden w.result))
  record (.blockLowered span.render true sink.destination.render)
  return ⟨[.set (.hidden w.result) (.constant .none), .set (.hidden w.exit) (.constant .false),
    .whileLoop (.not w.exit) (Lowered.suite tree)] ++ after, sink, some w⟩

/-- The state in which a new wrapper has its names. -/
def State.wrapping (st : State) : State :=
  { st with names := st.names.wrapper.2, wrappers := st.wrappers ++ [st.names.wrapper.1] }

theorem outcome_boundary (span : Span) (sink : Sink) (inside : Sink → Lower (List Lowered)) (st : State) :
    outcome (boundary true span sink inside) st =
      outcome (inWrapper st.names.wrapper.1 span sink inside) st.wrapping := rfl

/-- What a site comes to that was lowered from `st`: if it failed, nothing of it stays on record. -/
def settle (st : State) : Except LoweringFailure Result × State → Except LoweringFailure Result × State
  | (.error (.error e), st') =>
    (.error (.error e), { st' with obligations := st.obligations, wrappers := st.wrappers })
  | r => r

theorem outcome_lowerSite (guards : Bool) (sink : Sink) (b : Block) (st : State) :
    outcome (lowerSite guards sink b) st = settle st (outcome (lower guards sink b) st) := rfl

end Lowering

namespace Yields

open Lowering

variable {α : Type} {st st' : State} {a : α} {span : Span} {stmts : List Lowered}
variable {u : Unit} {e v : Expr} {sink : Sink} {w : WrapperNames} {m : Lower α} {inside : Sink → Lower (List Lowered)}
  {r : Result} {p : List Lowered × Option Expr} {text opening closing : Host.Surface} {s : Simple}
  {escapes guards : Bool} {cases : List LoweredCase} {arms : List Arm}

theorem not_fail {fault : LoweringFault} {span : Span} :
    ¬ Yields (fail fault span : Lower α) st a st' := not_throw

theorem require_iff {c : Bool} :
    Yields (require c) st u st' ↔ c = true ∧ st' = st := by
  unfold require
  split
  · simp [pure_iff, *]
  · simp [not_throw, *]

theorem fresh_iff {role : String} {name : HiddenName} :
    Yields (fresh role) st name st' ↔
      name = (st.names.fresh role).1 ∧ st' = { st with names := (st.names.fresh role).2 } := by
  unfold fresh
  simp only [bind_iff, get_iff, modify_iff, pure_iff]
  constructor
  · rintro ⟨_, _, ⟨rfl, rfl⟩, _, _, rfl, rfl, rfl⟩
    exact ⟨rfl, rfl⟩
  · rintro ⟨rfl, rfl⟩
    exact ⟨_, _, ⟨rfl, rfl⟩, ⟨⟩, _, rfl, rfl, rfl⟩

theorem record_iff {e : Event} :
    Yields (record e) st u st' ↔ st' = { st with trace := st.trace.record e } := modify_iff

theorem delivered_iff {value : Option Expr} {stmts : List Lowered} :
    Yields (delivered sink value) st stmts st' ↔ deliver sink value = .ok stmts ∧ st' = st := by
  unfold delivered
  cases deliver sink value with
  | ok stmts' => simp [pure_iff, eq_comm]
  | error e => simp [not_throw]

theorem escapeTo_iff {span : Span} {stmts : List Lowered} :
    Yields (escapeTo span v) st stmts st' ↔
      ∃ w, st.wrapper = some w ∧ stmts = leaveWrapper w v ∧ st' = st := by
  unfold escapeTo
  simp only [bind_iff, get_iff]
  constructor
  · rintro ⟨_, _, ⟨rfl, rfl⟩, h⟩
    split at h
    · exact absurd h not_fail
    · obtain ⟨rfl, rfl⟩ := pure_iff.1 h
      exact ⟨_, ‹_›, rfl, rfl⟩
  · rintro ⟨w, hw, rfl, rfl⟩
    refine ⟨_, _, ⟨rfl, rfl⟩, ?_⟩
    simp only [hw]
    exact pure_iff.2 ⟨rfl, rfl⟩

theorem withWrapper_iff :
    Yields (withWrapper w m) st a st' ↔
      ∃ t, Yields m { st with wrapper := some w, loopDepth := 0 } a t ∧
        st' = { t with wrapper := st.wrapper, loopDepth := st.loopDepth } := by
  change (let (r, t) := outcome m { st with wrapper := some w, loopDepth := 0 }
    (r, { t with wrapper := st.wrapper, loopDepth := st.loopDepth })) = _ ↔ _
  unfold Yields
  obtain ⟨r, t⟩ := outcome m { st with wrapper := some w, loopDepth := 0 }
  constructor
  · intro h
    cases h
    exact ⟨t, rfl, rfl⟩
  · rintro ⟨_, h, rfl⟩
    cases h
    rfl

theorem withLoop_iff :
    Yields (withLoop m) st a st' ↔
      ∃ t, Yields m { st with loopDepth := st.loopDepth + 1 } a t ∧
        st' = { t with loopDepth := st.loopDepth } := by
  change (let (r, t) := outcome m { st with loopDepth := st.loopDepth + 1 }
    (r, { t with loopDepth := st.loopDepth })) = _ ↔ _
  unfold Yields
  obtain ⟨r, t⟩ := outcome m { st with loopDepth := st.loopDepth + 1 }
  constructor
  · intro h
    cases h
    exact ⟨t, rfl, rfl⟩
  · rintro ⟨_, h, rfl⟩
    cases h
    rfl

/-- A boundary block without escapes is lowered at its place, after an event. -/
theorem boundary_false_steps {span : Span} (h : Yields (boundary false span sink inside) st r st') :
    ∃ trace, Yields (inside sink) { st with trace := trace } r.body st' ∧ r.wrapper = none := by
  unfold boundary at h
  simp only [Bool.not_false, if_true, bind_iff, record_iff, pure_iff] at h
  obtain ⟨_, _, rfl, body, _, hy, rfl, rfl⟩ := h
  exact ⟨_, hy, rfl⟩

/-- A boundary block without escapes is lowered at its place. -/
theorem boundary_false {span : Span} (h : Yields (boundary false span sink inside) st r st') :
    ∃ t, Yields (inside sink) t r.body st' ∧
      t.names = st.names ∧ t.wrapper = st.wrapper ∧ t.loopDepth = st.loopDepth := by
  obtain ⟨trace, hy, -⟩ := h.boundary_false_steps
  exact ⟨_, hy, rfl, rfl, rfl⟩

/-- Inside its wrapper a block is lowered with nothing around it; afterwards the result slot is delivered
to the sink, if that wants a value. -/
theorem inWrapper_steps {span : Span} (h : Yields (inWrapper w span sink inside) st r st') :
    ∃ trace t trace' tree after,
      Yields (inside (innerSink w)) { st with trace := trace, wrapper := some w, loopDepth := 0 } tree t ∧
      w.result.isValid = true ∧ w.exit.isValid = true ∧
      (if sink.isDiscard then after = []
        else deliver sink (some (.hidden w.result)) = .ok after) ∧
      r.body = [.set (.hidden w.result) (.constant .none), .set (.hidden w.exit) (.constant .false),
        .whileLoop (.not w.exit) (Lowered.suite tree)] ++ after ∧ r.wrapper = some w ∧
      st' = { t with trace := trace', wrapper := st.wrapper, loopDepth := st.loopDepth } := by
  unfold inWrapper at h
  simp only [bind_iff, record_iff, require_iff, Bool.and_eq_true, withWrapper_iff] at h
  obtain ⟨_, _, rfl, _, _, ⟨⟨hr, he⟩, rfl⟩, tree, _, ⟨t, hy, rfl⟩, h⟩ := h
  split at h
  · rename_i hd
    simp only [bind_iff, pure_iff, record_iff] at h
    obtain ⟨_, _, ⟨rfl, rfl⟩, _, _, rfl, rfl, rfl⟩ := h
    exact ⟨_, t, _, tree, [], hy, hr, he, by rw [if_pos hd], rfl, rfl, rfl⟩
  · rename_i hd
    simp only [bind_iff, pure_iff, record_iff, delivered_iff] at h
    obtain ⟨after, _, ⟨ha, rfl⟩, _, _, rfl, rfl, rfl⟩ := h
    exact ⟨_, t, _, tree, after, hy, hr, he, by rwa [if_neg hd], rfl, rfl, rfl⟩

/-- A boundary block with escapes is lowered inside a new wrapper. -/
theorem boundary_true {span : Span} (h : Yields (boundary true span sink inside) st r st') :
    ∃ w t t' tree after, Yields (inside (innerSink w)) t tree t' ∧
      w = st.names.wrapper.1 ∧ w.result.isValid = true ∧ w.exit.isValid = true ∧
      t.names = st.names.wrapper.2 ∧ t.wrapper = some w ∧ t.loopDepth = 0 ∧
      (if sink.isDiscard then after = []
        else deliver sink (some (.hidden w.result)) = .ok after) ∧
      r.body = [.set (.hidden w.result) (.constant .none), .set (.hidden w.exit) (.constant .false),
        .whileLoop (.not w.exit) (Lowered.suite tree)] ++ after ∧
      st'.names = t'.names ∧ st'.wrapper = st.wrapper ∧ st'.loopDepth = st.loopDepth := by
  have h : Yields (inWrapper st.names.wrapper.1 span sink inside) st.wrapping r st' := h
  obtain ⟨_, t, _, tree, after, hy, hr, he, ha, hb, -, rfl⟩ := h.inWrapper_steps
  exact ⟨_, _, t, tree, after, hy, rfl, hr, he, rfl, rfl, rfl, ha, hb, rfl, rfl, rfl⟩

/-! ### Expressions and simple statements -/

/-- Nothing is lifted out of an expression without escapes. -/
theorem lift_of_not_hasEscape (h : Yields (lift span e) st p st') (he : e.hasEscape = false) :
    p = ([], some e) ∧ st' = st := by
  cases e with
  | plain text buried =>
    change Yields (if (Expr.plain text buried).hasEscape = true then _ else _) st p st' at h
    rw [he] at h
    exact pure_iff.1 h
  | hidden name => exact pure_iff.1 h
  | escape text mark operand => cases he
  | logical c opening left before after right closing =>
    rw [Expr.hasEscape_logical, Bool.or_eq_false_iff] at he
    rw [lift, he.1, he.2] at h
    exact pure_iff.1 h
  | conditional opening body ifText test elseText orelse closing =>
    rw [Expr.hasEscape_conditional, Bool.or_eq_false_iff, Bool.or_eq_false_iff] at he
    rw [lift, he.1.1, he.1.2, he.2] at h
    exact pure_iff.1 h

theorem lift_plain {buried : List EscapeMark} (h : Yields (lift span (.plain text buried)) st p st') :
    (Expr.plain text buried).hasEscape = false := by
  change Yields (if (Expr.plain text buried).hasEscape = true then _ else _) st p st' at h
  split at h
  · obtain ⟨_, _, h, -⟩ := bind_iff.1 h
    exact absurd h not_fail
  · exact Bool.eq_false_iff.2 ‹_›

/-- How an escape is lifted. -/
theorem lift_escape {mark : EscapeMark} {operand : Expr} (h : Yields (lift span (.escape text mark operand)) st p st') :
    (∃ prelude, Yields (lift span operand) st (prelude, none) st' ∧ p = (prelude, none)) ∨
      ∃ prelude v w, Yields (lift span operand) st (prelude, some v) st' ∧ st'.wrapper = some w ∧
        p = (prelude ++ leaveWrapper w v, none) := by
  obtain ⟨⟨prelude, value⟩, t, h, h'⟩ := bind_iff.1 h
  cases value with
  | none =>
    obtain ⟨rfl, rfl⟩ := pure_iff.1 h'
    exact .inl ⟨prelude, h, rfl⟩
  | some v =>
    obtain ⟨stmts, t', h', hp⟩ := bind_iff.1 h'
    obtain ⟨rfl, rfl⟩ := pure_iff.1 hp
    obtain ⟨w, hw, rfl, rfl⟩ := escapeTo_iff.1 h'
    exact .inr ⟨prelude, v, w, h, hw, rfl⟩

/-- How a connective with escapes is lifted. -/
theorem lift_logical {c : Connective} {left : Expr} {before after : Host.Surface} {right : Expr}
    (h : Yields (lift span (.logical c opening left before after right closing)) st p st')
    (he : (left.hasEscape || right.hasEscape) = true) :
    (∃ prelude, Yields (lift span left) st (prelude, none) st' ∧ p = (prelude, none)) ∨
    (∃ prelude left', Yields (lift span left) st (prelude, some left') st' ∧
      right.hasEscape = false ∧
      p = (prelude, some (.logical c opening left' before after right closing))) ∨
    ∃ prelude left' t name branch right?, Yields (lift span left) st (prelude, some left') t ∧
      name = (t.names.fresh "value").1 ∧
      Yields (lift span right) { t with names := (t.names.fresh "value").2 } (branch, right?) st' ∧
      p = (prelude ++ [.set (.hidden name) (.expr left'), .branch [.mk (connectiveTest c name)
        (Lowered.suite (branch ++ assigned name right?))] none], some (.hidden name)) := by
  rw [lift, if_neg (by rw [← Bool.not_or, he]; decide)] at h
  obtain ⟨⟨prelude, left?⟩, t, hl, h'⟩ := bind_iff.1 h
  cases left? with
  | none =>
    obtain ⟨rfl, rfl⟩ := pure_iff.1 h'
    exact .inl ⟨prelude, hl, rfl⟩
  | some left' =>
    right
    change Yields (if _ then _ else _) t p st' at h'
    split at h'
    · obtain ⟨_, _, hr, hp⟩ := bind_iff.1 h'
      obtain ⟨-, rfl⟩ := require_iff.1 hr
      obtain ⟨rfl, rfl⟩ := pure_iff.1 hp
      exact .inl ⟨prelude, left', hl, by simpa using ‹(!right.hasEscape) = true›, rfl⟩
    · obtain ⟨name, _, hf, h'⟩ := bind_iff.1 h'
      obtain ⟨rfl, rfl⟩ := fresh_iff.1 hf
      obtain ⟨⟨branch, right?⟩, _, hy, h'⟩ := bind_iff.1 h'
      obtain ⟨_, _, hr, hp⟩ := bind_iff.1 h'
      obtain ⟨-, rfl⟩ := require_iff.1 hr
      obtain ⟨rfl, rfl⟩ := pure_iff.1 hp
      exact .inr ⟨prelude, left', t, _, branch, right?, hl, rfl, hy, rfl⟩

/-- How a conditional expression with escapes is lifted. -/
theorem lift_conditional {body : Expr} {ifText : Host.Surface} {test : Expr} {elseText : Host.Surface} {orelse : Expr}
    (h : Yields (lift span (.conditional opening body ifText test elseText orelse closing)) st p st')
    (he : (body.hasEscape || test.hasEscape || orelse.hasEscape) = true) :
    (∃ prelude, Yields (lift span test) st (prelude, none) st' ∧ p = (prelude, none)) ∨
    ∃ prelude test' t name first body? t' second orelse?,
      Yields (lift span test) st (prelude, some test') t ∧ name = (t.names.fresh "value").1 ∧
      Yields (lift span body) { t with names := (t.names.fresh "value").2 } (first, body?) t' ∧
      Yields (lift span orelse) t' (second, orelse?) st' ∧
      p = (prelude ++ [.branch [.mk (.expr test') (Lowered.suite (first ++ assigned name body?))]
        (some (Lowered.suite (second ++ assigned name orelse?)))],
        if body?.isSome || orelse?.isSome then some (.hidden name) else none) := by
  rw [lift, if_neg (by rw [← Bool.not_or, ← Bool.not_or, he]; decide)] at h
  obtain ⟨⟨prelude, test?⟩, t, ht, h'⟩ := bind_iff.1 h
  cases test? with
  | none =>
    obtain ⟨rfl, rfl⟩ := pure_iff.1 h'
    exact .inl ⟨prelude, ht, rfl⟩
  | some test' =>
    obtain ⟨name, _, hf, h'⟩ := bind_iff.1 h'
    obtain ⟨rfl, rfl⟩ := fresh_iff.1 hf
    obtain ⟨⟨first, body?⟩, t', hb, h'⟩ := bind_iff.1 h'
    obtain ⟨⟨second, orelse?⟩, _, ho, h'⟩ := bind_iff.1 h'
    obtain ⟨_, _, hr, hp⟩ := bind_iff.1 h'
    obtain ⟨-, rfl⟩ := require_iff.1 hr
    obtain ⟨rfl, rfl⟩ := pure_iff.1 hp
    exact .inr ⟨prelude, test', t, _, first, body?, t', second, orelse?, ht, rfl, hb, ho, rfl⟩

/-- If every evaluation escapes, no expression is left. -/
theorem lift_of_alwaysEscapes (h : Yields (lift span e) st p st') (he : e.alwaysEscapes = true) : p.2 = none := by
  induction e generalizing st p st' with
  | plain text buried => cases he
  | hidden name => cases he
  | escape text mark operand ih =>
    obtain ⟨_, -, rfl⟩ | ⟨_, _, _, -, -, rfl⟩ := h.lift_escape <;> rfl
  | logical c opening left before after right closing ihl ihr =>
    rw [Expr.alwaysEscapes] at he
    have hl : left.hasEscape = true := Expr.hasEscape_of_alwaysEscapes he
    obtain ⟨_, -, rfl⟩ | ⟨_, _, h, -, -⟩ | ⟨_, _, _, _, _, _, h, -, -, -⟩ :=
      h.lift_logical (by simp [hl])
    · rfl
    · exact absurd (ihl h he) (by simp)
    · exact absurd (ihl h he) (by simp)
  | conditional opening body ifText test elseText orelse closing ihb iht iho =>
    have hs := Expr.hasEscape_of_alwaysEscapes he
    rw [Expr.hasEscape_conditional] at hs
    obtain ⟨_, -, rfl⟩ | ⟨_, _, _, _, _, _, _, _, _, ht, -, hb, ho, rfl⟩ := h.lift_conditional hs
    · rfl
    · simp only [Expr.alwaysEscapes, Bool.or_eq_true, Bool.and_eq_true] at he
      rcases he with he | ⟨heb, heo⟩
      · exact absurd (iht ht he) (by simp)
      · obtain rfl := ihb hb heb
        obtain rfl := iho ho heo
        rfl

/-- What is left of an expression with escapes shows a generated name. -/
theorem hasHidden_of_lift {prelude : List Lowered} (h : Yields (lift span e) st (prelude, some v) st')
    (he : e.hasEscape = true) :
    v.hasHidden = true := by
  induction e generalizing st prelude v st' with
  | plain text buried => exact absurd h.lift_plain (by simp [he])
  | hidden name => cases he
  | escape text mark operand ih =>
    obtain ⟨_, -, hp⟩ | ⟨_, _, _, -, -, hp⟩ := h.lift_escape <;> cases hp
  | logical c opening left before after right closing ihl ihr =>
    rw [Expr.hasEscape_logical] at he
    obtain ⟨_, -, hp⟩ | ⟨_, left', hl, hr, hp⟩ | ⟨_, _, _, _, _, _, -, -, -, hp⟩ := h.lift_logical he
    · cases hp
    · cases hp
      rw [hr, Bool.or_false] at he
      rw [Expr.hasHidden, ihl hl he]
      rfl
    · cases hp
      rfl
  | conditional opening body ifText test elseText orelse closing ihb iht iho =>
    rw [Expr.hasEscape_conditional] at he
    obtain ⟨_, -, hp⟩ | ⟨_, _, _, _, _, _, _, _, _, -, -, -, -, hp⟩ := h.lift_conditional he
    · cases hp
    · obtain ⟨-, hv⟩ := Prod.mk.inj hp
      split at hv
      · cases hv
        rfl
      · cases hv

/-- Loop control that would act on a wrapper is refused. -/
theorem checkLoopControl (h : Yields (checkLoopControl s span) st u st') :
    st' = st ∧ (s.form = .break ∨ s.form = .continue → st.Free) := by
  obtain ⟨_, _, hg, hy⟩ := bind_iff.1 h
  obtain ⟨rfl, rfl⟩ := get_iff.1 hg
  split at hy
  · by_cases hb : s.form = .break
    · rw [if_pos (by rw [hb]; rfl)] at hy
      obtain ⟨_, _, hf, -⟩ := bind_iff.1 hy
      exact absurd hf not_fail
    · rw [if_neg (by simpa using hb)] at hy
      by_cases hc : s.form = .continue
      · rw [if_pos (by rw [hc]; rfl)] at hy
        exact absurd hy not_fail
      · rw [if_neg (by simpa using hc)] at hy
        exact ⟨(pure_iff.1 hy).2, fun hf => absurd hf (not_or.2 ⟨hb, hc⟩)⟩
  · rename_i hst
    refine ⟨(pure_iff.1 hy).2, fun _ hw => Nat.pos_of_ne_zero fun hl => hst ?_⟩
    rw [hw, hl]
    rfl

/-- How a simple statement is lowered: as it is, or with its value lifted. -/
theorem lowerSimple_steps (h : Yields (lowerSimple s span) st stmts st') :
    (s.form = .break ∨ s.form = .continue → st.Free) ∧
    ((∀ e, s.value = some e → e.hasEscape = false) ∧ stmts = [.simple s] ∧ st' = st ∨
      ∃ e prelude value, s.value = some e ∧ e.hasEscape = true ∧
        Yields (lift span e) st (prelude, value) st' ∧
        stmts = prelude ++ (value.map fun v => Lowered.simple { s with value := some v }).toList) := by
  obtain ⟨_, _, hc, hy⟩ := bind_iff.1 h
  obtain ⟨rfl, hf⟩ := hc.checkLoopControl
  refine ⟨hf, ?_⟩
  split at hy
  · rename_i he
    refine .inl ⟨fun e hv => ?_, pure_iff.1 hy⟩
    simp_all [Simple.hasEscape, Simple.marks, Expr.hasEscape]
  · cases hv : s.value with
    | none =>
      simp only [hv] at hy
      exact .inl ⟨(fun e he => by cases he), pure_iff.1 hy⟩
    | some e =>
      simp only [hv] at hy
      obtain ⟨⟨prelude, value⟩, t, hl, hy⟩ := bind_iff.1 hy
      by_cases he : e.hasEscape = true
      · refine .inr ⟨e, prelude, value, rfl, he, ?_⟩
        cases value with
        | none =>
          obtain ⟨rfl, rfl⟩ := pure_iff.1 hy
          exact ⟨hl, by simp⟩
        | some v =>
          obtain ⟨_, _, hr, hp⟩ := bind_iff.1 hy
          obtain ⟨-, rfl⟩ := require_iff.1 hr
          obtain ⟨rfl, rfl⟩ := pure_iff.1 hp
          exact ⟨hl, rfl⟩
      · have he : e.hasEscape = false := Bool.eq_false_iff.2 he
        obtain ⟨hp, rfl⟩ := hl.lift_of_not_hasEscape he
        cases hp
        obtain ⟨_, _, hr, hp⟩ := bind_iff.1 hy
        obtain ⟨-, rfl⟩ := require_iff.1 hr
        obtain ⟨hstmts, rfl⟩ := pure_iff.1 hp
        refine .inl ⟨fun e' he' => by cases he'; exact he, ?_, rfl⟩
        rw [hstmts, ← hv]
        rfl

theorem lowerSimple_cases (h : Yields (lowerSimple s span) st stmts st') :
    (s.form = .break ∨ s.form = .continue → st.Free) ∧
    ((∀ e, s.value = some e → e.hasEscape = false) ∧ stmts = [.simple s] ∨
      ∃ e prelude value, s.value = some e ∧ e.hasEscape = true ∧
        Yields (lift span e) st (prelude, value) st' ∧
        stmts = prelude ++ (value.map fun v => Lowered.simple { s with value := some v }).toList) := by
  obtain ⟨hf, ⟨he, hs, -⟩ | hlifted⟩ := h.lowerSimple_steps
  · exact ⟨hf, .inl ⟨he, hs⟩⟩
  · exact ⟨hf, .inr hlifted⟩

/-! ### Loops and matches -/

theorem afterLoop_cases (h : Yields (afterLoop escapes) st stmts st') :
    (∃ w, st.wrapper = some w ∧ escapes = true ∧
      stmts = [.branch [.mk (.expr (.hidden w.exit)) [.break]] none]) ∨
    (st.wrapper = none ∨ escapes = false) ∧ stmts = [] := by
  obtain ⟨_, _, hg, hy⟩ := bind_iff.1 h
  obtain ⟨rfl, rfl⟩ := get_iff.1 hg
  split at hy
  · split at hy
    · exact .inl ⟨_, ‹_›, ‹_›, (pure_iff.1 hy).1⟩
    · exact .inr ⟨.inr (Bool.eq_false_iff.2 ‹_›), (pure_iff.1 hy).1⟩
  · exact .inr ⟨.inl ‹_›, (pure_iff.1 hy).1⟩

theorem afterLoop_state (h : Yields (afterLoop escapes) st stmts st') : st' = st := by
  obtain ⟨_, _, hg, hy⟩ := bind_iff.1 h
  obtain ⟨rfl, rfl⟩ := get_iff.1 hg
  split at hy
  · split at hy <;> exact (pure_iff.1 hy).2
  · exact (pure_iff.1 hy).2

/-- How a match is closed: as it is, or with a catch-all and an obligation. -/
theorem closeMatch_steps {m : Lowered} (h : Yields (closeMatch guards e cases span) st m st') :
    ((isCovered cases = true ∨ guards = false) ∧ m = .matchOn e cases none ∧
      ∃ trace, st' = { st with trace := trace }) ∨
    isCovered cases = false ∧ guards = true ∧ ∃ callee subject names trace,
      m = .matchOn e cases (some ⟨callee, subject⟩) ∧ (∀ c, st.callee = some c → c = callee) ∧
      st' = { st with
        names := names
        callee := some callee
        obligations := st.obligations ++ [⟨subject, span⟩]
        trace := trace } := by
  by_cases hc : isCovered cases = true
  · unfold closeMatch at h
    rw [if_pos hc] at h
    obtain ⟨_, _, hr, hp⟩ := bind_iff.1 h
    obtain ⟨rfl, rfl⟩ := pure_iff.1 hp
    exact .inl ⟨.inl hc, rfl, _, record_iff.1 hr⟩
  · have hc : isCovered cases = false := Bool.eq_false_iff.2 hc
    cases guards with
    | false =>
      unfold closeMatch at h
      rw [if_neg (by rw [hc]; decide), if_pos (by decide)] at h
      obtain ⟨rfl, rfl⟩ := pure_iff.1 h
      exact .inl ⟨.inr rfl, rfl, _, rfl⟩
    | true =>
      unfold Yields at h
      rw [outcome_closeMatch hc] at h
      dsimp only at h
      obtain ⟨⟨names, ht⟩, hcallee⟩ := State.calling_spec { st with names := (st.names.fresh "unmatched").2 }
      rw [ht] at h
      split at h
      · cases h
        exact .inr ⟨hc, rfl, _, _, _, _, rfl, hcallee, rfl⟩
      · cases h

/-- What a match is closed to. -/
theorem closeMatch_cases {m : Lowered} (h : Yields (closeMatch guards e cases span) st m st') :
    (isCovered cases = true ∨ guards = false) ∧ m = .matchOn e cases none ∨
      isCovered cases = false ∧ guards = true ∧ ∃ c, m = .matchOn e cases (some c) := by
  obtain ⟨hc, rfl, -⟩ | ⟨hc, hg, callee, subject, _, _, rfl, -⟩ := h.closeMatch_steps
  · exact .inl ⟨hc, rfl⟩
  · exact .inr ⟨hc, hg, _, rfl⟩

/-- How the arms of a match are lowered. -/
theorem lowerArms_cons {pattern : Pattern} {guard : Option Expr} {body : Block} {shorthand : Bool}
    (h : Yields (lowerArms guards (.mk pattern guard body span shorthand :: arms)) st cases st') :
    body.diverges = true ∧ ∃ stmts t cases', Yields (lowerBlock guards .discard body) st stmts t ∧
      Yields (lowerArms guards arms) t cases' st' ∧
      cases = .mk pattern guard (Lowered.suite stmts) :: cases' := by
  rw [lowerArms] at h
  split at h
  · obtain ⟨_, _, h, -⟩ := bind_iff.1 h
    exact absurd h not_fail
  · obtain ⟨stmts, t, hb, h⟩ := bind_iff.1 h
    obtain ⟨cases', t', ha, h⟩ := bind_iff.1 h
    obtain ⟨rfl, rfl⟩ := pure_iff.1 h
    exact ⟨by simpa using ‹¬ (!body.diverges) = true›, stmts, t, cases', hb, ha, rfl⟩

/-- Cases cover all values if and only if their arms do. -/
theorem isCovered_lowerArms (h : Yields (lowerArms guards arms) st cases st') :
    isCovered cases = arms.any Arm.takesAll := by
  induction arms generalizing st cases st' with
  | nil =>
    obtain ⟨rfl, -⟩ := pure_iff.1 h
    rfl
  | cons arm arms ih =>
    obtain ⟨pattern, guard, body, span, shorthand⟩ := arm
    obtain ⟨-, stmts, t, cases', -, ha, rfl⟩ := h.lowerArms_cons
    rw [isCovered_cons, ih ha, List.any_cons, Arm.takesAll]

end Yields

namespace Always

open Lowering

variable {α : Type} {m : Lower α} {P : α → Prop}

theorem withWrapper (w : WrapperNames) (h : Always m P) : Always (withWrapper w m) P := by
  intro st a st' hy
  obtain ⟨t, hy, -⟩ := Yields.withWrapper_iff.1 hy
  exact h hy

theorem withLoop (h : Always m P) : Always (withLoop m) P := by
  intro st a st' hy
  obtain ⟨t, hy, -⟩ := Yields.withLoop_iff.1 hy
  exact h hy

end Always

end DoBlocks
