import DoBlocks.Proofs.Landmarks
import DoBlocks.Proofs.Place
import DoBlocks.Proofs.Spacing

/-!
# Why lowering fails

What lowering of a part of a block fails for has its cause in that part: an arm that falls through, loop
control that would act on a wrapper, an escape that cannot be lifted or has no wrapper to leave. Code that
cannot be written is a cause only where fragments are not spaced.
-/

namespace DoBlocks

/-! ### Exposed loop control -/

/-- A `break` or `continue` and its place. -/
structure LoopControl where
  word : String
  span : Span
  deriving DecidableEq

/-- The statement as loop control, if it is. -/
def Simple.controls (s : Simple) (span : Span) : List LoopControl :=
  match s.form with
  | .break => [⟨"break", span⟩]
  | .continue => [⟨"continue", span⟩]
  | _ => []

mutual

/-- The loop control in a block with no host loop around it there, boundary blocks that own an escape left
out. -/
def Block.openControls : Block → List LoopControl
  | .mk statements tail _ _ =>
    statementsOpenControls statements ++
      match tail with
      | none => []
      | some t => t.openControls

def statementsOpenControls : List Statement → List LoopControl
  | [] => []
  | s :: rest => s.openControls ++ statementsOpenControls rest

def Statement.openControls : Statement → List LoopControl
  | .simple s span => s.controls span
  | .letMatch _ _ arms _ => armsOpenControls arms
  | .conditional c => c.openControls
  | .nested _ b _ => if b.containsEscape then [] else b.openControls
  | _ => []

def Tail.openControls : Tail → List LoopControl
  | .conditional c => c.openControls
  | .block b => if b.containsEscape then [] else b.openControls
  | _ => []

def armsOpenControls : List Arm → List LoopControl
  | [] => []
  | .mk _ _ body _ _ :: rest => body.openControls ++ armsOpenControls rest

def Conditional.openControls : Conditional → List LoopControl
  | .mk branches orelse _ =>
    branchesOpenControls branches ++
      match orelse with
      | none => []
      | some b => b.openControls

def branchesOpenControls : List Branch → List LoopControl
  | [] => []
  | .mk _ body :: rest => body.openControls ++ branchesOpenControls rest

end

mutual

/-- The boundary blocks inside a block that own an escape. -/
def Block.owners : Block → List Block
  | .mk statements tail _ _ =>
    statementsOwners statements ++
      match tail with
      | none => []
      | some t => t.owners

def statementsOwners : List Statement → List Block
  | [] => []
  | s :: rest => s.owners ++ statementsOwners rest

def Statement.owners : Statement → List Block
  | .letMatch _ _ arms _ => armsOwners arms
  | .conditional c => c.owners
  | .whileLoop _ body _ => body.owners
  | .forLoop _ _ body _ => body.owners
  | .nested _ b _ => (if b.containsEscape then [b] else []) ++ b.owners
  | _ => []

def Tail.owners : Tail → List Block
  | .conditional c => c.owners
  | .block b => (if b.containsEscape then [b] else []) ++ b.owners
  | _ => []

def armsOwners : List Arm → List Block
  | [] => []
  | .mk _ _ body _ _ :: rest => body.owners ++ armsOwners rest

def Conditional.owners : Conditional → List Block
  | .mk branches orelse _ =>
    branchesOwners branches ++
      match orelse with
      | none => []
      | some b => b.owners

def branchesOwners : List Branch → List Block
  | [] => []
  | .mk _ body :: rest => body.owners ++ branchesOwners rest

end

/-- The boundary blocks that own an escape, the block itself included. -/
def Block.ownersFrom (b : Block) : List Block := (if b.containsEscape then [b] else []) ++ b.owners

namespace Lowering

/-! ### Causes -/

/-- What in a part of a block can make lowering fail. -/
structure Causes where
  /-- Loop control with no host loop around it. -/
  controls : List LoopControl
  /-- Boundary blocks that own an escape. -/
  owners : List Block
  /-- An escape leaves the part. -/
  escapes : Bool
  /-- All escapes can be lifted. -/
  known : Prop
  /-- What is left without them can be written. -/
  spaced : Prop

/-- The causes in a boundary block. -/
def Causes.inside (x : Causes) (b : Block) : Causes := ⟨b.openControls, b.owners, b.containsEscape, x.known, x.spaced⟩

variable {x y : Causes} {st t : State}

/-- The failure of a step that starts in `st` has one of the causes. -/
inductive Causes.Explain (x : Causes) (st : State) : LoweringFailure → Prop
  | spelling : ¬ x.spaced → x.Explain st .spelling
  | fallsThrough {span : Span} : x.Explain st (.error ⟨.armFallsThrough, span⟩)
  | unliftable {span : Span} : ¬ x.known → x.Explain st (.error ⟨.unliftable, span⟩)
  | stray {span : Span} : x.escapes = true → st.wrapper = none → x.Explain st (.error ⟨.strayEscape, span⟩)
  /-- Loop control is exposed in a block that owns an escape, or directly inside a wrapper. -/
  | control {word : String} {span : Span} : word = "break" ∨ word = "continue" →
    (∃ c ∈ x.owners, ⟨word, span⟩ ∈ c.openControls) ∨ ¬ st.Free ∧ ⟨word, span⟩ ∈ x.controls →
    x.Explain st (.error ⟨.loopControl word, span⟩)

theorem Causes.Explain.imp {e : LoweringFailure} (h : y.Explain t e) (hspaced : x.spaced → y.spaced)
    (hknown : x.known → y.known)
    (hstray : y.escapes = true → t.wrapper = none → x.escapes = true ∧ st.wrapper = none)
    (howners : y.owners ⊆ x.owners)
    (hcontrols : ∀ c ∈ y.controls, ¬ t.Free → (∃ b ∈ x.owners, c ∈ b.openControls) ∨ ¬ st.Free ∧ c ∈ x.controls) :
    x.Explain st e := by
  cases h with
  | spelling h => exact .spelling (mt hspaced h)
  | fallsThrough => exact .fallsThrough
  | unliftable h => exact .unliftable (mt hknown h)
  | stray he hw => exact .stray (hstray he hw).1 (hstray he hw).2
  | control hword h =>
    obtain ⟨c, hc, hmem⟩ | ⟨hfree, hmem⟩ := h
    · exact .control hword (.inl ⟨c, howners hc, hmem⟩)
    · exact .control hword (hcontrols _ hmem hfree)

/-- Of the state only the place matters. -/
theorem Causes.Explain.of_place {e : LoweringFailure} (h : x.Explain t e) (hw : t.wrapper = st.wrapper)
    (hl : t.loopDepth = st.loopDepth) : x.Explain st e := by
  refine h.imp id id (fun hx hn => ⟨hx, hw ▸ hn⟩) (List.Subset.refl _) fun c hc hfree => .inr ⟨?_, hc⟩
  rwa [State.Free, hw, hl] at hfree

/-- Generated names can be written if all else can. -/
def Causes.Ready (x : Causes) (st : State) : Prop := x.spaced → Drawn [] st

theorem Causes.Ready.congr (h : x.Ready st) (hn : t.names = st.names) (hc : t.callee = st.callee) : x.Ready t :=
  fun hs => (h hs).congr hn hc

/-! ### Steps -/

/-- How a step that starts in `st` ends: at its place with what satisfies `Q`, or for one of the causes. -/
inductive Ending {α : Type} (x : Causes) (Q : α → Prop) (st : State) : Except LoweringFailure α × State → Prop
  | ok {a : α} {t : State} : t.wrapper = st.wrapper → t.loopDepth = st.loopDepth → x.Ready t → Q a →
    Ending x Q st (.ok a, t)
  | error {e : LoweringFailure} {t : State} : x.Ready t → x.Explain st e → Ending x Q st (.error e, t)

theorem Ending.imp {α : Type} {Q : α → Prop} {r : Except LoweringFailure α × State} (h : Ending y Q t r)
    (hw : t.wrapper = st.wrapper) (hl : t.loopDepth = st.loopDepth) (hspaced : x.spaced → y.spaced)
    (he : ∀ e, y.Explain t e → x.Explain st e) : Ending x Q st r := by
  cases h with
  | ok hw' hl' hready hq => exact .ok (hw'.trans hw) (hl'.trans hl) (fun hs => hready (hspaced hs)) hq
  | error hready h => exact .error (fun hs => hready (hspaced hs)) (he _ h)

def Explained {α : Type} (x : Causes) (m : Lower α) (Q : α → Prop) : Prop :=
  ∀ ⦃st⦄, x.Ready st → Ending x Q st (outcome m st)

namespace Explained

variable {α β : Type} {m n : Lower α} {Q : α → Prop} {R : β → Prop} {span : Span}

theorem pure {a : α} (h : Q a) : Explained x (pure a : Lower α) Q := fun _ hst => .ok rfl rfl hst h

theorem throw {e : LoweringFailure} (he : ∀ st, x.Explain st e) : Explained x (throw e : Lower α) Q :=
  fun st hst => .error hst (he st)

theorem bind {f : α → Lower β} (hm : Explained x m Q) (hf : ∀ a, Q a → Explained x (f a) R) :
    Explained x (m >>= f) R := by
  intro st hst
  rw [outcome_bind]
  obtain ⟨r, t, hr, h⟩ : ∃ r t, outcome m st = (r, t) ∧ Ending x Q st (r, t) := ⟨_, _, rfl, hm hst⟩
  rw [hr]
  cases h with
  | error ht he => exact .error ht he
  | ok hw hl ht hq => exact (hf _ hq ht).imp hw hl id fun _ he => he.of_place hw hl

theorem ite {c : Prop} [Decidable c] (hm : c → Explained x m Q) (hn : ¬ c → Explained x n Q) :
    Explained x (if c then m else n) Q := by
  split
  · exact hm ‹_›
  · exact hn ‹_›

/-- What every success satisfies can be added. -/
theorem also {Q' : α → Prop} (h : Explained x m Q) (h' : Always m Q') : Explained x m fun a => Q a ∧ Q' a := by
  intro st hst
  obtain ⟨r, t, hr, hends⟩ : ∃ r t, outcome m st = (r, t) ∧ Ending x Q st (r, t) := ⟨_, _, rfl, h hst⟩
  rw [hr]
  cases hends with
  | ok hw hl ht hq => exact .ok hw hl ht ⟨hq, h' hr⟩
  | error ht he => exact .error ht he

theorem require {c : Bool} (h : x.spaced → c = true) : Explained x (require c) fun _ => True := by
  cases c with
  | true => exact pure trivial
  | false => exact throw fun _ => .spelling fun hs => nomatch h hs

theorem record (e : Event) : Explained x (record e) fun _ => True :=
  fun _ hst => .ok rfl rfl (hst.congr rfl rfl) trivial

theorem fresh {role : String} (hrole : role.toList.all Text.isIdentifierPart = true) :
    Explained x (fresh role) fun name => x.spaced → name.isValid = true := by
  intro st hst
  have hdraw (hs : x.spaced) := (hst hs).draw [role] (List.nodup_singleton role) (by simpa using hrole)
  exact .ok rfl rfl (fun hs => (hdraw hs).forget) fun hs => (hdraw hs).valid _ (.head _)

theorem guardCallee : Explained x guardCallee fun name => x.spaced → name.isValid = true := by
  intro st hst
  have hplace := Steady.guardCallee (outcome_guardCallee st)
  have hcalling (hs : x.spaced) := (hst hs).calling fun _ _ => List.not_mem_nil
  rw [outcome_guardCallee]
  exact .ok hplace.wrapper hplace.loopDepth (fun hs => (hcalling hs).forget) fun hs => (hcalling hs).valid _ (.head _)

/-- In a host loop all loop control is accepted. -/
theorem withLoop {controls : List LoopControl} (hm : Explained { x with controls := controls } m Q) :
    Explained x (withLoop m) Q := by
  intro st hst
  obtain ⟨r, t, hr, h⟩ : ∃ r t, outcome m { st with loopDepth := st.loopDepth + 1 } = (r, t) ∧
      Ending { x with controls := controls } Q { st with loopDepth := st.loopDepth + 1 } (r, t) :=
    ⟨_, _, rfl, hm (hst.congr rfl rfl)⟩
  have hout : outcome (Lowering.withLoop m) st = (r, { t with loopDepth := st.loopDepth }) :=
    congrArg (fun p => (p.1, { p.2 with loopDepth := st.loopDepth })) hr
  rw [hout]
  cases h with
  | ok hw hl ht hq => exact .ok hw rfl (ht.congr rfl rfl) hq
  | error ht he =>
    refine .error (ht.congr rfl rfl) (he.imp id id (fun hx hn => ⟨hx, hn⟩) (List.Subset.refl _) fun c hc hfree => ?_)
    exact absurd (fun _ => Nat.succ_pos _) hfree

/-- What is exposed inside the wrapper of a block is exposed in that block. -/
theorem withWrapper {b : Block} {w : WrapperNames} (howner : b ∈ x.owners) (howners : b.owners ⊆ x.owners)
    (hm : Explained (x.inside b) m Q) :
    Explained x (withWrapper w m) Q := by
  intro st hst
  obtain ⟨r, t, hr, h⟩ : ∃ r t, outcome m { st with wrapper := some w, loopDepth := 0 } = (r, t) ∧
      Ending (x.inside b) Q { st with wrapper := some w, loopDepth := 0 } (r, t) := ⟨_, _, rfl, hm (hst.congr rfl rfl)⟩
  have hout : outcome (Lowering.withWrapper w m) st =
      (r, { t with wrapper := st.wrapper, loopDepth := st.loopDepth }) :=
    congrArg (fun p => (p.1, { p.2 with wrapper := st.wrapper, loopDepth := st.loopDepth })) hr
  rw [hout]
  cases h with
  | ok hw hl ht hq => exact .ok rfl rfl (ht.congr rfl rfl) hq
  | error ht he => exact .error (ht.congr rfl rfl) (he.imp id id (fun _ h => nomatch h) howners fun c hc _ => .inl ⟨b, howner, hc⟩)

theorem delivered {sink : Sink} (hs : x.spaced → sink.Writable) (value : Option Expr) :
    Explained x (delivered sink value) fun _ => True := by
  unfold Lowering.delivered
  split
  · exact pure trivial
  · rename_i e he
    obtain ⟨rfl, hsink⟩ := deliver_error he
    exact throw fun _ => .spelling (mt hs hsink)

theorem escapeTo (hx : x.escapes = true) (value : Expr) : Explained x (escapeTo span value) fun _ => True := by
  intro st hst
  have hout : outcome (Lowering.escapeTo span value) st = outcome (escapeFrom span value st.wrapper) st := by
    unfold Lowering.escapeTo escapeFrom
    rfl
  rw [hout]
  cases hw : st.wrapper with
  | none => exact .error hst (.stray hx hw)
  | some w => exact .ok rfl rfl hst trivial

/-- The escapes of an expression are among the causes. -/
structure Fits (x : Causes) (e : Expr) : Prop where
  escapes : e.hasEscape = true → x.escapes = true
  placed : x.known → e.misplaced = []
  spaced : x.spaced → e.written = true ∧ e.isSpaced = true

/-- What is left of an expression once its escapes are lifted is a generated name, or begins with one, only
where the expression shows it. -/
def Leaves (e : Expr) (value : Option Expr) : Prop :=
  ∀ v ∈ value, (v.isHidden = true → e.leavesName = true) ∧ (v.fitsAfterWord = false → e.beginsWithName = true)

theorem leaves_of_written {e₀ e : Expr} (hw : e.written = true) : Leaves e₀ (some e) := by
  rintro v ⟨⟩
  rw [Expr.isHidden_eq_false_of_written hw, Expr.fitsAfterWord_of_written hw]
  simp

theorem lift {e : Expr} (h : Fits x e) : Explained x (lift span e) fun p => x.spaced → Leaves e p.2 := by
  have hkept {e : Expr} (h : Fits x e) (hs : x.spaced) : Leaves e (some e) := leaves_of_written (h.spaced hs).1
  have hnothing {e : Expr} (_ : x.spaced) : Leaves e none := fun _ hv => by cases hv
  induction e with
  | plain text buried =>
    change Explained x (if _ then _ else _) _
    refine ite (fun he => ?_) fun _ => pure (hkept h)
    refine bind (Q := fun _ => False) (throw fun _ => .unliftable fun hk => ?_) fun _ h => h.elim
    have hfree : (Expr.plain text buried).hasEscape = false := Expr.marks_eq_nil_iff.1 (h.placed hk)
    rw [hfree] at he
    cases he
  | hidden name => exact pure fun hs => absurd (h.spaced hs).1 Bool.false_ne_true
  | escape text mark operand ih =>
    have hx := h.escapes rfl
    refine (ih ⟨fun _ => hx, h.placed, h.spaced⟩).bind fun p _ => ?_
    obtain ⟨prelude, value⟩ := p
    cases value with
    | none => exact pure hnothing
    | some v => exact (escapeTo hx v).bind fun _ _ => pure hnothing
  | logical c opening left before after right closing ihl ihr =>
    have hsame := hkept h
    obtain ⟨hescapes, hplaced, hspaced⟩ := h
    simp only [Expr.hasEscape_logical, Bool.or_eq_true, or_imp, Expr.misplaced, List.append_eq_nil_iff, Expr.written,
      Expr.isSpaced, Bool.and_eq_true] at hescapes hplaced hspaced
    have hleft : Fits x left := ⟨hescapes.1, fun hk => (hplaced hk).1, fun hs => ⟨(hspaced hs).1.1, (hspaced hs).2.1.1⟩⟩
    have hright : Fits x right := ⟨hescapes.2, fun hk => (hplaced hk).2, fun hs => ⟨(hspaced hs).1.2, (hspaced hs).2.1.2⟩⟩
    rw [Lowering.lift]
    refine ite (fun _ => pure hsame) fun _ => ?_
    refine ((ihl hleft).also fun _ _ _ hy => hy.lift_eq_none_iff).bind fun p hp => ?_
    obtain ⟨prelude, left?⟩ := p
    cases left? with
    | none => exact pure hnothing
    | some left' =>
      have halways : left.alwaysEscapes = false := Bool.eq_false_iff.2 fun h => by cases hp.2.2 h
      refine ite (fun hfree => (require fun hs => ?_).bind fun _ _ => pure fun hs => ?_) fun hfree => ?_
      · cases hbefore : before.isEmpty with
        | false => rfl
        | true =>
          rw [Bool.true_and, Bool.not_eq_true', ← Bool.not_eq_true]
          intro hhidden
          have htouches := (hspaced hs).2.2
          rw [hbefore, (hp.1 hs left' rfl).1 hhidden, hfree] at htouches
          cases htouches
      · rintro v ⟨⟩
        refine ⟨(fun h => by cases h), fun h => ?_⟩
        simp only [Expr.fitsAfterWord, Bool.or_eq_false_iff, Bool.not_eq_false'] at h
        rw [Expr.beginsWithName, h.1, (hp.1 hs left' rfl).2 h.2, Bool.true_and, Bool.or_true]
      · have hfree : right.hasEscape = true := by simpa using hfree
        refine (fresh (by decide)).bind fun name hname => (ihr hright).bind fun _ _ => (require hname).bind fun _ _ => pure fun _ => ?_
        rintro v ⟨⟩
        refine ⟨fun _ => ?_, fun _ => ?_⟩
        · rw [Expr.leavesName, hfree, halways]
          rfl
        · rw [Expr.beginsWithName, hfree, Bool.true_or]
  | conditional opening body ifText test elseText orelse closing ihb iht iho =>
    have hsame := hkept h
    obtain ⟨hescapes, hplaced, hspaced⟩ := h
    simp only [Expr.hasEscape_conditional, Bool.or_eq_true, or_imp, Expr.misplaced, List.append_eq_nil_iff, Expr.written,
      Expr.isSpaced, Bool.and_eq_true] at hescapes hplaced hspaced
    have htest : Fits x test :=
      ⟨hescapes.1.2, fun hk => (hplaced hk).1.1, fun hs => ⟨(hspaced hs).1.1.2, (hspaced hs).2.1.2⟩⟩
    have hbody : Fits x body :=
      ⟨hescapes.1.1, fun hk => (hplaced hk).1.2, fun hs => ⟨(hspaced hs).1.1.1, (hspaced hs).2.1.1⟩⟩
    have horelse : Fits x orelse := ⟨hescapes.2, fun hk => (hplaced hk).2, fun hs => ⟨(hspaced hs).1.2, (hspaced hs).2.2⟩⟩
    rw [Lowering.lift]
    refine ite (fun _ => pure hsame) fun hfree => ?_
    have hescape : (Expr.conditional opening body ifText test elseText orelse closing).hasEscape = true := by
      rw [Expr.hasEscape_conditional]
      cases hb : body.hasEscape <;> cases ht : test.hasEscape <;> cases ho : orelse.hasEscape <;> simp_all
    refine (iht htest).bind fun p _ => ?_
    obtain ⟨prelude, test?⟩ := p
    cases test? with
    | none => exact pure hnothing
    | some test' =>
      refine (fresh (by decide)).bind fun name hname => (ihb hbody).bind fun _ _ => (iho horelse).bind fun _ _ =>
        (require fun hs => by rw [hname hs, Bool.or_true]).bind fun _ _ => pure fun _ v _ => ?_
      exact ⟨fun _ => hescape, fun _ => hescape⟩

theorem lowerEscape {e : Escape} (hx : x.escapes = true) (h : Fits x e.value) :
    Explained x (lowerEscape e) fun _ => True := by
  refine (lift h).bind fun p _ => ?_
  obtain ⟨prelude, value⟩ := p
  cases value with
  | none => exact pure trivial
  | some v => exact (escapeTo hx v).bind fun _ _ => pure trivial

/-- Loop control is refused where it stands, and only directly inside a wrapper. -/
theorem checkLoopControl {s : Simple} (h : s.controls span ⊆ x.controls) :
    Explained x (checkLoopControl s span) fun _ => True := by
  intro st hst
  show Ending x _ st (outcome (if st.wrapper.isSome && st.loopDepth == 0 then do
      if s.form == .break then Lowering.fail (.loopControl "break") span
      if s.form == .continue then Lowering.fail (.loopControl "continue") span
    else Pure.pure () : Lower Unit) st)
  split
  · rename_i hplace
    simp only [Bool.and_eq_true, beq_iff_eq] at hplace
    have hfree : ¬ st.Free := fun hfree => absurd (hfree hplace.1) (by omega)
    rw [Simple.controls] at h
    cases hf : s.form <;> rw [hf] at h
    case «break» => exact .error hst (.control (.inl rfl) (.inr ⟨hfree, h (.head _)⟩))
    case «continue» => exact .error hst (.control (.inr rfl) (.inr ⟨hfree, h (.head _)⟩))
    all_goals exact .ok rfl rfl hst trivial
  · exact .ok rfl rfl hst trivial

theorem lowerSimple {s : Simple} (hcontrols : s.controls span ⊆ x.controls) (hx : s.hasEscape = true → x.escapes = true)
    (hplaced : x.known → s.misplaced = [])
    (hspaced : x.spaced → s.isSpaced = true ∧ s.value.all Expr.written = true) :
    Explained x (lowerSimple s span) fun _ => True := by
  refine (checkLoopControl hcontrols).bind fun _ _ => ite (fun _ => pure trivial) fun hescape => ?_
  have hx := hx (by simpa using hescape)
  cases hv : s.value with
  | none => exact pure trivial
  | some e =>
    simp only [Simple.isSpaced, Simple.misplaced, hv, List.append_eq_nil_iff, Bool.and_eq_true, Option.all_some] at hplaced hspaced
    have hfits : Fits x e := ⟨fun _ => hx, fun hk => (hplaced hk).2, fun hs => ⟨(hspaced hs).2, (hspaced hs).1.1⟩⟩
    refine ((lift hfits).also fun _ _ _ hy => hy.lift_eq_none_iff).bind fun p hp => ?_
    obtain ⟨prelude, value⟩ := p
    cases value with
    | none => exact pure trivial
    | some v =>
      refine (require fun hs => ?_).bind fun _ _ => pure trivial
      have halways : e.alwaysEscapes = false := Bool.eq_false_iff.2 fun h => by cases hp.2.2 h
      cases htight : isTightReturn s with
      | false => rfl
      | true =>
        rw [Bool.true_and, Bool.not_not]
        by_contra hfits
        have hbegins := (hp.1 hs v rfl).2 (Bool.eq_false_iff.2 hfits)
        have htouches := (hspaced hs).1.2
        rw [htight] at htouches
        simp [hbegins, halways] at htouches

theorem afterLoop (escapes : Bool) : Explained x (afterLoop escapes) fun _ => True := by
  intro st hst
  have hout : ∃ stmts, outcome (Lowering.afterLoop escapes) st = (.ok stmts, st) := by
    show ∃ stmts, outcome (checkAfter escapes st.wrapper) st = (.ok stmts, st)
    cases st.wrapper with
    | none => exact ⟨_, rfl⟩
    | some w => cases escapes <;> exact ⟨_, rfl⟩
  obtain ⟨stmts, hout⟩ := hout
  rw [hout]
  exact .ok rfl rfl hst trivial

theorem closeMatch (guards : Bool) (source : Expr) (cases : List LoweredCase) :
    Explained x (closeMatch guards source cases span) fun _ => True := by
  refine ite (fun _ => (record _).bind fun _ _ => pure trivial) fun _ => ite (fun _ => pure trivial) fun _ => ?_
  refine (fresh (by decide)).bind fun subject hsubject => guardCallee.bind fun callee hcallee => ?_
  refine (require fun hs => by rw [hcallee hs, hsubject hs]; rfl).bind fun _ _ => ?_
  have hoblige (o : Obligation) : Explained x (modify fun st => { st with obligations := st.obligations ++ [o] })
      fun _ => True := fun _ hst => .ok rfl rfl (hst.congr rfl rfl) trivial
  exact (hoblige _).bind fun _ _ => (record _).bind fun _ _ => pure trivial

theorem andThen {here rest : Lower (List Lowered)} {leaves : Bool} (h : Explained x here fun _ => True)
    (hr : Explained x rest fun _ => True) : Explained x (andThen here leaves rest) fun _ => True :=
  h.bind fun _ _ => ite (fun _ => pure trivial) fun _ => hr.bind fun _ _ => pure trivial

/-- A boundary block is lowered in a wrapper of its own, or exposes what is in it. -/
theorem boundary {b : Block} {sink : Sink} {inside : Sink → Lower (List Lowered)} (hs : x.spaced → sink.Writable)
    (hcontrols : (if b.containsEscape then [] else b.openControls) ⊆ x.controls) (howners : b.ownersFrom ⊆ x.owners)
    (h : ∀ s : Sink, (x.spaced → s.Writable) → Explained (x.inside b) (inside s) fun _ => True) :
    Explained x (boundary b.containsEscape span sink inside) fun _ => True := by
  rw [Block.ownersFrom] at howners
  cases hb : b.containsEscape with
  | false =>
    rw [hb] at hcontrols howners
    have hinside : Explained x (inside sink) fun _ => True := fun st hst => (h sink hs hst).imp rfl rfl id fun _ he =>
      he.imp id id (fun h => nomatch hb.symm.trans h) howners fun c hc hfree => .inr ⟨hfree, hcontrols hc⟩
    exact (record _).bind fun _ _ => hinside.bind fun _ _ => pure trivial
  | true =>
    rw [hb] at howners
    intro st hst
    have hdraw (hx : x.spaced) := (hst hx).draw ["result", "exit"] (by decide) (by decide)
    have hresult (hx : x.spaced) : st.names.wrapper.1.result.isValid = true := (hdraw hx).valid _ (.head _)
    have hexit (hx : x.spaced) : st.names.wrapper.1.exit.isValid = true := (hdraw hx).valid _ (.tail _ (.head _))
    have hinner (hx : x.spaced) : (innerSink st.names.wrapper.1).Writable := by
      refine ⟨fun targets ht => ?_, fun flag hflag => ?_⟩
      · cases ht
        exact List.cons_ne_nil _ _
      · cases hflag
        exact hexit hx
    have hin : Explained x (inWrapper st.names.wrapper.1 span sink inside) fun _ => True := by
      refine (record _).bind fun _ _ => (require fun hx => by rw [hresult hx, hexit hx]; rfl).bind fun _ _ => ?_
      refine (withWrapper (howners (.head _)) (fun c hc => howners (.tail _ hc)) (h _ hinner)).bind fun tree _ => ?_
      refine ite (fun _ => ?_) fun _ => ?_
      · exact (pure (Q := fun _ => True) trivial).bind fun _ _ => (record _).bind fun _ _ => pure trivial
      · exact (delivered hs _).bind fun _ _ => (record _).bind fun _ _ => pure trivial
    have hwrapping : x.Ready st.wrapping := fun hx => (hdraw hx).forget.congr rfl rfl
    exact (hin hwrapping).imp rfl rfl id fun _ he => he.of_place rfl rfl

end Explained

/-! ### Blocks -/

/-- The causes of a part of a block are among those of the whole. -/
structure Causes.Covers (x : Causes) (controls : List LoopControl) (owners : List Block) (escapes : Bool)
    (known : Prop) : Prop where
  controls : controls ⊆ x.controls
  owners : owners ⊆ x.owners
  escapes : escapes = true → x.escapes = true
  known : x.known → known

namespace Causes.Covers

variable {controls controls' : List LoopControl} {owners owners' : List Block} {escapes escapes' : Bool}
  {known known' : Prop} {wellFormed wellFormed' : Bool} {F : Sources}

theorem left (h : x.Covers (controls ++ controls') (owners ++ owners') (escapes || escapes') known)
    (hk : known → known') : x.Covers controls owners escapes known' :=
  ⟨(List.append_subset.mp h.controls).1, (List.append_subset.mp h.owners).1,
    fun he => h.escapes (by rw [he, Bool.true_or]), fun hx => hk (h.known hx)⟩

theorem right (h : x.Covers (controls ++ controls') (owners ++ owners') (escapes || escapes') known)
    (hk : known → known') : x.Covers controls' owners' escapes' known' :=
  ⟨(List.append_subset.mp h.controls).2, (List.append_subset.mp h.owners).2,
    fun he => h.escapes (by rw [he, Bool.or_true]), fun hx => hk (h.known hx)⟩

theorem both (h : x.Covers (controls ++ controls') (owners ++ owners') (escapes || escapes')
    ((known ∧ known') ∧ (wellFormed && wellFormed') = true)) :
    x.Covers controls owners escapes (known ∧ wellFormed = true) ∧
      x.Covers controls' owners' escapes' (known' ∧ wellFormed' = true) :=
  ⟨h.left fun hk => ⟨hk.1.1, (Bool.and_eq_true_iff.1 hk.2).1⟩, h.right fun hk => ⟨hk.1.2, (Bool.and_eq_true_iff.1 hk.2).2⟩⟩

end Causes.Covers

theorem and_left {a b : Bool} (h : (a && b) = true) : a = true := (Bool.and_eq_true_iff.1 h).1

theorem and_right {a b : Bool} (h : (a && b) = true) : b = true := (Bool.and_eq_true_iff.1 h).2

namespace Explained

variable {F : Sources} (guards : Bool)

theorem Fits.of_covers {e : Expr} (hS : x.spaced → x.known ∧ F.IsSpaced)
    (h : x.Covers [] [] e.hasEscape (e.Liftable F ∧ e.written = true)) : Fits x e :=
  ⟨h.escapes, fun hk => (h.known hk).1.2,
    fun hs => ⟨(h.known (hS hs).1).2, (hS hs).2.expr (h.known (hS hs).1).1.1⟩⟩

mutual

theorem lowerBlock {x : Causes} (hS : x.spaced → x.known ∧ F.IsSpaced) {sink : Sink}
    (hs : x.spaced → sink.Writable) : ∀ {b : Block}, x.Covers b.openControls b.owners b.containsEscape
      (b.Liftable F ∧ b.wellFormed true = true) → Explained x (lowerBlock guards sink b) fun _ => True
  | .mk ss none _ _, h => lowerStatements hS (delivered hs none) h.both.1
  | .mk ss (some t) span _, h => by
    rw [Block.containsEscape_tail] at h
    exact lowerStatements hS (lowerTail hS hs span h.both.2) h.both.1

theorem lowerStatements {x : Causes} (hS : x.spaced → x.known ∧ F.IsSpaced) {finish : Lower (List Lowered)}
    (hf : Explained x finish fun _ => True) : ∀ {ss : List Statement},
      x.Covers (statementsOpenControls ss) (statementsOwners ss) (statementsContainEscape ss)
        (statementsLiftable F ss ∧ statementsWellFormed true ss = true) →
      Explained x (lowerStatements guards finish ss) fun _ => True
  | [], _ => hf
  | s :: rest, h => by
    obtain ⟨h, hrest⟩ := h.both
    have hrest := lowerStatements hS hf hrest
    have hdiscard (_ : x.spaced) := Sink.writable_discard
    cases s with
    | simple s span =>
      refine andThen (lowerSimple h.controls h.escapes (fun hk => (h.known hk).1.2.1) fun hs => ?_) hrest
      exact ⟨(hS hs).2.simple (h.known (hS hs).1).1.1, (h.known (hS hs).1).2⟩
    | escape e =>
      exact andThen (lowerEscape (h.escapes rfl) (.of_covers hS ⟨nofun, nofun, fun _ => h.escapes rfl, h.known⟩)) hrest
    | letMatch primary source arms span =>
      have h : x.Covers ([] ++ armsOpenControls arms) ([] ++ armsOwners arms)
        (source.hasEscape || armsContainEscape arms) _ := h
      refine (lift (.of_covers hS (h.left fun hk => ⟨hk.1.2.1, and_left (and_left hk.2)⟩))).bind fun ⟨prelude, source?⟩ _ => ?_
      cases source? with
      | none => exact pure trivial
      | some e =>
        have harms := lowerArms hS (h.right fun hk => ⟨hk.1.2.2, and_right hk.2⟩)
        exact hrest.bind fun _ _ => harms.bind fun _ _ => (closeMatch guards _ _).bind fun _ _ => pure trivial
    | conditional c => exact andThen (lowerConditional hS hdiscard h) hrest
    | whileLoop test body span =>
      have hbody : Explained _ _ _ := lowerBlock (x := { x with controls := body.openControls }) hS hdiscard
        ⟨List.Subset.refl _, h.owners, h.escapes, fun hk => ⟨(h.known hk).1.2, and_right (h.known hk).2⟩⟩
      exact andThen (hbody.withLoop.bind fun _ _ => (afterLoop _).bind fun _ _ => pure trivial) hrest
    | forLoop target iterable body span =>
      have h : x.Covers ([] ++ []) ([] ++ body.owners) (iterable.hasEscape || body.containsEscape) _ := h
      have hin := h.right fun hk => And.intro hk.1.2.2 (and_right hk.2)
      have hbody : Explained _ _ _ := lowerBlock (x := { x with controls := body.openControls }) hS hdiscard
        ⟨List.Subset.refl _, hin.owners, hin.escapes, hin.known⟩
      refine andThen ((lift (.of_covers hS (h.left fun hk => ⟨hk.1.2.1, and_left hk.2⟩))).bind fun ⟨prelude, iterable?⟩ _ => ?_) hrest
      cases iterable? with
      | none => exact pure trivial
      | some e => exact hbody.withLoop.bind fun _ _ => (afterLoop _).bind fun _ _ => pure trivial
    | nested sink b span =>
      have hsink (hs : x.spaced) : sink.Writable := by
        obtain ⟨hk, hF⟩ := hS hs
        exact Sink.writable_of_known hF (h.known hk).1.1 (and_left (h.known hk).2)
      refine andThen ((boundary hsink h.controls h.owners fun s hs =>
        lowerBlock (x := x.inside b) hS hs ?_).bind fun _ _ => pure trivial) hrest
      exact ⟨List.Subset.refl _, List.Subset.refl _, id, fun hk => ⟨(h.known hk).1.2, and_right (h.known hk).2⟩⟩

theorem lowerTail {x : Causes} (hS : x.spaced → x.known ∧ F.IsSpaced) {sink : Sink} (hs : x.spaced → sink.Writable)
    (span : Span) : ∀ {t : Tail}, x.Covers t.openControls t.owners t.containsEscape
      (t.Liftable F ∧ t.wellFormed true = true) → Explained x (lowerTail guards sink span t) fun _ => True
  | .value e, h => by
    refine (lift (.of_covers hS h)).bind fun ⟨prelude, value⟩ _ => ?_
    cases value with
    | none => exact pure trivial
    | some v => exact (delivered hs _).bind fun _ _ => pure trivial
  | .escape e, h => lowerEscape (h.escapes rfl) (.of_covers hS ⟨nofun, nofun, fun _ => h.escapes rfl, h.known⟩)
  | .conditional c, h => lowerConditional hS hs h
  | .block b, h => (boundary hs h.controls h.owners fun _ hs =>
      lowerBlock (x := x.inside b) hS hs ⟨List.Subset.refl _, List.Subset.refl _, id, h.known⟩).bind fun _ _ => pure trivial

theorem lowerArms {x : Causes} (hS : x.spaced → x.known ∧ F.IsSpaced) : ∀ {arms : List Arm},
    x.Covers (armsOpenControls arms) (armsOwners arms) (armsContainEscape arms)
      (armsLiftable F arms ∧ armsWellFormed true arms = true) → Explained x (lowerArms guards arms) fun _ => True
  | [], _ => pure trivial
  | .mk pattern guard body span _ :: rest, h => by
    have hbody := lowerBlock hS (fun _ => Sink.writable_discard)
      (h.left fun hk => ⟨hk.1.2.2.1, and_right (and_left hk.2)⟩)
    have hrest := lowerArms hS (h.right fun hk => ⟨hk.1.2.2.2, and_right hk.2⟩)
    refine ite (fun _ => ?_) fun _ => hbody.bind fun _ _ => hrest.bind fun _ _ => pure trivial
    exact bind (Q := fun _ => False) (throw fun _ => .fallsThrough) fun _ h => h.elim

theorem lowerConditional {x : Causes} (hS : x.spaced → x.known ∧ F.IsSpaced) {sink : Sink}
    (hs : x.spaced → sink.Writable) : ∀ {c : Conditional}, x.Covers c.openControls c.owners c.containsEscape
      (c.Liftable F ∧ c.wellFormed true = true) → Explained x (lowerConditional guards sink c) fun _ => True
  | .mk branches none span, h => by
    have hbranches (other : Option (List Lowered)) := lowerBranches hS hs span other
      (h.left fun hk => ⟨hk.1.1, and_right (and_left hk.2)⟩)
    exact (delivered hs none).bind fun _ _ => (pure (Q := fun _ => True) trivial).bind fun other _ =>
      (hbranches other).bind fun _ _ => pure trivial
  | .mk branches (some b) span, h => by
    have hbranches (other : Option (List Lowered)) := lowerBranches hS hs span other
      (h.left fun hk => ⟨hk.1.1, and_right (and_left hk.2)⟩)
    have horelse := lowerBlock hS hs (h.right fun hk => ⟨hk.1.2, and_right hk.2⟩)
    exact horelse.bind fun _ _ => (pure (Q := fun _ => True) trivial).bind fun other _ =>
      (hbranches other).bind fun _ _ => pure trivial

theorem lowerBranches {x : Causes} (hS : x.spaced → x.known ∧ F.IsSpaced) {sink : Sink}
    (hs : x.spaced → sink.Writable) (span : Span) (orelse : Option (List Lowered)) : ∀ {bs : List Branch},
      x.Covers (branchesOpenControls bs) (branchesOwners bs) (branchesContainEscape bs)
        (branchesLiftable F bs ∧ branchesWellFormed true bs = true) →
      Explained x (lowerBranches guards sink span orelse bs) fun _ => True
  | [], _ => pure trivial
  | .mk test body :: rest, h => by
    have hrest := lowerBranches hS hs span orelse (h.right fun hk => ⟨hk.1.2.2, and_right hk.2⟩)
    have h : x.Covers ([] ++ body.openControls) ([] ++ body.owners) (test.hasEscape || body.containsEscape) _ :=
      h.left fun hk => And.intro (And.intro hk.1.1 hk.1.2.1) (and_left hk.2)
    refine hrest.bind fun _ _ => (lift (.of_covers hS h.both.1)).bind fun ⟨prelude, test?⟩ _ => ?_
    cases test? with
    | none => exact pure trivial
    | some t => exact (lowerBlock hS hs h.both.2).bind fun _ _ => pure trivial

end

end Explained

/-- What lowering of the block can fail for. Escapes in it never miss a wrapper. -/
def causesOf (b : Block) (known spaced : Prop) : Causes :=
  ⟨if b.containsEscape then [] else b.openControls, b.ownersFrom, false, known, spaced⟩

variable {F : Sources} {sink : Sink} {b : Block} (guards : Bool)

theorem ending_lower {known spaced : Prop} (hk : known → b.Liftable F ∧ b.wellFormed true = true)
    (hS : spaced → known ∧ F.IsSpaced) (hs : spaced → sink.Writable) (hst : spaced → Drawn [] st) :
    Ending (causesOf b known spaced) (fun _ => True) st (outcome (lower guards sink b) st) := by
  have h : Explained (causesOf b known spaced) (lower guards sink b) fun _ => True :=
    .boundary hs (List.Subset.refl _) (List.Subset.refl _) fun _ hs =>
      .lowerBlock (x := (causesOf b known spaced).inside b) guards hS hs
        ⟨List.Subset.refl _, List.Subset.refl _, id, hk⟩
  exact h hst

/-- Failures of a block whatever its fragments are. -/
theorem explain_of_lower {e : LoweringFailure} (h : outcome (lower guards sink b) st = (.error e, t)) :
    (causesOf b False False).Explain st e := by
  have hends : Ending (causesOf b False False) (fun _ => True) st (outcome (lower guards sink b) st) :=
    ending_lower (F := .spaced) guards False.elim False.elim False.elim False.elim
  rw [h] at hends
  cases hends with
  | error _ he => exact he

/-- Lowering a site whose fragments are spaced never stops for code that cannot be written. -/
theorem drawn_lowerSite (hs : sink.Writable) (hb : b.Liftable .spaced) (hw : b.wellFormed true = true)
    (hst : Drawn [] st) : Drawn [] (outcome (lowerSite guards sink b) st).2 ∧
      ∀ st', outcome (lowerSite guards sink b) st ≠ (.error .spelling, st') := by
  have hends : Ending (causesOf b True True) (fun _ => True) st (outcome (lower guards sink b) st) :=
    ending_lower guards (fun _ => ⟨hb, hw⟩) (fun _ => ⟨trivial, Sources.isSpaced_spaced⟩) (fun _ => hs) fun _ => hst
  rw [outcome_lowerSite]
  generalize outcome (lower guards sink b) st = r at hends
  cases hends with
  | ok _ _ ht _ => exact ⟨ht trivial, nofun⟩
  | error ht he =>
    cases he with
    | spelling h => exact absurd trivial h
    -- a failed site keeps the names that it has drawn
    | _ => exact ⟨(ht trivial).congr rfl rfl, nofun⟩

end Lowering

end DoBlocks
