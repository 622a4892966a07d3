import Mathlib.Data.List.Perm.Subperm
import DoBlocks.Proofs.Freshness
import DoBlocks.Proofs.LoweringSteps

/-!
# The names that lowering draws

`Allocator.HandsOut` lists the names that an allocator has handed out on its way: they are written in
different ways, and none of them was in use before. `Draws` says of a step of lowering which of the
generated names in its code it can only have from its surroundings: all others were handed out by the
step itself, whether it succeeds in the end or not.
-/

namespace DoBlocks

/-! ### Names handed out -/

namespace Allocator

variable {a b c : Allocator} {ns ms : List HiddenName}

/-- The names handed out between two states of an allocator, in order. -/
inductive HandsOut : Allocator → List HiddenName → Allocator → Prop
  | nil {a : Allocator} : HandsOut a [] a
  | fresh {a b : Allocator} {ns : List HiddenName} (role : String) :
    HandsOut (a.fresh role).2 ns b → HandsOut a ((a.fresh role).1 :: ns) b
  | wrapper {a b : Allocator} {ns : List HiddenName} :
    HandsOut a.wrapper.2 ns b → HandsOut a (a.wrapper.1.result :: a.wrapper.1.exit :: ns) b

namespace HandsOut

theorem append (h : HandsOut a ns b) (h' : HandsOut b ms c) : HandsOut a (ns ++ ms) c := by
  induction h with
  | nil => exact h'
  | fresh role _ ih => exact fresh role (ih h')
  | wrapper _ ih => exact wrapper (ih h')

/-- What is handed out was not in use. -/
theorem notMem_reserved (h : HandsOut a ns b) : ∀ n ∈ ns, n.render ∉ a.reserved := by
  induction h with
  | nil => simp
  | @fresh a b ns role _ ih =>
    rw [List.forall_mem_cons]
    refine ⟨a.fresh_notMem_reserved role, fun n hn hmem => ih n hn ?_⟩
    rw [reserved_fresh]
    exact .tail _ hmem
  | @wrapper a b ns _ ih =>
    rw [List.forall_mem_cons, List.forall_mem_cons]
    refine ⟨a.wrapper_result_notMem_reserved, a.wrapper_exit_notMem_reserved, fun n hn hmem => ih n hn ?_⟩
    rw [reserved_wrapper]
    exact .tail _ (.tail _ hmem)

/-- No two of the names handed out are written alike. -/
theorem nodup (h : HandsOut a ns b) : (ns.map HiddenName.render).Nodup := by
  induction h with
  | nil => exact .nil
  | @fresh a b ns role h ih =>
    have hfresh : ∀ n ∈ ns, n.render ≠ (a.fresh role).1.render := by
      intro n hn heq
      apply h.notMem_reserved n hn
      rw [heq, reserved_fresh]
      exact .head _
    simpa [ih] using hfresh
  | @wrapper a b ns h ih =>
    have hresult : ∀ n ∈ ns, n.render ≠ a.wrapper.1.result.render := by
      intro n hn heq
      apply h.notMem_reserved n hn
      rw [heq, reserved_wrapper]
      exact .head _
    have hexit : ∀ n ∈ ns, n.render ≠ a.wrapper.1.exit.render := by
      intro n hn heq
      apply h.notMem_reserved n hn
      rw [heq, reserved_wrapper]
      exact .tail _ (.head _)
    have hne := a.wrapper_result_ne_exit
    simp only [List.map_cons, List.nodup_cons, List.mem_cons, List.mem_map, not_or, not_exists, not_and]
    exact ⟨⟨hne, hresult⟩, hexit, ih⟩

end HandsOut

end Allocator

/-! ### Generated names in code -/

/-- The generated names that the text of an expression shows. -/
def Expr.names : Expr → List HiddenName
  | plain _ _ => []
  | hidden name => [name]
  | escape _ _ _ => []
  | logical _ _ left _ _ right _ => left.names ++ right.names
  | conditional _ body _ test _ orelse _ => body.names ++ test.names ++ orelse.names

theorem Expr.names_eq_nil {e : Expr} (h : e.written = true) : e.names = [] := by
  induction e with
  | plain text buried => rfl
  | hidden name => cases h
  | escape text mark operand ih => rfl
  | logical c opening left before after right closing ihl ihr =>
    simp only [written, Bool.and_eq_true] at h
    rw [names, ihl h.1, ihr h.2, List.nil_append]
  | conditional opening body ifText test elseText orelse closing ihb iht iho =>
    simp only [written, Bool.and_eq_true] at h
    rw [names, ihb h.1.1, iht h.1.2, iho h.2, List.nil_append, List.nil_append]

/-- The generated names of an expression that may be missing. -/
def Expr.namesOf? (e : Option Expr) : List HiddenName := (e.map names).getD []

theorem Expr.namesOf?_eq_nil {e : Option Expr} (h : e.all Expr.written = true) : namesOf? e = [] := by
  cases e with
  | none => rfl
  | some e => exact names_eq_nil h

def Value.names : Value → List HiddenName
  | expr e => e.names
  | constant _ => []

def Test.names : Test → List HiddenName
  | expr e => e.names
  | not name => [name]

def Name.names : Name → List HiddenName
  | written _ => []
  | hidden name => [name]

def Target.names : Target → List HiddenName
  | written _ => []
  | hidden name => [name]

def Destination.names : Destination → List HiddenName
  | assign targets => targets.flatMap Target.names
  | _ => []

/-- The generated names that a sink writes to. -/
def Sink.names (s : Sink) : List HiddenName :=
  s.destination.names ++ (s.exitFlag.map Name.names).getD []

theorem Sink.names_eq_nil {s : Sink} (h : s.isWritten = true) : s.names = [] := by
  obtain ⟨destination, exitFlag⟩ := s
  simp only [isWritten, Bool.and_eq_true, Option.isNone_iff_eq_none] at h
  obtain ⟨rfl, h⟩ := h
  cases destination with
  | assign targets =>
    simp only [names, Destination.names, Option.map_none, Option.getD_none, List.append_nil,
      List.flatMap_eq_nil_iff]
    intro t ht
    have := List.all_eq_true.1 h t ht
    cases t with
    | written text => rfl
    | hidden name => cases this
  | «return» => rfl
  | discard => rfl

def CatchAll.names (c : CatchAll) : List HiddenName := [c.callee, c.subject]

/-- The two names of a wrapper. -/
def WrapperNames.toList (w : WrapperNames) : List HiddenName := [w.result, w.exit]

namespace Lowered

mutual

/-- The generated names in a statement. -/
def names : Lowered → List HiddenName
  | simple s => Expr.namesOf? s.value
  | assign targets value => targets.flatMap Target.names ++ value.names
  | set name value => name.names ++ value.names
  | .return value => Expr.namesOf? value
  | evaluate e => e.names
  | .break => []
  | pass => []
  | branch arms none => namesOfArms arms
  | branch arms (some body) => namesOfArms arms ++ namesOf body
  | whileLoop test body => test.names ++ namesOf body
  | forLoop _ iterable body => iterable.names ++ namesOf body
  | matchOn subject cases catchAll =>
    subject.names ++ namesOfCases cases ++ (catchAll.map CatchAll.names).getD []

def namesOf : List Lowered → List HiddenName
  | [] => []
  | s :: rest => s.names ++ namesOf rest

def namesOfArms : List LoweredArm → List HiddenName
  | [] => []
  | .mk test body :: rest => test.names ++ namesOf body ++ namesOfArms rest

def namesOfCases : List LoweredCase → List HiddenName
  | [] => []
  | .mk _ guard body :: rest => Expr.namesOf? guard ++ namesOf body ++ namesOfCases rest

end

@[simp, grind =] theorem namesOf_nil : namesOf [] = [] := rfl

@[simp, grind =] theorem namesOf_cons (s : Lowered) (rest : List Lowered) :
    namesOf (s :: rest) = s.names ++ namesOf rest := rfl

@[simp, grind =] theorem namesOf_append (xs ys : List Lowered) :
    namesOf (xs ++ ys) = namesOf xs ++ namesOf ys := by
  induction xs with
  | nil => rfl
  | cons s rest ih => simp [ih]

@[simp, grind =] theorem namesOf_suite (stmts : List Lowered) : namesOf (suite stmts) = namesOf stmts := by
  cases stmts <;> rfl

@[grind =] theorem names_branch (arms : List LoweredArm) (orelse : Option (List Lowered)) :
    (branch arms orelse).names = namesOfArms arms ++ namesOf (orelse.getD []) := by
  cases orelse <;> simp [names]

end Lowered

namespace Lowering

open Lowered

variable {α β : Type}

/-- A chain put behind an `if` keeps its names. -/
theorem names_continueWith (chain : List Lowered) :
    (Lowered.branch (continueWith chain).1 (continueWith chain).2).names = namesOf chain := by
  unfold continueWith
  split
  · simp
  · simp [names_branch, namesOfArms]

theorem namesOf_deliver {sink : Sink} {value : Option Expr} {stmts : List Lowered}
    (h : deliver sink value = .ok stmts) : namesOf stmts ⊆ Expr.namesOf? value ++ sink.names := by
  obtain ⟨main, flag, rfl, hmain, hflag⟩ := deliver_cases h
  have hm : namesOf main ⊆ Expr.namesOf? value ++ sink.names := by
    rcases hmain with rfl | rfl | ⟨v, rfl, rfl⟩ | ⟨targets, hd, rfl⟩
    · exact List.nil_subset _
    · simp [names]
    · simp [names, Expr.namesOf?]
    · cases value <;> simp [names, Value.names, Expr.namesOf?, Sink.names, Destination.names, hd]
  have hf : namesOf flag ⊆ sink.names := by
    rcases hflag with rfl | ⟨name, hname, rfl⟩
    · exact List.nil_subset _
    · simp [names, Value.names, Sink.names, hname]
  rw [namesOf_append]
  exact List.append_subset.2 ⟨hm, List.Subset.trans hf (List.subset_append_right _ _)⟩

theorem mem_namesOf_assigned {name n : HiddenName} {value : Option Expr} :
    n ∈ namesOf (assigned name value) ↔ value.isSome ∧ n = name ∨ n ∈ Expr.namesOf? value := by
  cases value <;> simp [assigned, names, Name.names, Value.names, Expr.namesOf?]

/-! ### What a step of lowering does to names -/

/-- The names on record: those of the wrappers, the subjects of catch-alls, and what catch-alls call. -/
def State.recorded (st : State) : List HiddenName :=
  st.wrappers.flatMap WrapperNames.toList ++ st.obligations.map Obligation.subject ++ st.callee.toList

/-- The names that a step can use without drawing them. -/
def State.atHand (st : State) : List HiddenName :=
  st.callee.toList ++ (st.wrapper.map WrapperNames.toList).getD []

/-- Between two states the names `ns` are handed out. What catch-alls call is chosen once, and nothing
is put on record twice. -/
structure History (st : State) (ns : List HiddenName) (st' : State) : Prop where
  handsOut : st.names.HandsOut ns st'.names
  wrapper : st'.wrapper = st.wrapper
  callee : st'.callee = st.callee ∨ st.callee = none ∧ ∃ c ∈ ns, st'.callee = some c
  recorded : st'.recorded.Subperm (ns ++ st.recorded)

namespace History

variable {st st₁ st' : State} {ns ms : List HiddenName}

theorem refl (st : State) : History st [] st := ⟨.nil, rfl, .inl rfl, .refl _⟩

theorem trans (h : History st ns st₁) (h' : History st₁ ms st') : History st (ns ++ ms) st' where
  handsOut := h.handsOut.append h'.handsOut
  wrapper := h'.wrapper.trans h.wrapper
  callee := by
    rcases h'.callee with h' | ⟨hnone, c, hc, h'⟩
    · rcases h.callee with h | ⟨hnone, c, hc, h⟩
      · exact .inl (h'.trans h)
      · exact .inr ⟨hnone, c, List.mem_append_left _ hc, h'.trans h⟩
    · rcases h.callee with h | ⟨hnone', _⟩
      · exact .inr ⟨h ▸ hnone, c, List.mem_append_right _ hc, h'⟩
      · exact .inr ⟨hnone', c, List.mem_append_right _ hc, h'⟩
  recorded := by
    have hmid : (ms ++ st₁.recorded).Subperm (ms ++ (ns ++ st.recorded)) :=
      (List.subperm_append_left ms).2 h.recorded
    have hswap : (ms ++ (ns ++ st.recorded)).Perm (ns ++ ms ++ st.recorded) := by
      rw [← List.append_assoc]
      exact List.perm_append_comm.append_right _
    exact (h'.recorded.trans hmid).trans hswap.subperm

theorem atHand_subset (h : History st ns st') : st'.atHand ⊆ ns ++ st.atHand := by
  intro n hn
  rw [State.atHand, h.wrapper] at hn
  rcases List.mem_append.1 hn with hn | hn
  · rcases h.callee with hc | ⟨-, c, hc, hc'⟩
    · rw [hc] at hn
      exact List.mem_append_right _ (List.mem_append_left _ hn)
    · rw [hc', Option.mem_toList] at hn
      cases hn
      exact List.mem_append_left _ hc
  · exact List.mem_append_right _ (List.mem_append_right _ hn)

/-- A fresh name is handed out, and nothing else changes. -/
theorem fresh (st : State) (role : String) :
    History st [(st.names.fresh role).1] { st with names := (st.names.fresh role).2 } where
  handsOut := .fresh role .nil
  wrapper := rfl
  callee := .inl rfl
  recorded := (List.sublist_append_right _ _).subperm

/-- What catch-alls call is at hand or handed out. -/
theorem calling (st : State) :
    ∃ ns, History st ns st.calling.2 ∧ st.calling.1 ∈ ns ++ st.atHand := by
  unfold State.calling
  cases hc : st.callee with
  | some c => exact ⟨[], .refl st, by simp [State.atHand, hc]⟩
  | none =>
    refine ⟨[(st.names.fresh "assert_never").1], ⟨.fresh _ .nil, rfl, .inr ⟨hc, _, .head _, rfl⟩, ?_⟩,
      .head _⟩
    rw [State.recorded, State.recorded, hc, Option.toList_none, List.append_nil]
    exact List.perm_append_comm.subperm

/-- The names of a new wrapper are handed out and put on record. -/
theorem wrapping (st : State) : History st st.names.wrapper.1.toList st.wrapping where
  handsOut := .wrapper .nil
  wrapper := rfl
  callee := .inl rfl
  recorded := by
    simp only [State.recorded, State.wrapping, List.flatMap_append, List.flatMap_cons, List.flatMap_nil,
      List.append_nil, List.append_assoc]
    rw [← List.append_assoc, ← List.append_assoc st.names.wrapper.1.toList]
    exact (List.perm_append_comm.append_right _).subperm

/-- A subject that was handed out can be put on record. -/
theorem oblige {st t : State} {ns : List HiddenName} (span : Span) (trace : Trace)
    (h : History { st with names := (st.names.fresh "unmatched").2 } ns t) :
    History st ((st.names.fresh "unmatched").1 :: ns) { t with
      obligations := t.obligations ++ [⟨(st.names.fresh "unmatched").1, span⟩], trace := trace } where
  handsOut := .fresh _ h.handsOut
  wrapper := h.wrapper
  callee := h.callee.imp_right fun ⟨hnone, c, hc, hsome⟩ => ⟨hnone, c, .tail _ hc, hsome⟩
  recorded := by
    have hfirst : (State.recorded { t with
        obligations := t.obligations ++ [⟨(st.names.fresh "unmatched").1, span⟩], trace := trace }).Perm
        ((st.names.fresh "unmatched").1 :: t.recorded) := by
      simp only [State.recorded, List.map_append, List.map_cons, List.map_nil]
      rw [← List.append_assoc, List.append_assoc (_ ++ _)]
      exact List.perm_middle
    exact hfirst.subperm.trans ((List.subperm_cons _).2 h.recorded)

/-- Names that go off the record leave the rest of the history as it is. -/
theorem withdraw (h : History st ns st') :
    History st ns { st' with obligations := st.obligations, wrappers := st.wrappers } where
  handsOut := h.handsOut
  wrapper := h.wrapper
  callee := h.callee
  recorded := by
    rcases h.callee with hc | ⟨hnone, c, hc, hsome⟩
    · have hsame : State.recorded { st' with obligations := st.obligations, wrappers := st.wrappers } =
          st.recorded := by
        rw [State.recorded, State.recorded, hc]
      rw [hsame]
      exact (List.sublist_append_right _ _).subperm
    · have hmore : State.recorded { st' with obligations := st.obligations, wrappers := st.wrappers } =
          st.recorded ++ [c] := by
        rw [State.recorded, State.recorded, hnone, hsome, Option.toList_none, Option.toList_some,
          List.append_nil]
      rw [hmore]
      have hone : [c].Subperm ns := (List.singleton_sublist.2 hc).subperm
      exact List.perm_append_comm.subperm.trans ((List.subperm_append_right _).2 hone)

end History

/-- The names in what is left of an expression and in the statements before it. -/
def liftNames (p : List Lowered × Option Expr) : List HiddenName := namesOf p.1 ++ Expr.namesOf? p.2

/-- Whatever the step comes to, it hands out names that were not in use. If it succeeds, the names
`shown` by its result are among these, those at hand, and those `given`. -/
def Draws (given : List HiddenName) (shown : α → List HiddenName) (m : Lower α) : Prop :=
  ∀ st, ∃ ns, History st ns (outcome m st).2 ∧
    ∀ a, (outcome m st).1 = .ok a → shown a ⊆ ns ++ st.atHand ++ given

namespace Draws

variable {given given' : List HiddenName} {shown : α → List HiddenName} {shown' : β → List HiddenName}
  {m : Lower α}

theorem mono (h : Draws given shown m) (hg : given ⊆ given') : Draws given' shown m := by
  intro st
  obtain ⟨ns, hist, hs⟩ := h st
  refine ⟨ns, hist, fun a ha => List.Subset.trans (hs a ha) ?_⟩
  exact List.append_subset.2 ⟨List.subset_append_left _ _, List.Subset.trans hg (List.subset_append_right _ _)⟩

theorem pure {x : α} (h : shown x ⊆ given) : Draws given shown (pure x) := by
  intro st
  refine ⟨[], .refl st, ?_⟩
  intro a ha
  cases ha
  exact List.Subset.trans h (List.subset_append_right _ _)

theorem throw (e : LoweringFailure) : Draws given shown (throw e : Lower α) := by
  intro st
  refine ⟨[], .refl st, ?_⟩
  intro a ha
  cases ha

theorem fail (fault : LoweringFault) (span : Span) : Draws given shown (fail fault span : Lower α) :=
  throw _

/-- What would follow a failure does not matter. -/
theorem thrown {e : LoweringFailure} {f : α → Lower β} :
    Draws given shown' (MonadExcept.throw e >>= f) := throw e

theorem bind {f : α → Lower β} (hm : Draws given shown m)
    (hf : ∀ a, Draws (shown a ++ given) shown' (f a)) : Draws given shown' (m >>= f) := by
  intro st
  obtain ⟨ns, hist, hs⟩ := hm st
  rw [outcome_bind]
  generalize outcome m st = r at hist hs ⊢
  obtain ⟨x, t⟩ := r
  cases x with
  | error e =>
    refine ⟨ns, hist, ?_⟩
    intro b hb
    cases hb
  | ok a =>
    obtain ⟨ms, hist', hs'⟩ := hf a t
    refine ⟨ns ++ ms, hist.trans hist', ?_⟩
    intro b hb n hn
    have hhand : ∀ n ∈ t.atHand, n ∈ ns ++ st.atHand := hist.atHand_subset
    have hshown : ∀ n ∈ shown a, n ∈ ns ++ st.atHand ++ given := hs a rfl
    have := hs' b hb hn
    grind

theorem pure_bind {x : α} {f : α → Lower β} (h : Draws given shown' (f x)) :
    Draws given shown' (Pure.pure x >>= f) := h

theorem ite {c : Prop} [Decidable c] {m n : Lower α} (hm : c → Draws given shown m)
    (hn : ¬ c → Draws given shown n) : Draws given shown (if c then m else n) := by
  split
  · exact hm ‹_›
  · exact hn ‹_›

/-- A step that changes neither names nor what is on record. -/
theorem keep {f : State → State} (hnames : ∀ st, (f st).names = st.names)
    (hwrapper : ∀ st, (f st).wrapper = st.wrapper) (hcallee : ∀ st, (f st).callee = st.callee)
    (hrecorded : ∀ st, (f st).recorded = st.recorded) :
    Draws given (fun _ => []) (modify f : Lower PUnit) := by
  intro st
  refine ⟨[], ⟨?_, hwrapper st, .inl (hcallee st), ?_⟩, fun _ _ => List.nil_subset _⟩
  · change st.names.HandsOut [] (f st).names
    rw [hnames]
    exact .nil
  · change (f st).recorded.Subperm _
    rw [hrecorded]
    exact .refl _

theorem record (e : Event) : Draws given (fun _ => []) (record e) :=
  keep (fun _ => rfl) (fun _ => rfl) (fun _ => rfl) fun _ => rfl

theorem require (c : Bool) : Draws given (fun _ => []) (require c) :=
  ite (fun _ => pure (List.nil_subset _)) fun _ => throw _

theorem fresh (role : String) : Draws given (fun n => [n]) (fresh role) := by
  intro st
  refine ⟨[(st.names.fresh role).1], .fresh st role, ?_⟩
  intro a ha
  cases ha
  exact List.cons_subset_cons _ (List.nil_subset _)

theorem delivered (sink : Sink) (value : Option Expr) (h : sink.names ⊆ given) :
    Draws (Expr.namesOf? value ++ given) namesOf (delivered sink value) := by
  unfold Lowering.delivered
  split
  · rename_i stmts hd
    apply pure
    exact List.Subset.trans (namesOf_deliver hd) (List.append_subset.2 ⟨List.subset_append_left _ _,
      List.Subset.trans h (List.subset_append_right _ _)⟩)
  · exact throw _

theorem withLoop (h : Draws given shown m) : Draws given shown (withLoop m) := by
  intro st
  obtain ⟨ns, hist, hs⟩ := h { st with loopDepth := st.loopDepth + 1 }
  exact ⟨ns, ⟨hist.handsOut, hist.wrapper, hist.callee, hist.recorded⟩, hs⟩

/-- Inside a wrapper its names are at hand. -/
theorem withWrapper {w : WrapperNames} (h : Draws given shown m) (hw : w.toList ⊆ given) :
    Draws given shown (withWrapper w m) := by
  intro st
  obtain ⟨ns, hist, hs⟩ := h { st with wrapper := some w, loopDepth := 0 }
  refine ⟨ns, ⟨hist.handsOut, rfl, hist.callee, hist.recorded⟩, ?_⟩
  intro a ha n hn
  have hmem := hs a ha hn
  have hgiven : ∀ n ∈ w.toList, n ∈ given := hw
  simp only [State.atHand, Option.map_some, Option.getD_some, List.mem_append] at hmem ⊢
  tauto

/-- What depends on the state can rely on what is at hand. -/
theorem get_bind {f : State → Lower α} (h : ∀ st, Draws (st.atHand ++ given) shown (f st)) :
    Draws given shown (get >>= f) := by
  intro st
  obtain ⟨ns, hist, hs⟩ := h st st
  refine ⟨ns, hist, ?_⟩
  intro a ha n hn
  have := hs a ha hn
  grind

theorem escapeTo (span : Span) {v : Expr} (hv : v.names ⊆ given) :
    Draws given namesOf (escapeTo span v) := by
  apply get_bind
  intro st
  split
  · exact fail _ _
  · rename_i w hw
    apply pure
    have hv : ∀ n ∈ v.names, n ∈ given := hv
    simp only [namesOf_cons, names, Name.names, Value.names, namesOf_nil, State.atHand, hw]
    grind [WrapperNames.toList]

theorem lift (span : Span) {e : Expr} (he : e.written = true) :
    Draws given liftNames (lift span e) := by
  induction e generalizing given with
  | plain text buried =>
    change Draws given liftNames (if _ then _ else _)
    exact ite (fun _ => thrown) fun _ => pure (List.nil_subset _)
  | hidden name => cases he
  | escape text mark operand ih =>
    refine (ih he).bind fun ⟨prelude, value⟩ => ?_
    cases value with
    | none => exact pure (List.subset_append_left _ _)
    | some v =>
      refine (escapeTo span ?_).bind fun stmts => pure ?_
      · grind [liftNames, Expr.namesOf?]
      · grind [liftNames, Expr.namesOf?]
  | logical c opening left before after right closing ihl ihr =>
    rw [Expr.written, Bool.and_eq_true] at he
    have hl := Expr.names_eq_nil he.1
    have hr := Expr.names_eq_nil he.2
    rw [Lowering.lift]
    refine ite (fun _ => pure ?_) fun _ => (ihl he.1).bind fun ⟨prelude, left?⟩ => ?_
    · simp [liftNames, Expr.namesOf?, Expr.names, hl, hr]
    cases left? with
    | none => exact pure (List.subset_append_left _ _)
    | some left' =>
      refine ite (fun _ => (require _).bind fun _ => pure ?_) fun _ => (fresh _).bind fun name =>
        (ihr he.2).bind fun ⟨guarded, right?⟩ => (require _).bind fun _ => pure ?_
      · grind [liftNames, Expr.namesOf?, Expr.names]
      · have htest : (connectiveTest c name).names = [name] := by cases c <;> rfl
        intro n hn
        simp only [liftNames, namesOf_append, namesOf_cons, namesOf_nil, names, namesOfArms, namesOf_suite, Name.names,
          Value.names, htest, Expr.namesOf?, Expr.names, Option.map_some, Option.getD_some, List.mem_append,
          List.mem_singleton, List.not_mem_nil, mem_namesOf_assigned] at hn ⊢
        tauto
  | conditional opening body ifText test elseText orelse closing ihb iht iho =>
    rw [Expr.written, Bool.and_eq_true, Bool.and_eq_true] at he
    obtain ⟨⟨hb, ht⟩, ho⟩ := he
    rw [Lowering.lift]
    refine ite (fun _ => pure ?_) fun _ => (iht ht).bind fun ⟨prelude, test?⟩ => ?_
    · simp [liftNames, Expr.namesOf?, Expr.names, Expr.names_eq_nil hb, Expr.names_eq_nil ht,
        Expr.names_eq_nil ho]
    cases test? with
    | none => exact pure (List.subset_append_left _ _)
    | some test' =>
      refine (fresh _).bind fun name => (ihb hb).bind fun ⟨first, body?⟩ =>
        (iho ho).bind fun ⟨second, orelse?⟩ => (require _).bind fun _ => pure ?_
      intro n hn
      cases body? <;> cases orelse? <;>
        simp [liftNames, names, namesOfArms, Test.names, Expr.namesOf?, Expr.names, mem_namesOf_assigned] at hn ⊢ <;>
        tauto

theorem lowerEscape {e : Escape} (he : e.value.written = true) :
    Draws given namesOf (lowerEscape e) := by
  refine (lift _ he).bind fun ⟨prelude, value⟩ => ?_
  cases value with
  | none => exact pure (by grind [liftNames])
  | some v =>
    refine (escapeTo _ ?_).bind fun stmts => pure ?_
    · grind [liftNames, Expr.namesOf?]
    · grind [liftNames]

theorem checkLoopControl (s : Simple) (span : Span) :
    Draws given (fun _ => []) (checkLoopControl s span) := by
  apply get_bind
  intro st
  refine ite (fun _ => ?_) fun _ => pure (List.nil_subset _)
  exact ite (fun _ => thrown) fun _ => ite (fun _ => fail _ _) fun _ => pure (List.nil_subset _)

theorem lowerSimple {s : Simple} (span : Span) (hs : s.value.all Expr.written = true) :
    Draws given namesOf (lowerSimple s span) := by
  refine (checkLoopControl s span).bind fun _ => ite (fun _ => pure ?_) fun _ => ?_
  · simp [names, Expr.namesOf?_eq_nil hs]
  cases hv : s.value with
  | none => exact pure (by simp [names, hv, Expr.namesOf?])
  | some e =>
    rw [hv] at hs
    refine (lift span hs).bind fun ⟨prelude, value⟩ => ?_
    cases value with
    | none => exact pure (by grind [liftNames])
    | some v => exact (require _).bind fun _ => pure (by grind [liftNames, names])

theorem afterLoop (escapes : Bool) : Draws given namesOf (afterLoop escapes) := by
  apply get_bind
  intro st
  split
  · rename_i w hw
    refine ite (fun _ => pure ?_) fun _ => pure (List.nil_subset _)
    simp [names, namesOfArms, Test.names, Expr.names, State.atHand, hw, WrapperNames.toList]
  · exact pure (List.nil_subset _)

theorem inWrapper {w : WrapperNames} {span : Span} {sink : Sink}
    {inside : Sink → Lower (List Lowered)} (hw : w.toList ⊆ given) (hs : sink.names ⊆ given)
    (h : ∀ {given} s, s.names ⊆ given → Draws given namesOf (inside s)) :
    Draws given (fun r => namesOf r.body) (Lowering.inWrapper w span sink inside) := by
  have hw : ∀ n ∈ w.toList, n ∈ given := hw
  refine (record _).bind fun _ => (require _).bind fun _ => ?_
  refine (withWrapper (h (innerSink w) hw) hw).bind fun tree => ?_
  have hresult : w.result ∈ given := hw _ (.head _)
  have hexit : w.exit ∈ given := hw _ (.tail _ (.head _))
  -- the code of the wrapper, with what is done after it
  have hcode (after : List Lowered) : namesOf ([.set (.hidden w.result) (.constant .none),
      .set (.hidden w.exit) (.constant .false), .whileLoop (.not w.exit) (suite tree)] ++ after) ⊆
      namesOf after ++ (namesOf tree ++ given) := by
    intro n hn
    simp only [namesOf_append, namesOf_cons, namesOf_nil, names, Name.names, Value.names, Test.names,
      namesOf_suite, List.append_nil, List.mem_append, List.mem_singleton] at hn ⊢
    rcases hn with (rfl | rfl | rfl | hn) | hn
    · exact .inr (.inr hresult)
    · exact .inr (.inr hexit)
    · exact .inr (.inr hexit)
    · exact .inr (.inl hn)
    · exact .inl hn
  refine ite (fun _ => ?_) fun _ => ?_
  · exact bind (pure (List.nil_subset _)) fun after => (record _).bind fun _ => pure (hcode after)
  have hvalue : Expr.namesOf? (some (.hidden w.result)) ++ given ⊆ namesOf tree ++ given := by
    intro n hn
    rcases List.mem_append.1 hn with hn | hn
    · rw [List.mem_singleton.1 hn]
      exact List.mem_append_right _ hresult
    · exact List.mem_append_right _ hn
  exact ((delivered sink _ hs).mono hvalue).bind fun after => (record _).bind fun _ => pure (hcode after)

theorem boundary {escapes : Bool} {span : Span} {sink : Sink} {inside : Sink → Lower (List Lowered)}
    (hs : sink.names ⊆ given)
    (h : ∀ {given} s, s.names ⊆ given → Draws given namesOf (inside s)) :
    Draws given (fun r => namesOf r.body) (boundary escapes span sink inside) := by
  cases escapes with
  | false =>
    rw [Lowering.boundary, Bool.not_false, if_pos rfl]
    exact (record _).bind fun _ => (h sink hs).bind fun body => pure (List.subset_append_left _ _)
  | true =>
    intro st
    rw [outcome_boundary]
    have hin : Draws (st.names.wrapper.1.toList ++ given) (fun r => namesOf r.body)
        (Lowering.inWrapper st.names.wrapper.1 span sink inside) :=
      inWrapper (List.subset_append_left _ _) (List.Subset.trans hs (List.subset_append_right _ _)) h
    obtain ⟨ns, hist, hshown⟩ := hin st.wrapping
    refine ⟨_, (History.wrapping st).trans hist, ?_⟩
    intro a ha n hn
    have hmem := hshown a ha hn
    have hhand : st.wrapping.atHand = st.atHand := rfl
    simp only [hhand, List.mem_append] at hmem ⊢
    tauto

theorem closeMatch {guards : Bool} {source : Expr} {cases : List LoweredCase} {span : Span}
    (hs : source.names ⊆ given) (hc : namesOfCases cases ⊆ given) :
    Draws given names (closeMatch guards source cases span) := by
  have hplain : names (.matchOn source cases none) ⊆ given := by
    simp [names, hs, hc]
  by_cases hcov : isCovered cases = true
  · rw [Lowering.closeMatch, if_pos hcov]
    exact (record _).bind fun _ => pure hplain
  cases guards with
  | false =>
    rw [Lowering.closeMatch, if_neg hcov]
    exact pure hplain
  | true =>
    intro st
    rw [outcome_closeMatch (Bool.eq_false_iff.2 hcov)]
    obtain ⟨ns, hist, hcallee⟩ := History.calling { st with names := (st.names.fresh "unmatched").2 }
    dsimp only
    split
    · refine ⟨_, History.oblige span _ hist, ?_⟩
      intro a ha n hn
      cases ha
      have hs : ∀ n ∈ source.names, n ∈ given := hs
      have hc : ∀ n ∈ namesOfCases cases, n ∈ given := hc
      simp only [names, CatchAll.names, Option.map_some, Option.getD_some, List.mem_append, List.mem_cons,
        List.not_mem_nil, or_false] at hn hcallee ⊢
      rcases hn with (hn | hn) | rfl | rfl
      · exact .inr (hs n hn)
      · exact .inr (hc n hn)
      · exact .inl (hcallee.imp_left .inr)
      · exact .inl (.inl (.inl rfl))
    · refine ⟨_, (History.fresh st "unmatched").trans hist, ?_⟩
      intro a ha
      cases ha

theorem andThen {here rest : Lower (List Lowered)} {leaves : Bool} (h : Draws given namesOf here)
    (hr : ∀ {given'}, given ⊆ given' → Draws given' namesOf rest) :
    Draws given namesOf (andThen here leaves rest) := by
  refine h.bind fun stmts => ite (fun _ => pure (List.subset_append_left _ _)) fun _ => ?_
  refine (hr (List.subset_append_right _ _)).bind fun more => pure ?_
  grind

variable (guards : Bool)

mutual

theorem lowerBlock {given : List HiddenName} {sink : Sink} (hs : sink.names ⊆ given) :
    ∀ {b : Block}, b.wellFormed true = true → Draws given namesOf (lowerBlock guards sink b)
  | .mk ss none _ _, hb => by
    simp only [Block.wellFormed, Bool.and_true] at hb
    refine lowerStatements (fun hg => ?_) hb
    exact delivered sink none (List.Subset.trans hs hg)
  | .mk ss (some t) span _, hb => by
    simp only [Block.wellFormed, Bool.and_eq_true] at hb
    exact lowerStatements (fun hg => lowerTail (List.Subset.trans hs hg) span hb.2) hb.1

theorem lowerStatements {given : List HiddenName} {finish : Lower (List Lowered)}
    (hf : ∀ {given'}, given ⊆ given' → Draws given' namesOf finish) :
    ∀ {ss : List Statement}, statementsWellFormed true ss = true →
      Draws given namesOf (lowerStatements guards finish ss)
  | [], _ => hf (List.Subset.refl _)
  | s :: rest, hss => by
    simp only [statementsWellFormed, Bool.and_eq_true] at hss
    have hr {given' : List HiddenName} (hg : given ⊆ given') :
        Draws given' namesOf (Lowering.lowerStatements guards finish rest) :=
      lowerStatements (fun hg' => hf (List.Subset.trans hg hg')) hss.2
    obtain ⟨hs, -⟩ := hss
    cases s with
    | simple s span => exact (lowerSimple span hs).andThen hr
    | escape e => exact (lowerEscape hs).andThen hr
    | letMatch primary source arms span =>
      simp only [Statement.wellFormed, Bool.and_eq_true] at hs
      refine (lift span hs.1.1).bind fun ⟨prelude, source?⟩ => ?_
      cases source? with
      | none => exact pure (by grind [liftNames])
      | some e =>
        refine (hr (List.subset_append_right _ _)).bind fun body => (lowerArms hs.2).bind fun cases => ?_
        refine (closeMatch ?_ ?_).bind fun m => pure ?_
        · grind [liftNames, Expr.namesOf?]
        · grind [namesOfCases, Expr.namesOf?]
        · grind [liftNames]
    | conditional c => exact (lowerConditional (List.nil_subset _) hs).andThen hr
    | whileLoop test body span =>
      simp only [Statement.wellFormed, Bool.and_eq_true] at hs
      refine andThen (bind (withLoop (lowerBlock (List.nil_subset _) hs.2)) fun inside => ?_) hr
      refine (afterLoop _).bind fun after => pure ?_
      have htest := Bool.and_eq_true_iff.1 hs.1
      grind [names, Test.names, Expr.names_eq_nil]
    | forLoop target iterable body span =>
      simp only [Statement.wellFormed, Bool.and_eq_true] at hs
      refine andThen ((lift span hs.1).bind fun ⟨prelude, iterable?⟩ => ?_) hr
      cases iterable? with
      | none => exact pure (by grind [liftNames])
      | some e =>
        refine bind (withLoop (lowerBlock (List.nil_subset _) hs.2)) fun inside => ?_
        refine (afterLoop _).bind fun after => pure ?_
        grind [names, liftNames, Expr.namesOf?]
    | nested sink b span =>
      simp only [Statement.wellFormed, Bool.and_eq_true] at hs
      refine andThen (bind (boundary ?_ fun s h => lowerBlock h hs.2) fun r => pure ?_) hr
      · rw [Sink.names_eq_nil hs.1]
        exact List.nil_subset _
      · exact List.subset_append_left _ _

theorem lowerTail {given : List HiddenName} {sink : Sink} (hs : sink.names ⊆ given) (span : Span) :
    ∀ {t : Tail}, t.wellFormed true = true → Draws given namesOf (lowerTail guards sink span t)
  | .value e, ht => by
    refine (lift span ht).bind fun ⟨prelude, value⟩ => ?_
    cases value with
    | none => exact pure (by grind [liftNames])
    | some v =>
      refine ((delivered sink (some v) hs).mono ?_).bind fun stmts => pure ?_
      all_goals grind [liftNames]
  | .escape e, ht => lowerEscape ht
  | .conditional c, ht => lowerConditional hs ht
  | .block b, ht => bind (boundary hs fun s h => lowerBlock h ht) fun r => pure (List.subset_append_left _ _)

theorem lowerArms {given : List HiddenName} : ∀ {arms : List Arm}, armsWellFormed true arms = true →
    Draws given namesOfCases (lowerArms guards arms)
  | [], _ => pure (List.nil_subset _)
  | .mk pattern guard body span _ :: rest, ha => by
    simp only [armsWellFormed, Bool.and_eq_true] at ha
    refine ite (fun _ => thrown) fun _ => (lowerBlock (List.nil_subset _) ha.1.2).bind fun b => ?_
    refine (lowerArms ha.2).bind fun cases => pure ?_
    have hguard : Expr.namesOf? guard = [] := by
      apply Expr.namesOf?_eq_nil
      cases guard with
      | none => rfl
      | some g => exact (Bool.and_eq_true_iff.1 ha.1.1).1
    grind [namesOfCases]

theorem lowerConditional {given : List HiddenName} {sink : Sink} (hs : sink.names ⊆ given) :
    ∀ {c : Conditional}, c.wellFormed true = true →
      Draws given namesOf (lowerConditional guards sink c)
  | .mk bs none span, hc => by
    simp only [Conditional.wellFormed, Bool.and_eq_true] at hc
    refine (delivered sink none hs).bind fun stmts => pure_bind ?_
    refine (lowerBranches (List.Subset.trans hs (List.subset_append_right _ _)) span ?_ hc.1.2).bind fun r => pure ?_
    · split
      · exact List.nil_subset _
      · exact List.subset_append_left _ _
    · exact List.subset_append_left _ _
  | .mk bs (some b) span, hc => by
    simp only [Conditional.wellFormed, Bool.and_eq_true] at hc
    refine (lowerBlock hs hc.2).bind fun stmts => pure_bind ?_
    refine (lowerBranches (List.Subset.trans hs (List.subset_append_right _ _)) span ?_ hc.1.2).bind fun r => pure ?_
    · simp
    · exact List.subset_append_left _ _

theorem lowerBranches {given : List HiddenName} {sink : Sink} (hs : sink.names ⊆ given) (span : Span)
    {orelse : Option (List Lowered)} (ho : namesOf (orelse.getD []) ⊆ given) :
    ∀ {bs : List Branch}, branchesWellFormed true bs = true →
      Draws given (fun r => namesOf (r.getD [])) (lowerBranches guards sink span orelse bs)
  | [], _ => pure (List.nil_subset _)
  | .mk test body :: rest, hb => by
    simp only [branchesWellFormed, Bool.and_eq_true] at hb
    refine (lowerBranches hs span ho hb.2).bind fun later => ?_
    -- what comes after the branch: the chain of later branches, or else `orelse`
    have hchain : (Lowered.branch ((later.map continueWith).getD ([], orelse)).1
        ((later.map continueWith).getD ([], orelse)).2).names ⊆ namesOf (later.getD []) ++ given := by
      cases later with
      | none => simpa [names_branch, namesOfArms] using ho
      | some chain => simp [names_continueWith]
    refine (lift span hb.1.1).bind fun ⟨prelude, test?⟩ => ?_
    cases test? with
    | none => exact pure (by grind [liftNames])
    | some t =>
      refine (lowerBlock (List.Subset.trans hs ?_) hb.1.2).bind fun stmts => pure ?_
      · grind
      · grind [liftNames, Expr.namesOf?, namesOfArms, Test.names]

end

theorem lower {sink : Sink} {b : Block} (hs : sink.names ⊆ given) (hb : b.wellFormed true = true) :
    Draws given (fun r => namesOf r.body) (lower guards sink b) :=
  boundary hs fun _ h => lowerBlock guards h hb

/-- A site that fails takes its names off the record, but they stay handed out. -/
theorem lowerSite {sink : Sink} {b : Block} (hs : sink.names ⊆ given) (hb : b.wellFormed true = true) :
    Draws given (fun r => namesOf r.body) (lowerSite guards sink b) := by
  intro st
  obtain ⟨ns, hist, hshown⟩ := lower guards hs hb st
  rw [outcome_lowerSite]
  generalize outcome (Lowering.lower guards sink b) st = r at hist hshown ⊢
  unfold settle
  split
  · refine ⟨ns, hist.withdraw, ?_⟩
    intro a ha
    cases ha
  · exact ⟨ns, hist, hshown⟩

end Draws

/-- The states that lowering can be in between blocks, whether these were lowered or refused. -/
inductive Reached (guards : Bool) (names : Allocator) : State → Prop
  | start : Reached guards names (.initial names)
  | lowered {st : State} {b : Block} (sink : Sink) : b.wellFormed true = true → Reached guards names st →
    Reached guards names (outcome (lowerSite guards sink b) st).2
  | traced {st : State} (trace : Trace) : Reached guards names st →
    Reached guards names { st with trace := trace }

namespace Reached

variable {guards : Bool} {names : Allocator} {st : State}

theorem history (h : Reached guards names st) : ∃ ns, History (.initial names) ns st := by
  induction h with
  | start => exact ⟨[], .refl _⟩
  | @lowered st b sink hb _ ih =>
    obtain ⟨ns, hist⟩ := ih
    obtain ⟨ms, hist', -⟩ := Draws.lowerSite guards (List.Subset.refl sink.names) hb st
    exact ⟨ns ++ ms, hist.trans hist'⟩
  | @traced st trace _ ih =>
    obtain ⟨ns, hist⟩ := ih
    exact ⟨ns, hist.handsOut, hist.wrapper, hist.callee, hist.recorded⟩

/-- No two names on record are written alike. -/
theorem nodup_recorded (h : Reached guards names st) : (st.recorded.map HiddenName.render).Nodup := by
  obtain ⟨ns, hist⟩ := h.history
  have hrecorded : st.recorded.Subperm ns := by
    simpa [State.recorded, State.initial] using hist.recorded
  obtain ⟨l, hperm, hsub⟩ := hrecorded
  have hl : (l.map HiddenName.render).Nodup := hist.handsOut.nodup.sublist (hsub.map _)
  exact (hperm.map _).nodup_iff.1 hl

end Reached

end Lowering

end DoBlocks
