import DoBlocks.Proofs.Constructs
import DoBlocks.Proofs.InnerBlocks
import DoBlocks.Proofs.Preservation

/-!
# Code that is never run to its end

Of a block it can be seen that it diverges: every path through it leaves it by an escape, `return`, `raise`
or loop control. What is written behind such code is dropped, and a fallback arm has to be such code. Both
rest on the same fact about lowered code, which is looked at only through the forms of its statements: where
the block diverges, no path through its lowered code reaches the end.
-/

namespace DoBlocks

open Program

/-- A simple statement of this form passes control on to elsewhere. -/
def SimpleForm.leaves : SimpleForm → Bool
  | .return | .raise | .break | .continue => true
  | _ => false

theorem Simple.diverges_eq (s : Simple) :
    s.diverges = ((s.value.map Expr.alwaysEscapes).getD false || s.form.leaves) := by
  unfold Simple.diverges
  generalize (s.value.map Expr.alwaysEscapes).getD false = escapes
  cases s.form <;> cases escapes <;> rfl

/-! ### Completion -/

namespace Lowered

open Lowering

mutual

/-- Some path through the statement reaches its end, where every loop may end, every test may have either
value and every case may be taken. -/
def completes : Lowered → Bool
  | simple s => !s.form.leaves
  | .return _ => false
  | .break => false
  | branch _ none => true
  | branch arms (some body) => armsComplete arms || allComplete body
  | matchOn _ cases catchAll => casesComplete cases || !(isCovered cases || catchAll.isSome)
  | _ => true

/-- Some path through the statements reaches their end. -/
def allComplete : List Lowered → Bool
  | [] => true
  | s :: rest => s.completes && allComplete rest

def armsComplete : List LoweredArm → Bool
  | [] => false
  | .mk _ body :: rest => allComplete body || armsComplete rest

def casesComplete : List LoweredCase → Bool
  | [] => false
  | .mk _ _ body :: rest => allComplete body || casesComplete rest

end

mutual

/-- The bodies of the fallback cases in a statement, which are all cases but the first of each match. -/
def fallbacks : Lowered → List (List Lowered)
  | branch arms none => fallbacksOfArms arms
  | branch arms (some body) => fallbacksOfArms arms ++ fallbacksOf body
  | whileLoop _ body => fallbacksOf body
  | forLoop _ _ body => fallbacksOf body
  | matchOn _ (.mk _ _ body :: cases) _ => fallbacksOf body ++ fallbacksOfCases cases
  | _ => []

def fallbacksOf : List Lowered → List (List Lowered)
  | [] => []
  | s :: rest => s.fallbacks ++ fallbacksOf rest

def fallbacksOfArms : List LoweredArm → List (List Lowered)
  | [] => []
  | .mk _ body :: rest => fallbacksOf body ++ fallbacksOfArms rest

/-- The bodies of cases that are all fallback cases, and those inside them. -/
def fallbacksOfCases : List LoweredCase → List (List Lowered)
  | [] => []
  | .mk _ _ body :: rest => body :: fallbacksOf body ++ fallbacksOfCases rest

end

@[simp] theorem allComplete_nil : allComplete [] = true := rfl

@[simp] theorem allComplete_cons (s : Lowered) (rest : List Lowered) :
    allComplete (s :: rest) = (s.completes && allComplete rest) := rfl

@[simp] theorem allComplete_append (xs ys : List Lowered) :
    allComplete (xs ++ ys) = (allComplete xs && allComplete ys) := by
  induction xs with
  | nil => rfl
  | cons s rest ih => simp [ih, Bool.and_assoc]

@[simp] theorem allComplete_suite (stmts : List Lowered) : allComplete (suite stmts) = allComplete stmts := by
  cases stmts <;> rfl

theorem completes_branch_cons (test : Test) (body : List Lowered) (arms : List LoweredArm)
    (orelse : Option (List Lowered)) :
    (branch (.mk test body :: arms) orelse).completes =
      (allComplete body || (branch arms orelse).completes) := by
  cases orelse <;> simp [completes, armsComplete, Bool.or_assoc]

/-- A chain put behind an `if` is completed as the chain is. -/
theorem completes_continueWith (chain : List Lowered) :
    (branch (continueWith chain).1 (continueWith chain).2).completes = allComplete chain := by
  unfold continueWith
  split
  · simp
  · simp [completes, armsComplete]

@[simp] theorem fallbacksOf_nil : fallbacksOf [] = [] := rfl

@[simp] theorem fallbacksOf_cons (s : Lowered) (rest : List Lowered) :
    fallbacksOf (s :: rest) = s.fallbacks ++ fallbacksOf rest := rfl

@[simp] theorem fallbacksOf_append (xs ys : List Lowered) :
    fallbacksOf (xs ++ ys) = fallbacksOf xs ++ fallbacksOf ys := by
  induction xs with
  | nil => rfl
  | cons s rest ih => simp [ih]

@[simp] theorem fallbacksOf_suite (stmts : List Lowered) : fallbacksOf (suite stmts) = fallbacksOf stmts := by
  cases stmts <;> rfl

theorem fallbacks_branch (arms : List LoweredArm) (orelse : Option (List Lowered)) :
    (branch arms orelse).fallbacks = fallbacksOfArms arms ++ fallbacksOf (orelse.getD []) := by
  cases orelse <;> simp [fallbacks]

theorem fallbacks_continueWith (chain : List Lowered) :
    (branch (continueWith chain).1 (continueWith chain).2).fallbacks = fallbacksOf chain := by
  unfold continueWith
  split
  · simp
  · simp [fallbacks_branch, fallbacksOfArms]

/-- If no fallback case is completed, no path through the cases reaches their end. -/
theorem casesComplete_eq_false {cases : List LoweredCase}
    (h : ∀ body ∈ fallbacksOfCases cases, allComplete body = false) : casesComplete cases = false := by
  induction cases with
  | nil => rfl
  | cons c rest ih =>
    obtain ⟨pattern, guard, body⟩ := c
    simp only [fallbacksOfCases, List.cons_append, List.forall_mem_cons, List.forall_mem_append] at h
    rw [casesComplete, h.1, ih h.2.2]
    rfl

end Lowered

/-! ### Completion and runs -/

namespace Interpretation

open Lowered Lowering

variable {σ V ι : Type} (I : Interpretation σ V ι) {s s' : σ × Store V}

theorem leaves_eq_false_of_transfer {E : Type} {form : SimpleForm} {v : V} {u u' : σ × Store V}
    (h : (transfer form v : Program _ V E Unit) u (.ok ()) u') : form.leaves = false := by
  cases form <;> first | rfl | cases h.1

theorem isCovered_eq_false_of_selects {pattern : Pattern} {guard : Option Expr} {v : V}
    (h : I.selects pattern guard v s (.ok false) s') : (pattern.irrefutable && guard.isNone) = false := by
  obtain ⟨b, t, hb, h⟩ := bind_ok_iff.1 h
  cases b with
  | false =>
    obtain ⟨⟨x, hx, hr⟩, -⟩ := hb
    cases x with
    | error x => cases hr
    | ok b =>
      cases hr
      rw [Bool.and_eq_false_iff]
      exact .inl (Bool.eq_false_iff.2 fun hp => I.accept_irrefutable hp hx)
  | true =>
    cases guard with
    | some g => simp
    | none => cases h.1

variable {I}

mutual

/-- A statement that is run to its end can be completed. -/
theorem completes_of_exec : ∀ {x : Lowered} {s s' : σ × Store V}, I.exec x s (.ok ()) s' →
    x.completes = true
  | .simple x, s, s', h => by
    obtain ⟨v, t, -, h⟩ := bind_ok_iff.1 h
    rw [completes, leaves_eq_false_of_transfer h]
    rfl
  | .assign _ _, _, _, _ => rfl
  | .set _ _, _, _, _ => rfl
  | .return none, s, s', h => by cases h.1
  | .return (some e), s, s', h => by
    obtain ⟨v, t, -, h⟩ := bind_ok_iff.1 h
    cases h.1
  | .evaluate _, _, _, _ => rfl
  | .break, s, s', h => by cases h.1
  | .pass, _, _, _ => rfl
  | .branch _ none, _, _, _ => rfl
  | .branch arms (some body), s, s', h => by
    rw [completes, Bool.or_eq_true]
    rcases armsComplete_of_exec h with h | ⟨t, h⟩
    · exact .inl h
    · exact .inr (allComplete_of_exec h)
  | .whileLoop _ _, _, _, _ => rfl
  | .forLoop _ _ _, _, _, _ => rfl
  | .matchOn e cases catchAll, s, s', h => by
    obtain ⟨v, t, -, h⟩ := bind_ok_iff.1 h
    rw [completes, Bool.or_eq_true]
    rcases casesComplete_of_exec h with h | ⟨hc, t, h⟩
    · exact .inl h
    · cases catchAll with
      | none => simp [hc]
      | some c =>
        obtain ⟨_, _, -, h⟩ := bind_ok_iff.1 h
        cases h.1

theorem allComplete_of_exec : ∀ {xs : List Lowered} {s s' : σ × Store V}, I.execAll xs s (.ok ()) s' →
    allComplete xs = true
  | [], _, _, _ => rfl
  | x :: rest, s, s', h => by
    obtain ⟨_, t, hx, h⟩ := bind_ok_iff.1 h
    rw [allComplete_cons, completes_of_exec hx, allComplete_of_exec h]
    rfl

theorem armsComplete_of_exec {other : Code σ V Unit} : ∀ {arms : List LoweredArm} {s s' : σ × Store V},
    I.execArms other arms s (.ok ()) s' → armsComplete arms = true ∨ ∃ t, other t (.ok ()) s'
  | [], s, _, h => .inr ⟨s, h⟩
  | .mk test body :: rest, s, s', h => by
    obtain ⟨b, t, -, h⟩ := bind_ok_iff.1 h
    cases b with
    | true =>
      rw [armsComplete, allComplete_of_exec h]
      exact .inl rfl
    | false =>
      refine (armsComplete_of_exec h).imp_left fun h => ?_
      rw [armsComplete, h, Bool.or_true]

theorem casesComplete_of_exec {v : V} {other : Code σ V Unit} :
    ∀ {cases : List LoweredCase} {s s' : σ × Store V}, I.execCases v other cases s (.ok ()) s' →
      casesComplete cases = true ∨ isCovered cases = false ∧ ∃ t, other t (.ok ()) s'
  | [], s, _, h => .inr ⟨rfl, s, h⟩
  | .mk pattern guard body :: rest, s, s', h => by
    obtain ⟨b, t, hb, h⟩ := bind_ok_iff.1 h
    cases b with
    | true =>
      rw [casesComplete, allComplete_of_exec h]
      exact .inl rfl
    | false =>
      rcases casesComplete_of_exec h with h | ⟨hc, h⟩
      · rw [casesComplete, h, Bool.or_true]
        exact .inl rfl
      · rw [isCovered_cons, I.isCovered_eq_false_of_selects hb, hc]
        exact .inr ⟨rfl, h⟩

end

end Interpretation

/-! ### Blocks that diverge -/

/-- The tail always transfers control away. -/
def Tail.diverges : Tail → Bool
  | .value e => e.alwaysEscapes
  | .escape _ => true
  | .conditional c => c.diverges
  | .block _ => false

theorem Block.diverges_mk (ss : List Statement) (t : Tail) (span : Span) (boundary : Bool) :
    (Block.mk ss (some t) span boundary).diverges = (statementsDiverge ss || t.diverges) := by
  cases t <;> rfl

namespace Lowering

open Lowered

variable {span : Span} {st st' : State}
variable {stmts : List Lowered} {sink : Sink} {value : Option Expr} {e : Expr} {inside : Sink → Lower (List Lowered)}
  {escapes : Bool} {orelse : Option (List Lowered)}

/-- Lowered code of something that `leaves`: no path reaches its end, and in no case does one reach the end of
a fallback case. -/
structure Sound (leaves : Prop) (stmts : List Lowered) : Prop where
  stops : leaves → allComplete stmts = false
  sealed : ∀ body ∈ fallbacksOf stmts, allComplete body = false

namespace Sound

variable {leaves leaves' : Prop} {xs ys : List Lowered}

theorem mono (h : Sound leaves xs) (hl : leaves' → leaves) : Sound leaves' xs := ⟨fun hx => h.stops (hl hx), h.sealed⟩

theorem append (hx : Sound leaves xs) (hy : Sound leaves' ys) : Sound (leaves ∨ leaves') (xs ++ ys) where
  stops h := by
    rw [allComplete_append, Bool.and_eq_false_iff]
    exact h.imp hx.stops hy.stops
  sealed body hb := by
    rw [fallbacksOf_append] at hb
    rcases List.mem_append.1 hb with hb | hb
    · exact hx.sealed body hb
    · exact hy.sealed body hb

theorem suite (h : Sound leaves xs) : Sound leaves (suite xs) := by
  refine ⟨fun hl => ?_, fun body hb => h.sealed body ?_⟩
  · rw [allComplete_suite]
    exact h.stops hl
  · rwa [fallbacksOf_suite] at hb

theorem of_fallbacksOf_eq_nil (h : fallbacksOf xs = []) (hl : leaves → allComplete xs = false) : Sound leaves xs := by
  refine ⟨hl, fun body hb => ?_⟩
  rw [h] at hb
  cases hb

end Sound

theorem sound_nil : Sound False [] := .of_fallbacksOf_eq_nil rfl False.elim

/-! ### Delivery and lifting -/

theorem allComplete_flagged {flag : Option Name} {main : List Lowered} (h : flagged flag main = .ok stmts) :
    allComplete stmts = allComplete main := by
  unfold flagged at h
  split at h
  · cases h
    rfl
  · split at h
    · cases h
      rfl
    · split at h
      · cases h
        simp [completes]
      · cases h

/-- A delivered value is either returned or passed on. -/
theorem allComplete_deliver (h : deliver sink value = .ok stmts) : allComplete stmts = !sink.isReturn := by
  obtain ⟨main, hp, hf⟩ := deliver_eq_ok h
  rw [allComplete_flagged hf, Sink.isReturn]
  unfold placed at hp
  split at hp <;> rename_i hd <;> rw [hd]
  · split at hp
    · cases hp
      rfl
    · split at hp <;> cases hp
      rfl
  · cases hp
    rfl
  · cases hp
    cases value <;> rfl

theorem sound_deliver (h : deliver sink value = .ok stmts) : Sound (sink.isReturn = true) stmts := by
  refine .of_fallbacksOf_eq_nil ?_ fun hs => by rw [allComplete_deliver h, hs]; rfl
  obtain ⟨main, flag, rfl, hmain, hflag⟩ := deliver_cases h
  rcases hmain with rfl | rfl | ⟨v, -, rfl⟩ | ⟨targets, -, rfl⟩ <;>
    rcases hflag with rfl | ⟨name, -, rfl⟩ <;> rfl

theorem sound_leaveWrapper (w : WrapperNames) (v : Expr) : Sound True (leaveWrapper w v) :=
  .of_fallbacksOf_eq_nil rfl fun _ => rfl

theorem fallbacksOf_assigned (name : HiddenName) (value : Option Expr) :
    fallbacksOf (assigned name value) = [] := by
  cases value <;> rfl

/-- One of two branches behind a test is run. -/
theorem sound_either {leaves leaves' : Prop} {xs ys : List Lowered} (hx : Sound leaves xs)
    (hy : Sound leaves' ys) (test : Test) :
    Sound (leaves ∧ leaves') [.branch [.mk test (suite xs)] (some (suite ys))] where
  stops h := by simp [completes, armsComplete, hx.stops h.1, hy.stops h.2]
  sealed body hb := by
    simp only [fallbacksOf_cons, fallbacks, fallbacksOfArms, fallbacksOf_suite, fallbacksOf_nil,
      List.append_nil, List.mem_append] at hb
    exact hb.elim (hx.sealed body) (hy.sealed body)

/-- Nothing is completed where a value is computed in vain. -/
theorem Sound.assigned {xs : List Lowered} {value : Option Expr} (h : Sound (value = none) xs)
    (name : HiddenName) : Sound (value = none) (xs ++ assigned name value) := by
  have hassigned : Sound False (Lowering.assigned name value) :=
    .of_fallbacksOf_eq_nil (fallbacksOf_assigned name value) False.elim
  exact (h.append hassigned).mono .inl

/-- If lifting leaves no value, the code before it is not completed. -/
theorem sound_lift {p : List Lowered × Option Expr} (h : Yields (lift span e) st p st') :
    Sound (p.2 = none) p.1 := by
  induction e generalizing st p st' with
  | plain text buried =>
    obtain ⟨rfl, -⟩ := h.lift_of_not_hasEscape h.lift_plain
    exact .of_fallbacksOf_eq_nil rfl nofun
  | hidden name =>
    obtain ⟨rfl, -⟩ := h.lift_of_not_hasEscape rfl
    exact .of_fallbacksOf_eq_nil rfl nofun
  | escape text mark operand ih =>
    obtain ⟨prelude, ho, rfl⟩ | ⟨prelude, v, w, ho, -, rfl⟩ := h.lift_escape
    · exact ih ho
    · exact ((ih ho).append (sound_leaveWrapper w v)).mono fun _ => .inr trivial
  | logical c opening left before after right closing ihl ihr =>
    by_cases he : (left.hasEscape || right.hasEscape) = true
    · obtain ⟨prelude, hl, rfl⟩ | ⟨prelude, left', hl, -, rfl⟩ |
        ⟨prelude, left', t, name, inner, right?, hl, -, hr, rfl⟩ := h.lift_logical he
      · exact ihl hl
      · exact (ihl hl).mono nofun
      · have hguarded : Sound False [.set (.hidden name) (.expr left'), .branch [.mk (connectiveTest c name)
            (suite (inner ++ assigned name right?))] none] := by
          refine ⟨False.elim, fun body hb => (ihr hr).sealed body ?_⟩
          simpa [fallbacks, fallbacksOfArms, fallbacksOf_assigned] using hb
        exact ((ihl hl).append hguarded).mono nofun
    · obtain ⟨rfl, -⟩ := h.lift_of_not_hasEscape (by simpa using he)
      exact .of_fallbacksOf_eq_nil rfl nofun
  | conditional opening body ifText test elseText orelse closing ihb iht iho =>
    by_cases he : (body.hasEscape || test.hasEscape || orelse.hasEscape) = true
    · obtain ⟨prelude, ht, rfl⟩ |
        ⟨prelude, test', t, name, first, body?, t', second, orelse?, ht, -, hb, ho, rfl⟩ :=
          h.lift_conditional he
      · exact iht ht
      · refine ((iht ht).append
          (sound_either ((ihb hb).assigned name) ((iho ho).assigned name) (.expr test'))).mono fun hnone => .inr ?_
        cases body? <;> cases orelse? <;> simp_all
    · obtain ⟨rfl, -⟩ := h.lift_of_not_hasEscape (by simpa using he)
      exact .of_fallbacksOf_eq_nil rfl nofun

theorem sound_lowerEscape {e : Escape} (h : Yields (lowerEscape e) st stmts st') :
    Sound True stmts := by
  obtain hl | ⟨prelude, v, w, hl, -, rfl⟩ := h.lowerEscape_cases
  · exact (sound_lift hl).mono fun _ => rfl
  · exact ((sound_lift hl).append (sound_leaveWrapper w v)).mono .inr

theorem sound_simple (s : Simple) : Sound (s.form.leaves = true) [.simple s] :=
  .of_fallbacksOf_eq_nil rfl fun h => by simp [completes, h]

theorem sound_lowerSimple {s : Simple} (h : Yields (lowerSimple s span) st stmts st') :
    Sound (s.diverges = true) stmts := by
  rw [Simple.diverges_eq]
  obtain ⟨-, ⟨he, rfl⟩ | ⟨e, prelude, value, hv, -, hl, rfl⟩⟩ := h.lowerSimple_cases
  · have ha : (s.value.map Expr.alwaysEscapes).getD false = false := by
      cases hv : s.value with
      | none => rfl
      | some e => exact Bool.eq_false_iff.2 fun h => by simpa [Expr.hasEscape_of_alwaysEscapes h] using he e hv
    rw [ha, Bool.false_or]
    exact sound_simple s
  · rw [hv, Option.map_some, Option.getD_some]
    cases value with
    | none => simpa using (sound_lift hl).mono fun _ => rfl
    | some v =>
      have ha : e.alwaysEscapes = false :=
        Bool.eq_false_iff.2 fun h => by simpa using hl.lift_of_alwaysEscapes h
      rw [ha, Bool.false_or]
      exact ((sound_lift hl).append (sound_simple { s with value := some v })).mono .inr

/-! ### Blocks -/

theorem sound_andThen {here rest : Lower (List Lowered)} {leaves : Bool} {later : Prop}
    (hh : Always here (Sound (leaves = true))) (hr : Always rest (Sound later)) :
    Always (andThen here leaves rest) (Sound (leaves = true ∨ later)) := by
  intro st stmts st' h
  obtain ⟨hl, h⟩ | ⟨-, first, t, second, hfirst, hsecond, rfl⟩ := h.andThen_cases
  · exact (hh h).mono fun _ => hl
  · exact (hh hfirst).append (hr hsecond)

theorem sound_loop {inside : Lower (List Lowered)} {leaves : Prop} {prelude : List Lowered}
    {loop : List Lowered → Lowered} (hp : Sound False prelude) (hl : ∀ body, (loop body).fallbacks = fallbacksOf body)
    (hi : Always inside (Sound leaves)) (h : Yields (do
      let body ← withLoop inside
      return prelude ++ loop (suite body) :: (← afterLoop escapes)) st stmts st') : Sound False stmts := by
  obtain ⟨body, t, after, hbody, hafter, rfl⟩ := h.loop_cases
  refine ⟨False.elim, fun fallback hf => ?_⟩
  have hnil : fallbacksOf after = [] := by
    rcases hafter with rfl | ⟨w, rfl⟩ <;> rfl
  simp only [fallbacksOf_append, fallbacksOf_cons, hl, fallbacksOf_suite, hnil, List.append_nil,
    List.mem_append] at hf
  exact hf.elim (hp.sealed fallback) ((hi hbody).sealed fallback)

/-- A match that leaves no value over completes if one of its cases does. -/
theorem sound_match {leaves : Prop} {primary : Pattern} {body : List Lowered} {cases : List LoweredCase}
    {catchAll : Option CatchAll} (hb : Sound leaves body)
    (hc : ∀ body ∈ fallbacksOfCases cases, allComplete body = false)
    (hall : isCovered (.mk primary none (suite body) :: cases) = true ∨ catchAll.isSome = true) :
    Sound leaves [.matchOn e (.mk primary none (suite body) :: cases) catchAll] where
  stops h := by
    have hclosed := Bool.or_eq_true_iff.2 hall
    simp [completes, hclosed, casesComplete, hb.stops h, casesComplete_eq_false hc]
  sealed fallback hf := by
    simp only [fallbacksOf_cons, fallbacks, fallbacksOf_suite, fallbacksOf_nil, List.append_nil,
      List.mem_append] at hf
    exact hf.elim (hb.sealed fallback) (hc fallback)

/-- A branch is followed by what is done if it is not taken. -/
theorem sound_branch {leaves leaves' : Prop} {test : Test} {inside : List Lowered} {arms : List LoweredArm}
    (hi : Sound leaves inside) (hc : Sound leaves' [.branch arms orelse]) :
    Sound (leaves ∧ leaves') [.branch (.mk test (suite inside) :: arms) orelse] where
  stops h := by
    have hchain := hc.stops h.2
    rw [allComplete_cons, allComplete_nil, Bool.and_true] at hchain ⊢
    rw [completes_branch_cons, allComplete_suite, hi.stops h.1, hchain]
    rfl
  sealed fallback hf := by
    have hchain := hc.sealed fallback
    simp only [fallbacksOf_cons, fallbacks_branch, fallbacksOfArms, fallbacksOf_suite, fallbacksOf_nil,
      List.append_nil, List.append_assoc] at hf hchain
    exact (List.mem_append.1 hf).elim (hi.sealed fallback) hchain

/-- What later branches come to is what is done if the branches before them are not taken. -/
theorem sound_continuation {leaves : Prop} {later : Option (List Lowered)}
    (h : Sound leaves (later.getD [.branch [] orelse])) :
    Sound leaves [.branch ((later.map continueWith).getD ([], orelse)).1
      ((later.map continueWith).getD ([], orelse)).2] := by
  cases later with
  | none => exact h
  | some chain =>
    refine ⟨fun hl => ?_, fun fallback hf => h.sealed fallback ?_⟩
    · rw [allComplete_cons, allComplete_nil, Bool.and_true]
      exact (completes_continueWith chain).trans (h.stops hl)
    · rw [fallbacksOf_cons, fallbacksOf_nil, List.append_nil] at hf
      exact fallbacks_continueWith chain ▸ hf

theorem sound_boundary {leaves : Prop} (hi : ∀ s, Always (inside s) (Sound (leaves ∨ s.isReturn = true))) :
    Always (boundary escapes span sink inside)
      fun r => Sound (escapes = false ∧ leaves ∨ sink.isReturn = true) r.body := by
  intro st r st' h
  obtain ⟨-, t, hy, -⟩ | ⟨he, w, t, t', tree, after, hy, -, -, ha, hr⟩ := h.boundary_cases
  · exact (hi sink hy).mono (.imp_left And.right)
  · have hafter : Sound (sink.isReturn = true) after := by
      split at ha
      · rename_i hd
        refine ha ▸ .of_fallbacksOf_eq_nil rfl fun hret => ?_
        simp_all [Sink.isReturn, Sink.isDiscard]
      · exact sound_deliver ha
    have hloop : Sound False [.set (.hidden w.result) (.constant .none), .set (.hidden w.exit) (.constant .false),
        .whileLoop (.not w.exit) (suite tree)] := by
      refine ⟨False.elim, fun fallback hf => (hi _ hy).sealed fallback ?_⟩
      simpa [fallbacks] using hf
    rw [hr, he]
    exact (hloop.append hafter).mono (.imp_left fun h => Bool.noConfusion h.1)

mutual

theorem sound_lowerBlock (sink : Sink) : ∀ {b : Block}, b.wellFormed true = true →
    Always (lowerBlock true sink b) (Sound (b.diverges = true ∨ sink.isReturn = true))
  | .mk ss none _ _, hb => by
    simp only [Block.wellFormed, Bool.and_true] at hb
    have hf : Always (delivered sink none) (Sound (sink.isReturn = true)) := fun _ _ _ hy =>
      sound_deliver (Yields.delivered_iff.1 hy).1
    intro st stmts st' h
    refine (sound_lowerStatements hf hb h).mono ?_
    rw [Block.diverges, Bool.or_false]
    exact id
  | .mk ss (some t) span _, hb => by
    simp only [Block.wellFormed, Bool.and_eq_true] at hb
    intro st stmts st' h
    refine (sound_lowerStatements (sound_lowerTail sink span hb.2) hb.1 h).mono ?_
    rw [Block.diverges_mk, Bool.or_eq_true, or_assoc]
    exact id

theorem sound_lowerStatements {finish : Lower (List Lowered)} {leaves : Prop}
    (hf : Always finish (Sound leaves)) : ∀ {ss : List Statement}, statementsWellFormed true ss = true →
    Always (lowerStatements true finish ss) (Sound (statementsDiverge ss = true ∨ leaves))
  | [], _ => by
    intro st stmts st' h
    exact (hf h).mono fun h => h.resolve_left nofun
  | s :: rest, hs => by
    simp only [statementsWellFormed, Bool.and_eq_true] at hs
    have hr := sound_lowerStatements hf hs.2
    obtain ⟨hs, -⟩ := hs
    intro st stmts st' h
    rw [statementsDiverge, Bool.or_eq_true, or_assoc]
    cases s with
    | simple s span => exact sound_andThen (fun _ _ _ hy => sound_lowerSimple hy) hr h
    | escape e => exact sound_andThen (fun _ _ _ hy => (sound_lowerEscape hy).mono fun _ => trivial) hr h
    | letMatch primary source arms span =>
      simp only [Statement.wellFormed, Bool.and_eq_true] at hs
      obtain hl | ⟨prelude, e, t, body, t₁, cases, t₂, catchAll, hl, hbody, hcases, hall, rfl⟩ :=
        h.letMatch_cases
      · exact (sound_lift hl).mono fun _ => rfl
      · exact ((sound_lift hl).append (sound_match (hr hbody) (sound_lowerArms hs.2 hcases) (hall rfl))).mono
          fun h => .inr (h.resolve_left nofun)
    | conditional c =>
      refine sound_andThen (fun _ _ _ hy => ?_) hr h
      exact (sound_lowerConditional .discard hs hy).mono .inl
    | whileLoop test body span =>
      simp only [Statement.wellFormed, Bool.and_eq_true] at hs
      refine sound_andThen (fun _ _ _ hy => ?_) hr h
      exact (sound_loop sound_nil (fun _ => rfl) (sound_lowerBlock .discard hs.2) hy).mono nofun
    | forLoop target iterable body span =>
      simp only [Statement.wellFormed, Bool.and_eq_true] at hs
      refine sound_andThen (fun u first u' hy => ?_) hr h
      obtain ⟨⟨prelude, iterable?⟩, t, hl, hy⟩ := Yields.bind_iff.1 hy
      cases iterable? with
      | none =>
        obtain ⟨rfl, -⟩ := Yields.pure_iff.1 hy
        exact (sound_lift hl).mono nofun
      | some e =>
        exact (sound_loop ((sound_lift hl).mono False.elim) (fun _ => rfl) (sound_lowerBlock .discard hs.2)
          hy).mono nofun
    | nested sink b span =>
      simp only [Statement.wellFormed, Bool.and_eq_true] at hs
      refine sound_andThen (fun u first u' hy => ?_) hr h
      obtain ⟨r, t, hb, hy⟩ := Yields.bind_iff.1 hy
      obtain ⟨rfl, -⟩ := Yields.pure_iff.1 hy
      exact (sound_boundary (fun s => sound_lowerBlock s hs.2) hb).mono .inr

theorem sound_lowerTail (sink : Sink) (span : Span) : ∀ {t : Tail}, t.wellFormed true = true →
    Always (lowerTail true sink span t) (Sound (t.diverges = true ∨ sink.isReturn = true))
  | .value e, _ => by
    intro st stmts st' h
    obtain hl | ⟨prelude, v, t, later, hl, hd, rfl⟩ := h.lift_bind_cases
    · exact (sound_lift hl).mono fun _ => rfl
    · refine ((sound_lift hl).append (sound_deliver (Yields.delivered_iff.1 hd).1)).mono fun h => .inr ?_
      exact h.resolve_left fun he => by simpa using hl.lift_of_alwaysEscapes he
  | .escape e, _ => fun _ _ _ hy => (sound_lowerEscape hy).mono fun _ => trivial
  | .conditional c, hc => sound_lowerConditional sink hc
  | .block b, hb => by
    intro st stmts st' h
    obtain ⟨r, t, hr, h⟩ := Yields.bind_iff.1 h
    obtain ⟨rfl, -⟩ := Yields.pure_iff.1 h
    exact (sound_boundary (fun s => sound_lowerBlock s hb) hr).mono fun h => .inr (h.resolve_left nofun)

theorem sound_lowerArms : ∀ {arms : List Arm}, armsWellFormed true arms = true →
    Always (lowerArms true arms) fun cases => ∀ body ∈ fallbacksOfCases cases, allComplete body = false
  | [], _ => .pure (by simp [fallbacksOfCases])
  | .mk pattern guard body span _ :: rest, ha => by
    simp only [armsWellFormed, Bool.and_eq_true] at ha
    intro st cases st' h
    obtain ⟨hd, stmts, t, cases', hb, hrest, rfl⟩ := h.lowerArms_cons
    have hbody := sound_lowerBlock .discard ha.1.2 hb
    intro fallback hf
    simp only [fallbacksOfCases, fallbacksOf_suite, List.cons_append, List.mem_cons, List.mem_append] at hf
    rcases hf with rfl | hf | hf
    · exact hbody.suite.stops (.inl hd)
    · exact hbody.sealed fallback hf
    · exact sound_lowerArms ha.2 hrest fallback hf

theorem sound_lowerConditional (sink : Sink) : ∀ {c : Conditional}, c.wellFormed true = true →
    Always (lowerConditional true sink c) (Sound (c.diverges = true ∨ sink.isReturn = true))
  | .mk [] orelse span, hc => by simp [Conditional.wellFormed] at hc
  | .mk (br :: bs) none span, hc => by
    simp only [Conditional.wellFormed, Bool.and_eq_true] at hc
    intro st stmts st' h
    obtain ⟨other, t, result, hr, rfl, ⟨_, _, ho, -⟩ | ⟨body, -, hd, -, rfl⟩⟩ := h.lowerConditional_cases
    · cases ho
    · have hbody := sound_deliver hd
      have hother : Sound (sink.isReturn = true) [.branch [] (if body.isEmpty then none else some body)] := by
        cases body with
        | nil => exact .of_fallbacksOf_eq_nil rfl fun h => nomatch hbody.stops h
        | cons s rest =>
          refine ⟨fun h => ?_, fun fallback hf => hbody.sealed fallback ?_⟩
          · simpa [completes, armsComplete] using hbody.stops h
          · simpa [fallbacks, fallbacksOfArms] using hf
      have hs := sound_lowerBranches sink span hother hc.1.2 hr
      rw [diverges_none]
      obtain ⟨chain, rfl⟩ := hr.exists_of_lowerBranches
      exact hs.mono (.imp_right fun h => ⟨.inr h, h⟩)
  | .mk (br :: bs) (some b) span, hc => by
    simp only [Conditional.wellFormed, Bool.and_eq_true] at hc
    intro st stmts st' h
    obtain ⟨other, t, result, hr, rfl, ⟨_, body, ho, hb, rfl⟩ | ⟨_, ho, -⟩⟩ := h.lowerConditional_cases
    · cases ho
      have hbody := sound_lowerBlock sink hc.2 hb
      have hother : Sound (b.diverges = true ∨ sink.isReturn = true) [.branch [] (some (suite body))] := by
        refine ⟨fun h => ?_, fun fallback hf => hbody.sealed fallback ?_⟩
        · simpa [completes, armsComplete] using hbody.stops h
        · simpa [fallbacks, fallbacksOfArms] using hf
      have hs := sound_lowerBranches sink span hother hc.1.2 hr
      rw [diverges_some, Bool.or_eq_true, Bool.and_eq_true]
      obtain ⟨chain, rfl⟩ := hr.exists_of_lowerBranches
      refine hs.mono ?_
      rintro ((h | h) | h)
      · exact .inl h
      · exact .inr ⟨.inl h.1, .inl h.2⟩
      · exact .inr ⟨.inr h, .inr h⟩
    · cases ho

theorem sound_lowerBranches (sink : Sink) (span : Span) {orelse : Option (List Lowered)} {leaves : Prop}
    (ho : Sound leaves [.branch [] orelse]) : ∀ {bs : List Branch}, branchesWellFormed true bs = true →
    Always (lowerBranches true sink span orelse bs) fun r => Sound
      (firstEscapes bs = true ∨ (branchesDiverge bs = true ∨ sink.isReturn = true) ∧ leaves)
      (r.getD [.branch [] orelse])
  | [], _ => .pure (ho.mono fun h => (h.resolve_left nofun).2)
  | .mk test body :: rest, hb => by
    simp only [branchesWellFormed, Bool.and_eq_true] at hb
    intro st r st' h
    obtain ⟨later, t, prelude, hlater, ⟨hl, rfl⟩ | ⟨e, u, inside, hl, hin, rfl⟩⟩ := h.lowerBranches_cons
    · exact (sound_lift hl).mono fun _ => rfl
    · have hchain := sound_lowerBranches sink span ho hb.2 hlater
      have hinside := sound_lowerBlock sink hb.1.2 hin
      refine ((sound_lift hl).append (sound_branch hinside (sound_continuation hchain))).mono fun h => .inr ?_
      -- the test has a value, so it does not always escape
      have he : test.alwaysEscapes = false :=
        Bool.eq_false_iff.2 fun h => by simpa using hl.lift_of_alwaysEscapes h
      simp only [firstEscapes, he, branchesDiverge, Bool.and_eq_true] at h
      rcases h with h | ⟨h | h, hleaves⟩
      · cases h
      · exact ⟨.inl h.1, .inr ⟨.inl h.2, hleaves⟩⟩
      · exact ⟨.inr h, .inr ⟨.inr h, hleaves⟩⟩

end

/-- A loop around a block and the delivery of its result can be completed unless that returns. -/
theorem allComplete_boundary {r : Result} (h : Yields (boundary true span sink inside) st r st')
    (hs : sink.isReturn = false) :
    allComplete r.body = true := by
  obtain ⟨he, -⟩ | ⟨-, w, t, t', tree, after, -, -, -, ha, hr⟩ := h.boundary_cases
  · cases he
  · have hafter : allComplete after = true := by
      split at ha
      · rw [ha]
        rfl
      · rw [allComplete_deliver ha, hs]
        rfl
    rw [hr, allComplete_append, hafter]
    rfl

end Lowering

namespace Lowering

open Lowered

variable {σ V ι : Type}

/-- What is written for a statement that diverges does not depend on what follows it. -/
theorem lowerStatements_of_diverges {guards : Bool} {s : Statement} (hs : s.diverges = true)
    (finish finish' : Lower (List Lowered)) (rest rest' : List Statement) :
    lowerStatements guards finish (s :: rest) = lowerStatements guards finish' (s :: rest') := by
  have hthen (here later later' : Lower (List Lowered)) : andThen here true later = andThen here true later' := rfl
  cases s with
  | simple s span =>
    rw [Statement.diverges] at hs
    rw [lowerStatements, lowerStatements, hs]
    exact hthen _ _ _
  | escape e => exact hthen _ _ _
  | conditional c =>
    rw [Statement.diverges] at hs
    rw [lowerStatements, lowerStatements, hs]
    exact hthen _ _ _
  | nested sink b span =>
    rw [Statement.diverges] at hs
    rw [lowerStatements, lowerStatements, hs]
    exact hthen _ _ _
  | letMatch primary source arms span => cases hs
  | whileLoop test body span => cases hs
  | forLoop target iterable body span => cases hs

/-- Where a block or a statement inside a block diverges, its lowered code is not completed, neither by the forms
of its statements nor by any run. So nothing is lost with the code behind a diverging statement, which is not
written at all, and no fallback case goes on behind its match. A boundary block as a whole is completed if it
holds an escape of its own, for then its value goes to the sink. -/
theorem diverging_code_is_not_completed (I : Interpretation σ V ι) {b : Block} (hb : b.Accepted) :
    (∀ c ∈ b.blocks, c.diverges = true → ∀ sink st stmts st', Yields (lowerBlock true sink c) st stmts st' →
      allComplete stmts = false ∧ ∀ s s', ¬ I.execAll stmts s (.ok ()) s') ∧
    (∀ c ∈ b.blocks, ∀ x ∈ c.statements, x.diverges = true → ∀ finish rest,
      lowerStatements true finish (x :: rest) = lowerStatements true (pure []) [x] ∧
        ∀ st stmts st', Yields (lowerStatements true (pure []) [x]) st stmts st' →
          allComplete stmts = false ∧ ∀ s s', ¬ I.execAll stmts s (.ok ()) s') ∧
    ∀ sink st r st', Yields (lower true sink b) st r st' →
      (∀ body ∈ fallbacksOf r.statements, allComplete body = false ∧ ∀ s s', ¬ I.execAll body s (.ok ()) s') ∧
      (b.diverges = true → allComplete r.statements = (b.containsEscape && !sink.isReturn)) := by
  have hrun {stmts : List Lowered} (h : allComplete stmts = false) :
      allComplete stmts = false ∧ ∀ s s', ¬ I.execAll stmts s (.ok ()) s' :=
    ⟨h, fun s s' hs => by rw [Interpretation.allComplete_of_exec hs] at h; cases h⟩
  have hsound (sink : Sink) : Always (lower true sink b) fun r =>
      Sound (b.containsEscape = false ∧ b.diverges = true ∨ sink.isReturn = true) r.body :=
    sound_boundary fun s => sound_lowerBlock s hb.wellFormed
  refine ⟨fun c hc hd sink st stmts st' h => hrun ?_, fun c hc x hx hd finish rest => ⟨?_, ?_⟩,
    fun sink st r st' h => ⟨fun body hm => hrun ?_, fun hd => ?_⟩⟩
  · exact (sound_lowerBlock sink (Block.wellFormed_of_mem hb.wellFormed hc) h).stops (.inl hd)
  · exact lowerStatements_of_diverges hd _ _ _ _
  · intro st stmts st' h
    have hx : statementsWellFormed true [x] = true := by
      simp [statementsWellFormed, Block.statement_wellFormed (Block.wellFormed_of_mem hb.wellFormed hc) hx]
    have hnil : Always (pure [] : Lower (List Lowered)) (Sound False) := .pure sound_nil
    refine hrun ((sound_lowerStatements hnil hx h).stops (.inl ?_))
    rw [statementsDiverge, hd]
    rfl
  · rw [Result.statements, fallbacksOf_suite] at hm
    exact (hsound sink h).sealed body hm
  · rw [Result.statements, allComplete_suite]
    cases he : b.containsEscape with
    | false => exact (hsound sink h).stops (.inl ⟨he, hd⟩)
    | true =>
      cases hs : sink.isReturn with
      | true => exact (hsound sink h).stops (.inr hs)
      | false =>
        rw [lower, he] at h
        exact allComplete_boundary h hs

/-- A match with a fallback arm that returns the value of a block, before branches that all leave and a tail
that is dropped. -/
theorem diverging_code_is_not_completed_match :
    ∃ (b : Block) (x y : Statement) (stmts : List Lowered) (r : Result) (st' st'' : State),
      Block.parse "do" "do \x7b let [x] match f else [] => \x7b return do \x7b ^2 \x7d \x7d\n if x \x7b return y \x7d else \x7b raise e \x7d\n z \x7d"
        = .ok b ∧
      b.statements = [x, y] ∧ b.diverges = true ∧ y.diverges = true ∧
      Yields (lowerBlock true .discard b) (.initial ⟨"_lm", 0, []⟩) stmts st' ∧
      (∀ s s', ¬ counting.execAll stmts s (.ok ()) s') ∧
      (∀ finish, lowerStatements true finish [y] = lowerStatements true (pure []) [y]) ∧
      Yields (lower true .discard b) (.initial ⟨"_lm", 0, []⟩) r st'' ∧
      (fallbacksOf r.statements).length = 1 ∧
      (∀ body ∈ fallbacksOf r.statements, ∀ s s', ¬ counting.execAll body s (.ok ()) s') ∧
      allComplete r.statements = false := by
  obtain ⟨b, hb, hrun⟩ := Block.exists_parse_of_reads (show Block.reads "do"
    "do \x7b let [x] match f else [] => \x7b return do \x7b ^2 \x7d \x7d\n if x \x7b return y \x7d else \x7b raise e \x7d\n z \x7d"
    (fun b => b.diverges && !b.containsEscape && b.statements.length == 2 &&
      b.statements.getLast?.any Statement.diverges &&
      passes (lowerBlock true .discard b) (.initial ⟨"_lm", 0, []⟩) (fun _ _ => true) &&
      passes (lower true .discard b) (.initial ⟨"_lm", 0, []⟩)
        fun r _ => (fallbacksOf r.statements).length == 1) = true by decide +kernel)
  simp only [Bool.and_eq_true, Bool.not_eq_true', beq_iff_eq] at hrun
  obtain ⟨⟨⟨⟨⟨hd, he⟩, htwo⟩, hlast⟩, hblock⟩, hlower⟩ := hrun
  obtain ⟨x, y, hxy⟩ := List.length_eq_two.1 htwo
  have hy : y.diverges = true := by simpa [hxy] using hlast
  obtain ⟨stmts, st', hstmts, -⟩ := exists_yields_of_passes hblock
  obtain ⟨r, st'', hr, hlen⟩ := exists_yields_of_passes hlower
  have hself : b ∈ b.blocks := by
    obtain ⟨ss, tail, span, boundary⟩ := b
    cases tail <;> exact .head _
  obtain ⟨hblocks, hdropped, hfallbacks⟩ := diverging_code_is_not_completed counting (.inl ⟨_, _, hb⟩ : b.Accepted)
  refine ⟨b, x, y, stmts, r, st', st'', hb, hxy, hd, hy, hstmts, (hblocks b hself hd _ _ _ _ hstmts).2,
    fun finish => (hdropped b hself y (by simp [hxy]) hy finish []).1, hr, beq_iff_eq.1 hlen,
    fun body hm => ((hfallbacks _ _ _ _ hr).1 body hm).2, ?_⟩
  rw [(hfallbacks _ _ _ _ hr).2 hd, he]
  rfl

end Lowering

end DoBlocks
