import DoBlocks.Proofs.Accepted
import DoBlocks.Proofs.Accounts
import DoBlocks.Proofs.Constructs
import DoBlocks.Proofs.Provenance

/-!
# Every match takes a case

The host goes through the cases of a match in order and takes the first whose pattern accepts the value and
whose guard holds. What patterns that can refuse a value and guards come to is left open: a `Chooser` decides
it, by all that was done before, and may raise instead. Whatever it decides, a match that is lowered with
guards takes one of its cases; the catch-all is missing only if a case without a guard has a pattern that
accepts every value.
-/

namespace DoBlocks

open Host (Tree)
open BlockReader (Range hostPattern)

/-- The step comes to a result that satisfies `P`, unless it raises. -/
def EndsIn {σ ε α : Type} (m : ExceptT ε (StateM σ) α) (s : σ) (P : α → Prop) : Prop :=
  (∃ a s', Yields m s a s' ∧ P a) ∨ ∃ e s', outcome m s = (.error e, s')

theorem Always.endsIn {σ ε α : Type} {m : ExceptT ε (StateM σ) α} {P : α → Prop} (h : Always m P) (s : σ) :
    EndsIn m s P := by
  cases ho : outcome m s with
  | mk r s' =>
    cases r with
    | error e => exact .inr ⟨e, s', ho⟩
    | ok a => exact .inl ⟨a, s', ho, h ho⟩

/-- What the host does with values of type `V` where the form of a match does not decide it. -/
structure Chooser (σ ε V : Type) where
  /-- Tries a pattern that can refuse the value. -/
  attempt : Tree → V → ExceptT ε (StateM σ) Bool
  /-- Binds the name that the trees spell. -/
  bind : List Tree → V → ExceptT ε (StateM σ) Unit
  guard : Expr → ExceptT ε (StateM σ) Bool

/-- A case as the host sees it. -/
structure HostCase where
  pattern : Tree
  guard : Option Expr

/-- What lowering knows of a case. -/
def HostCase.head (c : HostCase) : CaseHead := (c.pattern.toPattern, c.guard)

/-- The catch-all captures the value. -/
def CatchAll.shown (c : CatchAll) : HostCase :=
  ⟨.node .capture [.leaf ⟨.name, c.subject.render, [], 0, 0⟩], none⟩

namespace Chooser

variable {σ ε V : Type} (C : Chooser σ ε V)

mutual

/-- Tries a pattern: a name takes every value, and of alternatives the first that accepts the value decides. -/
def accepts (v : V) : Tree → ExceptT ε (StateM σ) Bool
  | .node .capture name => do
    C.bind name v
    return true
  | .node .wildcard _ => return true
  | .node .asPattern (inner :: name) => do
    if ← accepts v inner then
      C.bind name v
      return true
    else return false
  | .node .groupPattern children => acceptsAny v children
  | .node .orPattern children => acceptsAny v children
  | t => C.attempt t v

/-- Tries the patterns among brackets and bars from left to right. -/
def acceptsAny (v : V) : List Tree → ExceptT ε (StateM σ) Bool
  | [] => return false
  | .leaf _ :: rest => acceptsAny v rest
  | .node k children :: rest => do
    if ← accepts v (.node k children) then return true else acceptsAny v rest

end

/-- Tries a case. -/
def takes (v : V) (c : HostCase) : ExceptT ε (StateM σ) Bool := do
  if ← C.accepts v c.pattern then
    match c.guard with
    | some g => C.guard g
    | none => return true
  else return false

/-- The place of the first case that is taken. -/
def select (v : V) : List HostCase → ExceptT ε (StateM σ) (Option Nat)
  | [] => return none
  | c :: rest => do
    if ← C.takes v c then return some 0
    return (← select v rest).map (· + 1)

variable {C}

mutual

/-- What is known to match every subject accepts every value, however its parts are nested. -/
theorem always_accepts (v : V) : ∀ t : Tree, t.isIrrefutable = true → Always (C.accepts v t) (· = true)
  | .leaf _, h => nomatch h
  | .node k children, h => by
    cases k
    case capture => exact .after fun _ => .pure rfl
    case wildcard => exact .pure rfl
    case asPattern =>
      match children, h with
      | inner :: name, h =>
        refine (always_accepts v inner h).bind fun _ ha => ?_
        rw [if_pos ha]
        exact .after fun _ => .pure rfl
    case groupPattern | orPattern => exact always_acceptsAny v children h
    all_goals exact nomatch h

theorem always_acceptsAny (v : V) :
    ∀ ts, Tree.anyIrrefutable ts = true → Always (C.acceptsAny v ts) (· = true)
  | [], h => nomatch h
  | .leaf _ :: rest, h => always_acceptsAny v rest h
  | .node k children :: rest, h => by
    rcases Bool.or_eq_true_iff.mp h with h | h
    · refine (always_accepts v (.node k children) h).bind fun _ ha => ?_
      rw [if_pos ha]
      exact .pure rfl
    · exact .after fun _ => .ite (fun _ => .pure rfl) fun _ => always_acceptsAny v rest h

end

theorem always_takes (v : V) {c : HostCase} (hp : c.pattern.isIrrefutable = true) (hg : c.guard = none) :
    Always (C.takes v c) (· = true) := by
  refine (always_accepts v c.pattern hp).bind fun _ ha => ?_
  rw [if_pos ha, hg]
  exact .pure rfl

theorem always_select (v : V) {c : HostCase} (hc : Always (C.takes v c) (· = true)) :
    ∀ {cases : List HostCase}, c ∈ cases → Always (C.select v cases) (·.isSome = true)
  | first :: rest, hmem => by
    rcases List.mem_cons.mp hmem with rfl | hmem
    · refine hc.bind fun _ ha => ?_
      rw [if_pos ha]
      exact .pure rfl
    · refine .after fun _ => .ite (fun _ => .pure rfl) fun _ => ?_
      exact (always_select v hc hmem).bind fun _ hn => .pure (by rwa [Option.isSome_map])

end Chooser

/-- The pattern accepts every value, whatever is done with the patterns in it that can refuse one. -/
def MatchesAll (t : Tree) : Prop :=
  ∀ {σ ε V : Type} (C : Chooser σ ε V) (v : V) (s : σ), EndsIn (C.accepts v t) s (· = true)

/-- Some case is taken for every value. -/
def TakesOne (cases : List HostCase) : Prop :=
  ∀ {σ ε V : Type} (C : Chooser σ ε V) (v : V) (s : σ), EndsIn (C.select v cases) s (·.isSome = true)

theorem matchesAll_of_isIrrefutable {t : Tree} (h : t.isIrrefutable = true) : MatchesAll t :=
  fun _ v s => (Chooser.always_accepts v t h).endsIn s

theorem takesOne_of_mem {c : HostCase} {cases : List HostCase} (hp : c.pattern.isIrrefutable = true)
    (hg : c.guard = none) (hmem : c ∈ cases) : TakesOne cases :=
  fun _ v s => (Chooser.always_select v (Chooser.always_takes v hp hg) hmem).endsIn s

/-- Cases that cover all values have one without a guard whose pattern is known to match every subject. -/
theorem exists_irrefutable_of_isCovered {cases : List LoweredCase} {shown : List HostCase}
    (hshown : shown.map HostCase.head = cases.map LoweredCase.head) (h : Lowering.isCovered cases = true) :
    ∃ c ∈ shown, c.pattern.isIrrefutable = true ∧ c.guard = none := by
  rw [Lowering.isCovered_eq_any, ← hshown, List.any_map, List.any_eq_true] at h
  obtain ⟨c, hmem, hc⟩ := h
  obtain ⟨hp, hg⟩ := Bool.and_eq_true_iff.mp hc
  exact ⟨c, hmem, hp, Option.isNone_iff_eq_none.mp hg⟩

/-- What is known of a pattern is known of a tree the host can read. -/
theorem always_hostPattern (r : Range) : Always (hostPattern r) fun p => ∃ t : Tree, p = t.toPattern := by
  refine .after fun tree => ?_
  cases tree.partsOf .caseClause with
  | nil => exact .throw _
  | cons c _ =>
    refine .pure ?_
    cases c.parts.head? with
    | none => exact ⟨.node .name [], rfl⟩
    | some t => exact ⟨t, rfl⟩

namespace Lowering

/-- The statements end in a match of the cases and perhaps a catch-all. It takes one of them for every value,
and there is no catch-all only if a case without a guard accepts every value. -/
def EndsInTotalMatch (heads : List CaseHead) (stmts : List Lowered) : Prop :=
  ∃ prelude e cases catchAll, stmts = prelude ++ [.matchOn e cases catchAll] ∧
    cases.map LoweredCase.head = heads ∧
    ∀ shown : List HostCase, shown.map HostCase.head = heads →
      TakesOne (shown ++ catchAll.toList.map CatchAll.shown) ∧
      (catchAll = none → ∃ c ∈ shown, c.guard = none ∧ MatchesAll c.pattern)

/-- A pattern that is known to match every subject accepts every value, and what is known of a pattern that is
read is known of a tree. A let with guards whose source gives a value ends in a total match of its first case
and its arms. -/
theorem letMatch_endsInTotalMatch :
    (∀ t : Tree, t.isIrrefutable = true → MatchesAll t) ∧
    (∀ r, Always (hostPattern r) fun p => ∃ t : Tree, p = t.toPattern) ∧
    ∀ {finish : Lower (List Lowered)} {primary : Pattern} {source : Expr} {arms : List Arm} {span : Span}
      {rest : List Statement} {st st' : State} {stmts : List Lowered},
      Yields (lowerStatements true finish (.letMatch primary source arms span :: rest)) st stmts st' →
      source.alwaysEscapes = false → EndsInTotalMatch ((primary, none) :: arms.map Arm.head) stmts := by
  refine ⟨fun t => matchesAll_of_isIrrefutable, always_hostPattern, ?_⟩
  intro finish primary source arms span rest st st' stmts h hsource
  obtain hl | ⟨prelude, e, t, body, t₁, cases, t₂, catchAll, -, -, hcases, hclosed, rfl⟩ :=
    Yields.letMatch_cases h
  · rw [hl.lift_eq_none_iff.mp rfl] at hsource
    cases hsource
  have hheads : (LoweredCase.mk primary none (Lowered.suite body) :: cases).map LoweredCase.head =
      (primary, none) :: arms.map Arm.head := by
    rw [List.map_cons, (accounts_lowerArms true arms hcases).1]
    rfl
  refine ⟨prelude, e, _, catchAll, rfl, hheads, fun shown hshown => ?_⟩
  rcases hclosed rfl with hcovered | hsome
  · obtain ⟨c, hmem, hp, hg⟩ := exists_irrefutable_of_isCovered (hshown.trans hheads.symm) hcovered
    exact ⟨takesOne_of_mem hp hg (List.mem_append_left _ hmem),
      fun _ => ⟨c, hmem, hg, matchesAll_of_isIrrefutable hp⟩⟩
  · obtain ⟨c, rfl⟩ := Option.isSome_iff_exists.mp hsome
    exact ⟨takesOne_of_mem rfl rfl (List.mem_append_right _ (List.mem_singleton_self c.shown)), nofun⟩

/-- What holds of a block that begins with a `let`. -/
def testLet (test : Pattern → Expr → List Arm → Span → List Statement → Bool) : Block → Bool
  | .mk (.letMatch primary source arms span :: rest) _ _ _ => test primary source arms span rest
  | _ => false

/-- An arm without a guard covers what an arm with one and the first case leave. -/
theorem letMatch_endsInTotalMatch_arms :
    ∃ primary source arms span rest tail whole boundary stmts st',
      Block.parse "do" "\x7b let 0 match x else 1 if c => return 2, (3 | _) => return 4\n y \x7d" =
        .ok (.mk (.letMatch primary source arms span :: rest) tail whole boundary) ∧
      Yields (lowerStatements true (pure []) (.letMatch primary source arms span :: rest)) default stmts st' ∧
      EndsInTotalMatch ((primary, none) :: arms.map Arm.head) stmts := by
  obtain ⟨b, hb, htest⟩ := Block.exists_parse_of_reads (show Block.reads "do"
    "\x7b let 0 match x else 1 if c => return 2, (3 | _) => return 4\n y \x7d"
    (testLet fun primary source arms span rest => !source.alwaysEscapes && passes
      (lowerStatements true (pure []) (.letMatch primary source arms span :: rest)) default fun _ _ => true) = true
    by decide +kernel)
  unfold testLet at htest
  split at htest
  · obtain ⟨hsource, hpasses⟩ := Bool.and_eq_true_iff.mp htest
    obtain ⟨stmts, st', hy, -⟩ := exists_yields_of_passes hpasses
    exact ⟨_, _, _, _, _, _, _, _, stmts, st', hb, hy,
      letMatch_endsInTotalMatch.2.2 hy (by simpa using hsource)⟩
  · cases htest

end Lowering

end DoBlocks
