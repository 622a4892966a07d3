import DoBlocks.Host.Grammar
import DoBlocks.Proofs.RuleSteps

/-!
# The shape of host trees

Every rule for an expression, a pattern or a statement builds one node. From this follows what the
children of lines, loops, matches and assignments are.
-/

namespace DoBlocks.Host

/-- The tree is no single lexeme. -/
def Tree.IsNode (t : Tree) : Prop := ∃ k ts, t = .node k ts

theorem Tree.isNode_node {k : Kind} (ts : List Tree) : (Tree.node k ts).IsNode := ⟨k, ts, rfl⟩

theorem Lexeme.isWord_of_isWord {l : Lexeme} {w : String} (h : l.isWord w = true) (v : String) :
    l.isWord v = (w == v) := by
  simp only [Lexeme.isWord, Bool.and_eq_true, beq_iff_eq] at h
  simp [Lexeme.isWord, h]

theorem Lexeme.isOperator_of_isWord {l : Lexeme} {w : String} (h : l.isWord w = true) (s : String) :
    l.isOperator s = false := by
  simp only [Lexeme.isWord, Bool.and_eq_true, beq_iff_eq] at h
  simp [Lexeme.isOperator, h]

namespace Grammar

open Rule

variable {k : Kind} {r : Rule Unit} {d : Dialect} {ts us : List Tree} {t : Tree}

/-- The rule builds one node. -/
abbrev AddsNode (r : Rule Unit) : Prop := Adds Tree.IsNode r

theorem addsNode_node : AddsNode (node k r) := adds_node Tree.isNode_node

theorem addsNode_nodeAs {r : Rule Kind} : AddsNode (nodeAs r) := adds_nodeAs fun _ => Tree.isNode_node

theorem keepsNode_wrap : Keeps Tree.IsNode (wrap k r) :=
  keeps_wrap Tree.isNode_node

variable {self : Goal → Rule Unit}

/-! ### Expressions -/

theorem strings_adds : AddsNode (strings self) := by
  have hpart : AddsNode (stringPart self) := stays_look.adds fun _ => addsNode_node.ite addsNode_node
  exact hpart.several Tree.isNode_node hpart.extends.many

theorem atom_adds : AddsNode (atom self) :=
  stays_look.adds fun _ => addsNode_nodeAs.ite <|
  stays_look.adds fun _ => addsNode_nodeAs.ite <|
  stays_look.adds fun _ => addsNode_nodeAs.ite <|
  stays_look.adds fun _ => addsNode_node.ite <|
  stays_look.adds fun _ => addsNode_node.ite <|
  stays_look.adds fun _ => stays_look.adds fun _ => strings_adds.ite <|
  stays_look.adds fun _ => addsNode_node.ite addsNode_node

theorem primary_adds : AddsNode (primary self) := by
  refine atom_adds.keeps fun _ => Keeps.many ?_
  exact stays_look.keeps.bind fun _ => keepsNode_wrap.ite <|
    stays_look.keeps.bind fun _ => keepsNode_wrap.ite <|
    stays_look.keeps.bind fun _ => keepsNode_wrap.ite keeps_failure

theorem factor_adds : AddsNode (factor self) := by
  have hawait : AddsNode (awaitPrimary self) :=
    stays_look.adds fun _ => addsNode_node.ite primary_adds
  refine stays_look.adds fun _ => addsNode_node.ite (hawait.keeps fun _ => ?_)
  exact stays_look.keeps.bind fun _ =>
    (keepsNode_wrap.attempt.bind fun _ => stays_pure.keeps).ite stays_pure.keeps

theorem binaryTower_adds (levels : List (List String)) : AddsNode (binaryTower self levels) := by
  induction levels with
  | nil => exact factor_adds
  | cons level tighter ih =>
    refine ih.keeps fun _ => Keeps.many ?_
    exact stays_look.keeps.bind fun _ => stays_check.keeps.bind fun _ => keepsNode_wrap

theorem comparisonSign_extends : Extends comparisonSign :=
  stays_look.extends.bind fun _ => extends_accept.ite <|
  stays_look.extends.bind fun _ => extends_accept.ite <|
  stays_look.extends.bind fun _ => (extends_accept.bind fun _ => extends_accept).ite <|
  extends_accept.bind fun _ => extends_accept.attempt.bind fun _ => stays_pure.extends

theorem inversion_adds : AddsNode (inversion self) := by
  have hcomparison : AddsNode (comparison self) :=
    (binaryTower_adds binaryLevels).several Tree.isNode_node
      (comparisonSign_extends.bind fun _ => (binaryTower_adds binaryLevels).extends).many
  exact stays_look.adds fun _ => addsNode_node.ite hcomparison

theorem disjunction_adds : AddsNode (disjunction self) := by
  have hconjunction : AddsNode (conjunction self) :=
    inversion_adds.keeps fun _ => keepsNode_wrap.many
  exact hconjunction.keeps fun _ => keepsNode_wrap.many

theorem expression_adds : AddsNode (expression self) := by
  refine stays_look.adds fun _ => addsNode_node.ite (disjunction_adds.keeps fun _ => ?_)
  exact stays_look.keeps.bind fun _ =>
    (keepsNode_wrap.attempt.bind fun _ => stays_pure.keeps).ite stays_pure.keeps

/-! ### Patterns -/

theorem namePattern_adds : AddsNode (namePattern self) :=
  addsNode_node.attemptElse (stays_look.adds fun _ => addsNode_node.ite addsNode_nodeAs)

theorem pattern_adds : AddsNode (pattern self) := by
  have hclosed : AddsNode (closedPattern self) :=
    stays_look.adds fun _ => addsNode_nodeAs.ite <|
    stays_look.adds fun _ => addsNode_node.ite <|
    stays_look.adds fun _ => addsNode_node.ite <|
    stays_look.adds fun _ => namePattern_adds.ite addsNode_node
  have hor : AddsNode (orPattern self) :=
    hclosed.several Tree.isNode_node (extends_accept.bind fun _ => hclosed.extends).many
  exact hor.keeps fun _ => keepsNode_wrap.attempt.bind fun _ => stays_pure.keeps

/-! ### Closing the recursion -/

/-- A statement is a line or a compound statement. -/
theorem statement_adds {P : Tree → Prop} (hnode : ∀ k ts, k ≠ .line → P (.node k ts))
    (hline : Adds P (simpleLine d self)) : Adds P (statement d self) := by
  have hcompound {k : Kind} {r : Rule Unit} (hk : k ≠ .line) : Adds P (node k r) :=
    adds_node fun ts => hnode k ts hk
  exact stays_look.adds fun _ => (hcompound (by decide)).ite <|
    stays_look.adds fun _ => (hcompound (by decide)).ite <|
    stays_look.adds fun _ => (hcompound (by decide)).ite <|
    stays_look.adds fun _ => (hcompound (by decide)).ite <|
    stays_look.adds fun _ => (hcompound (by decide)).ite <|
    stays_look.adds fun _ => (hcompound (by decide)).ite <|
    stays_look.adds fun _ => (hcompound (by decide)).ite <|
    stays_look.adds fun _ => (hcompound (by decide)).ite <|
    stays_look.adds fun _ => (stays_look.adds fun _ => (hcompound (by decide)).ite <|
      stays_look.adds fun _ => (hcompound (by decide)).ite (hcompound (by decide))).ite <|
    stays_look.adds fun _ => ((hcompound (by decide)).orElse hline).ite hline

theorem rule_adds (d : Dialect) (depth : Nat) (g : Goal) : AddsNode (rule d depth g) := by
  cases depth with
  | zero => exact fun _ _ _ h => (failure_run h).elim
  | succ depth =>
    cases g with
    | expression => exact expression_adds
    | disjunction => exact disjunction_adds
    | inversion => exact inversion_adds
    | bitwiseOr => exact binaryTower_adds binaryLevels
    | factor => exact factor_adds
    | field => exact addsNode_node
    | pattern => exact pattern_adds
    | statement => exact statement_adds (fun _ ts _ => Tree.isNode_node ts) addsNode_node

section Parts

variable (hself : ∀ g, AddsNode (self g))

include hself

theorem starExpressions_adds : AddsNode (starExpressions self) := by
  have hitem : AddsNode (starExpression self) := stays_look.adds fun _ => addsNode_node.ite (hself _)
  exact hitem.tupled Tree.isNode_node

theorem assignedValue_adds : AddsNode (assignedValue self) :=
  stays_look.adds fun _ => addsNode_nodeAs.ite (starExpressions_adds hself)

theorem loopTargets_adds : AddsNode (loopTargets self) := by
  have hitem : AddsNode (do if ← atSign "*" then starred self else self .bitwiseOr) :=
    stays_look.adds fun _ => addsNode_node.ite (hself _)
  exact (hitem.tupled Tree.isNode_node).keeps fun _ =>
    stays_look.keeps.bind fun _ => stays_check.keeps

theorem casePattern_adds : AddsNode (casePattern self) := by
  have hitem : AddsNode (maybeStarPattern self) := stays_look.adds fun _ => addsNode_node.ite (hself _)
  have hitems : AddsNode (nodeWhen .openSequence (patternItems self)) := by
    refine adds_nodeWhen Tree.isNode_node fun {c flag c'} hc hrun => ?_
    obtain ⟨_, c₁, hfirst, hrun⟩ := bind_run_iff.1 hrun
    obtain ⟨before, c₂, hbefore, hrun⟩ := bind_run_iff.1 hrun
    obtain ⟨rfl, rfl⟩ := built_run_iff.1 hbefore
    obtain ⟨_, c₃, hmore, hrun⟩ := bind_run_iff.1 hrun
    obtain ⟨_, c₄, hcomma, hrun⟩ := bind_run_iff.1 hrun
    obtain ⟨after, c₅, hafter, hrun⟩ := bind_run_iff.1 hrun
    obtain ⟨rfl, rfl⟩ := built_run_iff.1 hafter
    obtain ⟨rfl, rfl⟩ := pure_run_iff.1 hrun
    obtain ⟨t, ht, hone⟩ := hitem hfirst
    rw [hc] at hone
    have hmore : c₂.built <:+ c₃.built := (extends_accept.bind fun _ => hitem.extends).many hmore
    have hsuffix : [t] <:+ c'.built := hone ▸ hmore.trans (extends_accept.attempt hcomma)
    by_cases hlength : 1 < c'.built.length
    · exact .inl (by simp [hone, hlength])
    · exact .inr ⟨t, ht, eq_singleton_of_suffix hsuffix hlength⟩
  exact hitems.keeps fun _ => stays_look.keeps.bind fun _ => stays_check.keeps

end Parts

/-! ### Simple statements -/

/-- Targets, each with an equals sign after it. -/
inductive Targeted : List Tree → Prop
  | nil : Targeted []
  | cons {t : Tree} {equals : Lexeme} {rest : List Tree} :
    equals.isOperator "=" = true → Targeted rest → Targeted (t :: .leaf equals :: rest)

theorem Targeted.append (h : Targeted ts) (h' : Targeted us) : Targeted (ts ++ us) := by
  induction h with
  | nil => exact h'
  | cons hequals _ ih => exact .cons hequals ih

/-- A simple statement; an assignment is its targets and a value, an expression its value alone. -/
def IsSimple (t : Tree) : Prop :=
  ∃ k ts, t = .node k ts ∧ k ≠ .caseClause ∧
    (k = .assign → ∃ us v, ts = us ++ [v] ∧ us ≠ [] ∧ Targeted us) ∧
    (k = .expressionStatement → ∃ v, ts = [v])

theorem isSimple_node (hk : k ≠ .caseClause ∧ k ≠ .assign ∧ k ≠ .expressionStatement) (ts : List Tree) :
    IsSimple (.node k ts) :=
  ⟨k, ts, rfl, hk.1, fun h => absurd h hk.2.1, fun h => absurd h hk.2.2⟩

/-- Simple statements, each after a semicolon. -/
inductive Separated : List Tree → Prop
  | nil : Separated []
  | cons {semicolon : Lexeme} {t : Tree} {rest : List Tree} :
    semicolon.isOperator ";" = true → IsSimple t → Separated rest →
    Separated (.leaf semicolon :: t :: rest)

theorem Separated.append (h : Separated ts) (h' : Separated us) :
    Separated (ts ++ us) := by
  induction h with
  | nil => exact h'
  | cons hsemicolon ht _ ih => exact .cons hsemicolon ht ih

/-- A semicolon, or nothing. -/
def MaybeSemicolon (ts : List Tree) : Prop :=
  ts = [] ∨ ∃ l : Lexeme, l.isOperator ";" = true ∧ ts = [.leaf l]

/-- Simple statements with semicolons between and perhaps after them, up to the end of the line. -/
def IsLine (ts : List Tree) : Prop :=
  ∃ first more last newline, ts = first :: more ++ last ++ [.leaf newline] ∧ IsSimple first ∧
    Separated more ∧ MaybeSemicolon last ∧ newline.kind = .newline

/-- A statement; if it is a line, it has the shape of one. -/
def IsStatement (t : Tree) : Prop := ∃ k ts, t = .node k ts ∧ (k = .line → IsLine ts)

section Statements

variable {d : Dialect} (hself : ∀ g, AddsNode (self g))

include hself

/-- More targets come after those built. -/
theorem targets_run {c c' : Cursor} {u : Unit}
    (h : (many (do
      starExpressions self
      check (isStarTarget (← latest))
      sign "=")).run c = some (u, c'))
    (hc : c.built ≠ [] ∧ Targeted c.built.reverse) : c'.built ≠ [] ∧ Targeted c'.built.reverse := by
  refine many_run (P := fun b => b ≠ [] ∧ Targeted b.reverse) h (fun {c c'} hc hrun => ?_) hc
  obtain ⟨_, c₁, htarget, hrest⟩ := bind_run_iff.1 hrun
  obtain ⟨t, -, hbuilt⟩ := starExpressions_adds hself htarget
  obtain ⟨_, c₂, hlatest, hrest'⟩ := bind_run_iff.1 hrest
  obtain ⟨-, rfl⟩ := latest_run hlatest
  obtain ⟨_, c₃, hcheck, hequals⟩ := bind_run_iff.1 hrest'
  obtain rfl := stays_check hcheck
  obtain ⟨l, rest, -, hl, rfl⟩ := accept_run hequals
  refine ⟨by simp, ?_⟩
  have := hc.2.append (.cons (t := t) hl .nil)
  simpa [hbuilt] using this

theorem expressionLed_adds : Adds IsSimple (expressionLed d self) := by
  intro c u c' hnode
  obtain ⟨k, c₁, hrun, -, rfl⟩ := nodeAs_run hnode
  refine ⟨_, ?_, rfl⟩
  have hother {r : Rule Kind} {c : Cursor} {ts : List Tree} (k₀ : Kind) (h : Returns (· = k₀) r)
      (hr : r.run c = some (k, c₁)) (hk : k₀ ≠ .caseClause ∧ k₀ ≠ .assign ∧ k₀ ≠ .expressionStatement) :
      IsSimple (.node k ts) := by
    obtain rfl : k = k₀ := h hr
    exact isSimple_node hk ts
  obtain ⟨_, c₂, hfirst, hrest⟩ := bind_run_iff.1 hrun
  obtain ⟨t, ht, hbuilt⟩ := starExpressions_adds hself hfirst
  obtain ⟨first, c₃, hlatest, hcolon⟩ := bind_run_iff.1 hrest
  obtain ⟨-, rfl⟩ := latest_run hlatest
  obtain ⟨colon, c₄, hlook, hequals⟩ := bind_run_iff.1 hcolon
  obtain rfl := stays_look hlook
  cases colon with
  | true =>
    have hkind : Returns (· = Kind.annotatedAssign) (pure Kind.annotatedAssign) := returns_pure rfl
    refine hother .annotatedAssign ?_ hequals (by decide)
    exact returns_bind fun _ => returns_bind fun _ => returns_bind fun _ =>
      (returns_bind fun _ => returns_bind fun _ => hkind).ite hkind
  | false =>
    obtain ⟨equals, c₅, hlook', hassign⟩ := bind_run_iff.1 hequals
    obtain rfl := stays_look hlook'
    cases equals with
    | true =>
      obtain ⟨_, c₆, hcheck, hsign⟩ := bind_run_iff.1 hassign
      obtain rfl := stays_check hcheck
      obtain ⟨_, c₇, hequals, hmany⟩ := bind_run_iff.1 hsign
      obtain ⟨l, rest, -, hl, rfl⟩ := accept_run hequals
      obtain ⟨_, c₈, hmore, hvalue⟩ := bind_run_iff.1 hmany
      obtain ⟨_, c₉, hassigned, hend⟩ := bind_run_iff.1 hvalue
      obtain ⟨v, -, hv⟩ := assignedValue_adds hself hassigned
      obtain ⟨_, c₁₀, hlook, hlast⟩ := bind_run_iff.1 hend
      obtain rfl := stays_look hlook
      obtain ⟨_, c₁₁, hcheck', hkind⟩ := bind_run_iff.1 hlast
      obtain rfl := stays_check hcheck'
      obtain ⟨rfl, rfl⟩ := pure_run_iff.1 hkind
      obtain ⟨hne, htargets⟩ :=
        targets_run hself hmore ⟨by simp, by simpa [hbuilt] using .cons (t := t) hl .nil⟩
      exact ⟨.assign, _, rfl, by decide, fun _ =>
        ⟨c₈.built.reverse, v, by simp [hv], by simpa using hne, htargets⟩, nofun⟩
    | false =>
      obtain ⟨augmented, c₆, hlook'', hlast⟩ := bind_run_iff.1 hassign
      obtain rfl := stays_look hlook''
      cases augmented with
      | true =>
        refine hother .augmentedAssign ?_ hlast (by decide)
        exact returns_bind fun _ => returns_bind fun _ => returns_bind fun _ => returns_pure rfl
      | false =>
        obtain ⟨rfl, rfl⟩ := pure_run_iff.1 hlast
        exact ⟨.expressionStatement, _, rfl, by decide, nofun, fun _ => ⟨t, by simp [hbuilt]⟩⟩

theorem simpleStatement_adds : Adds IsSimple (simpleStatement d self) := by
  have hnode {k : Kind} {r : Rule Unit}
      (hk : k ≠ .caseClause ∧ k ≠ .assign ∧ k ≠ .expressionStatement) : Adds IsSimple (node k r) :=
    adds_node (isSimple_node hk)
  have hyield : Adds IsSimple (node .expressionStatement (yieldExpression self)) := by
    intro c u c' hrun
    obtain ⟨c₁, hyield, -, rfl⟩ := node_run hrun
    obtain ⟨v, -, hbuilt⟩ := addsNode_nodeAs hyield
    exact ⟨_, ⟨.expressionStatement, _, rfl, by decide, nofun, fun _ => ⟨v, by simp [hbuilt]⟩⟩, rfl⟩
  exact stays_look.adds fun _ => (hnode (by decide)).ite <|
    stays_look.adds fun _ => (hnode (by decide)).ite <|
    stays_look.adds fun _ => (hnode (by decide)).ite <|
    stays_look.adds fun _ => (hnode (by decide)).ite <|
    stays_look.adds fun _ => (hnode (by decide)).ite <|
    stays_look.adds fun _ => (hnode (by decide)).ite <|
    stays_look.adds fun _ => hyield.ite <|
    stays_look.adds fun _ => (hnode (by decide)).ite <|
    stays_look.adds fun _ => (hnode (by decide)).ite <|
    stays_look.adds fun _ => (hnode (by decide)).ite <|
    stays_look.adds fun _ => (hnode (by decide)).ite <|
    stays_look.adds fun _ => (hnode (by decide)).ite <|
    (hnode (by decide)).orElse (expressionLed_adds hself)

theorem simpleLine_adds : Adds (fun t => ∃ ts, t = .node .line ts ∧ IsLine ts) (simpleLine d self) := by
  intro c u c' hnode
  obtain ⟨c₁, hrun, -, rfl⟩ := node_run hnode
  refine ⟨_, ⟨_, rfl, ?_⟩, rfl⟩
  obtain ⟨_, c₂, hfirst, hrest⟩ := bind_run_iff.1 hrun
  obtain ⟨first, hsimple, hbuilt⟩ := simpleStatement_adds hself hfirst
  obtain ⟨_, c₃, hmany, hrest'⟩ := bind_run_iff.1 hrest
  obtain ⟨semicolon, c₄, hlast, hnewline⟩ := bind_run_iff.1 hrest'
  obtain ⟨newline, rest, -, hkind, rfl⟩ := accept_run hnewline
  have hmore : ∃ more, c₃.built.reverse = first :: more ∧ Separated more := by
    refine many_run (P := fun b => ∃ more, b.reverse = first :: more ∧ Separated more) hmany ?_
      ⟨[], by simp [hbuilt], .nil⟩
    rintro c c' ⟨more, hb, hsep⟩ hround
    obtain ⟨_, c₁, hsign, hstatement⟩ := bind_run_iff.1 hround
    obtain ⟨l, rest, -, hl, rfl⟩ := accept_run hsign
    obtain ⟨t, ht, hadded⟩ := simpleStatement_adds hself hstatement
    exact ⟨more ++ [.leaf l, t], by simp [hadded, hb], hsep.append (.cons hl ht .nil)⟩
  obtain ⟨more, hmore, hseparated⟩ := hmore
  have hlast : ∃ last, c₄.built.reverse = first :: more ++ last ∧ MaybeSemicolon last := by
    have hlast := attempt_run hlast
    cases semicolon with
    | true =>
      obtain ⟨l, rest, -, hl, rfl⟩ := accept_run hlast
      exact ⟨[.leaf l], by simp [hmore], .inr ⟨l, hl, rfl⟩⟩
    | false =>
      obtain rfl : c₄ = c₃ := hlast
      exact ⟨[], by simp [hmore], .inl rfl⟩
  obtain ⟨last, hlast, hsemicolon⟩ := hlast
  exact ⟨first, more, last, newline, by simp [hlast], hsimple, hseparated, hsemicolon, by simpa using hkind⟩

theorem statement_isStatement : Adds IsStatement (statement d self) := by
  refine statement_adds (fun k ts hk => ⟨k, ts, rfl, fun h => absurd h hk⟩) ?_
  refine (simpleLine_adds hself).mono ?_
  rintro _ ⟨ts, rfl, hline⟩
  exact ⟨.line, ts, rfl, fun _ => hline⟩

end Statements

theorem Separated.eq_nil (h : Separated ts) (hnone : ts.filter (fun t => t.kind?.isSome) = []) : ts = [] := by
  cases h with
  | nil => rfl
  | cons _ ht _ =>
    obtain ⟨k, us, rfl, -⟩ := ht
    simp [Tree.kind?] at hnone

/-- A line with one part is that statement, perhaps with a semicolon. -/
theorem IsLine.of_parts (h : IsLine ts) (hparts : (Tree.node .line ts).parts = [t]) :
    ∃ last newline, ts = t :: last ++ [.leaf newline] ∧ IsSimple t ∧ MaybeSemicolon last ∧
      newline.kind = .newline := by
  obtain ⟨first, more, last, newline, rfl, hfirst, hmore, hlast, hnewline⟩ := h
  obtain ⟨k, us, rfl, -⟩ := id hfirst
  simp only [Tree.parts, Tree.children, Tree.kind?, List.cons_append, List.filter_cons, Option.isSome_some,
    if_true, List.filter_append, List.cons.injEq, List.append_eq_nil_iff] at hparts
  obtain rfl := hmore.eq_nil hparts.2.1.1
  exact ⟨last, newline, by simp [hparts.1], hparts.1 ▸ hfirst, hlast, hnewline⟩

theorem IsSimple.not_caseClause (h : IsSimple t) : t.is .caseClause = false := by
  obtain ⟨k, ts, rfl, hk, -⟩ := h
  simp [Tree.is, Tree.kind?, hk]

/-- No case stands in a line. -/
theorem IsLine.partsOf_caseClause (h : IsLine ts) :
    (Tree.node .line ts).partsOf .caseClause = [] := by
  obtain ⟨first, more, last, newline, rfl, hfirst, hmore, hlast, hnewline⟩ := h
  have hleaf (l : Lexeme) : (Tree.leaf l).is .caseClause = false := rfl
  have hmore : more.filter (fun t => t.is .caseClause) = [] := by
    clear hfirst hlast
    induction hmore with
    | nil => rfl
    | cons _ ht _ ih => simp [hleaf, ht.not_caseClause, ih]
  have hlast : last.filter (fun t => t.is .caseClause) = [] := by
    rcases hlast with rfl | ⟨l, -, rfl⟩
    · rfl
    · simp [hleaf]
  simp [Tree.partsOf, Tree.children, hfirst.not_caseClause, hmore, hlast, hleaf]

/-! ### Compound statements -/

section Compound

variable {d : Dialect} {c' : Cursor} {u : Unit} (hself : ∀ g, AddsNode (self g))

omit hself in
theorem body_extends : Extends (body d self) := extends_accept.bind fun _ => addsNode_node.extends

omit hself in
theorem maybeElse_extends : Extends (do if ← atWord "else" then elseSuite d self) :=
  stays_look.extends.bind fun _ => addsNode_node.extends.ite stays_pure.extends

include hself

/-- A loop is `for`, its target, `in` and more. -/
theorem statement_for {l : Lexeme} {rest : List Lexeme} (hl : l.isWord "for" = true)
    (h : (statement d self).run ⟨l :: rest, []⟩ = some (u, c')) :
    ∃ target inWord more, c'.built = [.node .forLoop (.leaf l :: target :: .leaf inWord :: more)] ∧
      target.IsNode ∧ inWord.isWord "in" = true := by
  have hword := Lexeme.isWord_of_isWord hl
  have hfor : (forLoop d self).run ⟨l :: rest, []⟩ = some (u, c') := by
    simpa [statement, hword, Lexeme.isOperator_of_isWord hl] using h
  obtain ⟨c₁, hrun, -, rfl⟩ := node_run hfor
  obtain ⟨_, c₂, hasync, hrest⟩ := bind_run_iff.1 hrun
  obtain rfl : c₂ = ⟨l :: rest, []⟩ := by
    simpa [maybeAsync, hword, pure_run_iff] using hasync
  obtain ⟨_, c₃, hfor, hrest⟩ := bind_run_iff.1 hrest
  obtain ⟨l', rest', heq, -, rfl⟩ := accept_run hfor
  obtain ⟨rfl, rfl⟩ := List.cons.inj heq
  obtain ⟨_, c₄, htargets, hrest⟩ := bind_run_iff.1 hrest
  obtain ⟨target, htarget, hbuilt⟩ := loopTargets_adds hself htargets
  obtain ⟨_, c₅, hin, hrest⟩ := bind_run_iff.1 hrest
  obtain ⟨inWord, rest', -, hinWord, rfl⟩ := accept_run hin
  have hmore : Extends (do starExpressions self; body d self; if ← atWord "else" then elseSuite d self) :=
    (starExpressions_adds hself).extends.bind fun _ => body_extends.bind fun _ => maybeElse_extends
  obtain ⟨more, hmore⟩ := hmore hrest
  refine ⟨target, inWord, more.reverse, ?_, htarget, hinWord⟩
  simp [← hmore, hbuilt]

/-- The lexeme after the pattern of a case. -/
def EndsPattern (l : Lexeme) : Prop := l.isWord "if" = true ∨ l.isOperator ":" = true

/-- A case is the word, its pattern, and more from a guard or the colon on. -/
def IsCase (ts : List Tree) : Prop :=
  ∃ word pattern more l ls, ts = .leaf word :: pattern :: more ∧ word.isWord "case" = true ∧
    pattern.IsNode ∧ Tree.lexemesOf more = l :: ls ∧ EndsPattern l

omit hself in
theorem body_run {c : Cursor} (h : (body d self).run c = some (u, c')) :
    ∃ l suite, c'.built = suite :: .leaf l :: c.built ∧ l.isOperator ":" = true := by
  obtain ⟨_, c₁, hcolon, hsuite⟩ := bind_run_iff.1 h
  obtain ⟨l, rest, -, hl, rfl⟩ := accept_run hcolon
  obtain ⟨suite, -, hbuilt⟩ := addsNode_node hsuite
  exact ⟨l, suite, hbuilt, hl⟩

theorem guard_run {c : Cursor}
    (h : (node .guard (do word "if"; namedExpression self)).run c = some (u, c')) :
    ∃ l ts, c'.built = .node .guard (.leaf l :: ts) :: c.built ∧ l.isWord "if" = true := by
  obtain ⟨c₁, hrun, -, rfl⟩ := node_run h
  obtain ⟨_, c₂, hword, hnamed⟩ := bind_run_iff.1 hrun
  obtain ⟨l, rest, -, hl, rfl⟩ := accept_run hword
  have hadds : AddsNode (namedExpression self) := addsNode_node.orElse (hself _)
  obtain ⟨t, -, hbuilt⟩ := hadds hnamed
  exact ⟨l, [t], by simp [hbuilt], hl⟩

theorem caseClause_run {c : Cursor} (h : (caseClause d self).run c = some (u, c')) :
    ∃ ts, c'.built = .node .caseClause ts :: c.built ∧ IsCase ts := by
  obtain ⟨c₁, hrun, -, rfl⟩ := node_run h
  obtain ⟨_, c₂, hcase, hrest⟩ := bind_run_iff.1 hrun
  obtain ⟨word, rest, -, hword, rfl⟩ := accept_run hcase
  obtain ⟨_, c₃, hpattern, hrest'⟩ := bind_run_iff.1 hrest
  obtain ⟨pattern, hnode, hbuilt⟩ := casePattern_adds hself hpattern
  obtain ⟨guarded, c₄, hlook, hlast⟩ := bind_run_iff.1 hrest'
  obtain rfl := stays_look hlook
  refine ⟨_, rfl, ?_⟩
  cases guarded with
  | true =>
    obtain ⟨_, c₅, hguard, hbody⟩ := bind_run_iff.1 hlast
    obtain ⟨l, ts, hguard, hl⟩ := guard_run hself hguard
    obtain ⟨colon, suite, hbody, -⟩ := body_run hbody
    exact ⟨word, pattern, [.node .guard (.leaf l :: ts), .leaf colon, suite], l, _,
      by simp [hbody, hguard, hbuilt], hword, hnode, rfl, .inl hl⟩
  | false =>
    obtain ⟨colon, suite, hbody, hcolon⟩ := body_run hlast
    exact ⟨word, pattern, [.leaf colon, suite], colon, _, by simp [hbody, hbuilt], hword, hnode, rfl,
      .inr hcolon⟩

end Compound

/-! ### A name before a colon -/

section Subject

variable {v colon : Lexeme}

/-- Before the name `v` and a colon the rule takes the name. -/
def TakesName (v colon : Lexeme) (r : Rule Unit) : Prop :=
  ∀ rest ts, r.run ⟨v :: colon :: rest, ts⟩ = some ((), ⟨colon :: rest, .node .name [.leaf v] :: ts⟩)

/-- Before a colon the rule takes nothing. -/
def Idles (colon : Lexeme) (r : Rule Unit) : Prop :=
  ∀ rest ts, r.run ⟨colon :: rest, ts⟩ = some ((), ⟨colon :: rest, ts⟩)

/-- The rule does not begin with a colon. -/
def Fails (colon : Lexeme) (r : Rule Unit) : Prop := ∀ rest ts, r.run ⟨colon :: rest, ts⟩ = none

theorem TakesName.idles {r : Rule Unit} {f : Unit → Rule Unit} (h : TakesName v colon r)
    (h' : Idles colon (f ())) : TakesName v colon (r >>= f) := by
  intro rest ts
  rw [bind_run_some (h rest ts), h']

theorem Fails.many {r : Rule Unit} (h : Fails colon r) : Idles colon (many r) := fun rest ts =>
  many_run_none (h rest ts)

theorem fails_wrap {k : Kind} {r : Rule Unit} (h : Fails colon r) : Fails colon (wrap k r) := by
  intro rest ts
  cases ts with
  | nil => rfl
  | cons t ts => simp [wrap, h rest [t]]

variable (hv : v.isWord "_" = true) (hcolon : colon.isOperator ":" = true)

theorem isOperator_of_colon (h : colon.isOperator ":" = true) (s : String) :
    colon.isOperator s = (":" == s) := by
  simp only [Lexeme.isOperator, Bool.and_eq_true, beq_iff_eq] at h
  simp [Lexeme.isOperator, h]

theorem isWord_of_colon (h : colon.isOperator ":" = true) (w : String) : colon.isWord w = false := by
  simp only [Lexeme.isOperator, Bool.and_eq_true, beq_iff_eq] at h
  simp [Lexeme.isWord, h]

include hv

theorem name_takesName : TakesName v colon name := by
  intro rest ts
  have hbindable : bindable v = true := by
    simp only [Lexeme.isWord, Bool.and_eq_true, beq_iff_eq] at hv
    simp only [bindable, hv]
    decide
  exact node_run_some (accept_run_some hbindable)

theorem atom_takesName : TakesName v colon (atom self) := by
  intro rest ts
  have hkind : v.kind = .name := by
    simp only [Lexeme.isWord, Bool.and_eq_true, beq_iff_eq] at hv
    exact hv.1
  have hconstant : isConstant v = false := by
    simp only [Lexeme.isWord, Bool.and_eq_true, beq_iff_eq] at hv
    simp [isConstant, hv]
  have : name.run ⟨v :: colon :: rest, ts⟩ = some ((), ⟨colon :: rest, .node .name [.leaf v] :: ts⟩) :=
    name_takesName hv rest ts
  simpa [atom, atKind, Lexeme.isOperator_of_isWord hv, hkind, hconstant] using this

include hcolon

theorem primary_takesName : TakesName v colon (primary self) := by
  refine (atom_takesName hv).idles (Fails.many fun rest ts => ?_)
  simp [isOperator_of_colon hcolon]
  rfl

theorem factor_takesName : TakesName v colon (factor self) := by
  have hawait : TakesName v colon (awaitPrimary self) := by
    intro rest ts
    simpa [awaitPrimary, Lexeme.isWord_of_isWord hv] using primary_takesName hv hcolon rest ts
  have hpower : TakesName v colon (do
      awaitPrimary self
      if ← atSign "**" then
        let _ ← attempt (wrap .power (do sign "**"; self .factor))) := by
    refine hawait.idles fun rest ts => ?_
    simp [isOperator_of_colon hcolon]
    rfl
  intro rest ts
  have hkind : v.kind = .name := by
    simp only [Lexeme.isWord, Bool.and_eq_true, beq_iff_eq] at hv
    exact hv.1
  simpa [factor, atSigns, hkind] using hpower rest ts

theorem binaryTower_takesName {levels : List (List String)} (hlevels : ∀ level ∈ levels, ":" ∉ level) :
    TakesName v colon (binaryTower self levels) := by
  induction levels with
  | nil => exact factor_takesName hv hcolon
  | cons level tighter ih =>
    refine (ih fun l hl => hlevels l (by simp [hl])).idles (Fails.many fun rest ts => ?_)
    have hlevel : (colon.kind == .operator && level.contains colon.text) = false := by
      simp only [Lexeme.isOperator, Bool.and_eq_true, beq_iff_eq] at hcolon
      simpa [hcolon] using hlevels level (by simp)
    unfold atSigns
    rw [next_bind_run, hlevel]
    exact bind_run_none rfl

theorem comparison_takesName : TakesName v colon (comparison self) := by
  intro rest ts
  have hsign : Fails colon comparisonSign := by
    intro rest ts
    have hoperator : (colon.kind == .operator && ["==", "!=", "<=", "<", ">=", ">"].contains colon.text) =
        false := by
      simp only [Lexeme.isOperator, Bool.and_eq_true, beq_iff_eq] at hcolon
      simp [hcolon]
    unfold comparisonSign atSigns
    rw [next_bind_run, hoperator]
    simp only [Bool.false_eq_true, if_false, atWord_bind_run, isWord_of_colon hcolon]
    exact bind_run_none (accept_run_none (isWord_of_colon hcolon _))
  have htower : TakesName v colon (bitwiseOr self) :=
    binaryTower_takesName hv hcolon (by simp [binaryLevels])
  have hinner : (do
      bitwiseOr self
      many (do comparisonSign; bitwiseOr self)
      return decide (1 < (← built).length)).run ⟨v :: colon :: rest, []⟩ =
        some (false, ⟨colon :: rest, [.node .name [.leaf v]]⟩) := by
    rw [bind_run_some (htower rest []), bind_run_some (many_run_none (bind_run_none (hsign _ _)))]
    rfl
  exact nodeWhen_run_false hinner

theorem expression_takesName : TakesName v colon (expression self) := by
  have hinversion : TakesName v colon (inversion self) := by
    intro rest ts
    simpa [inversion, Lexeme.isWord_of_isWord hv] using comparison_takesName hv hcolon rest ts
  have hword {w : String} {r : Rule Unit} : Fails colon (do word w; r) := fun rest ts =>
    bind_run_none (accept_run_none (isWord_of_colon hcolon w))
  have hconjunction : TakesName v colon (conjunction self) := hinversion.idles (fails_wrap hword).many
  have hdisjunction : TakesName v colon (disjunction self) := hconjunction.idles (fails_wrap hword).many
  intro rest ts
  simp only [expression, atWord_bind_run, Lexeme.isWord_of_isWord hv]
  rw [if_neg (by decide), bind_run_some (hdisjunction rest ts)]
  simp only [atWord_bind_run, isWord_of_colon hcolon]
  rfl

/-- The subject of a match that is a name. -/
theorem subject_takesName (hself : TakesName v colon (self .expression)) :
    TakesName v colon (tupled .tuple (starNamedExpression self)) := by
  have hnamed : TakesName v colon (namedExpression self) := by
    intro rest ts
    have hsign : Fails colon (sign ":=") := fun rest ts =>
      accept_run_none ((isOperator_of_colon hcolon ":=").trans (by decide))
    have hfails : (node .named (do name; sign ":="; self .expression)).run ⟨v :: colon :: rest, ts⟩ = none := by
      refine node_run_none ?_
      rw [bind_run_some (name_takesName hv rest [])]
      exact bind_run_none (hsign _ _)
    unfold namedExpression
    rw [orElse_run_none hfails, hself]
  have hitem : TakesName v colon (starNamedExpression self) := by
    intro rest ts
    simpa [starNamedExpression, Lexeme.isOperator_of_isWord hv] using hnamed rest ts
  intro rest ts
  have hcomma : Fails colon (sign ",") := fun rest ts =>
    accept_run_none ((isOperator_of_colon hcolon ",").trans (by decide))
  have hinner : (do
      let trailing ← commas (starNamedExpression self)
      return trailing || decide (1 < (← built).length)).run ⟨v :: colon :: rest, []⟩ =
        some (false, ⟨colon :: rest, [.node .name [.leaf v]]⟩) := by
    have hcommas : (commas (starNamedExpression self)).run ⟨v :: colon :: rest, []⟩ =
        some (false, ⟨colon :: rest, [.node .name [.leaf v]]⟩) := by
      unfold commas
      rw [bind_run_some (hitem rest []),
        bind_run_some (many_run_none (bind_run_none (hcomma _ _)))]
      unfold attempt
      rw [orElse_run_none (bind_run_none (hcomma _ _))]
      rfl
    rw [bind_run_some hcommas]
    rfl
  exact nodeWhen_run_false hinner

end Subject

/-- A match of a name is the word, the name, a colon, a line end, a change of indentation and a case. -/
theorem statement_match {depth : Nat} {m v colon : Lexeme} {rest : List Lexeme} {u : Unit} {c' : Cursor}
    (hm : m.isWord "match" = true) (hv : v.isWord "_" = true) (hcolon : colon.isOperator ":" = true)
    (h : (statement d (rule d (depth + 1))).run ⟨m :: v :: colon :: rest, []⟩ = some (u, c')) :
    (∃ ts, c'.built = [.node .line ts] ∧ IsLine ts) ∨
      ∃ newline indent ts more, c'.built = [.node .matchStatement (.leaf m :: .node .name [.leaf v] ::
        .leaf colon :: .leaf newline :: .leaf indent :: .node .caseClause ts :: more)] ∧ IsCase ts := by
  have hself := rule_adds d (depth + 1)
  have hmatch : (matchStatement d (rule d (depth + 1)) <|> simpleLine d (rule d (depth + 1))).run
      ⟨m :: v :: colon :: rest, []⟩ = some (u, c') := by
    simpa [statement, Lexeme.isWord_of_isWord hm, Lexeme.isOperator_of_isWord hm] using h
  rcases orElse_run hmatch with hmatch | hline
  · right
    obtain ⟨c₁, hrun, -, rfl⟩ := node_run hmatch
    obtain ⟨_, c₂, hheader, hcases⟩ := bind_run_iff.1 hrun
    obtain ⟨_, c₃, hword, hsubject⟩ := bind_run_iff.1 hheader
    obtain ⟨m', rest', heq, -, rfl⟩ := accept_run hword
    obtain ⟨rfl, rfl⟩ := List.cons.inj heq
    have hexpression : TakesName v colon (rule d (depth + 1) .expression) := expression_takesName hv hcolon
    have htakes := subject_takesName hv hcolon hexpression
    rw [bind_run_some (htakes rest [.leaf m])] at hsubject
    obtain ⟨_, c₄, hlatest, hcheck⟩ := bind_run_iff.1 hsubject
    obtain ⟨-, rfl⟩ := latest_run hlatest
    obtain ⟨_, c₅, hcheck, hsign⟩ := bind_run_iff.1 hcheck
    obtain rfl := stays_check hcheck
    obtain ⟨_, c₆, hsign, hnewline⟩ := bind_run_iff.1 hsign
    obtain ⟨l, rest', heq, -, rfl⟩ := accept_run hsign
    obtain ⟨rfl, rfl⟩ := List.cons.inj heq
    obtain ⟨_, c₇, hnewline, hindent⟩ := bind_run_iff.1 hnewline
    obtain ⟨newline, rest', -, -, rfl⟩ := accept_run hnewline
    obtain ⟨indent, rest', -, -, rfl⟩ := accept_run hindent
    obtain ⟨_, c₈, hcase, hmore⟩ := bind_run_iff.1 hcases
    obtain ⟨ts, hbuilt, hts⟩ := caseClause_run hself hcase
    have hextends : Extends (do many (caseClause d (rule d (depth + 1))); kind .dedent) :=
      addsNode_node.extends.many.bind fun _ => extends_accept
    obtain ⟨more, hmore⟩ := hextends hmore
    exact ⟨newline, indent, ts, more.reverse, by simp [← hmore, hbuilt], hts⟩
  · left
    obtain ⟨_, ⟨ts, rfl, hts⟩, hbuilt⟩ := simpleLine_adds hself hline
    exact ⟨ts, hbuilt, hts⟩

end Grammar

end DoBlocks.Host
