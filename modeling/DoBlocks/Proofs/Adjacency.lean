import DoBlocks.Proofs.RuleFlow

/-!
# Which lexemes stand next to each other

In a module that the grammar describes no name is followed by an opening brace, `match` and `case`
apart, and no `=` by an operator that begins with `>`. One lemma for each rule says from where to where it
flows; expressions and patterns are read where an operand may stand and leave what an operator may follow.
-/

namespace DoBlocks.Host.Grammar

open Rule

variable {P : Known}

theorem name_flows : Flows P Ends name :=
  (flows_acceptName fun l hl => by
    simp only [bindable, Bool.and_eq_true, beq_iff_eq] at hl
    exact hl.1).node

/-- The rules at the next smaller depth take lexemes that fit. -/
structure Smooth (rules : Goal → Rule Unit) : Prop where
  expression : ReadsOperand (rules .expression)
  disjunction : ReadsOperand (rules .disjunction)
  inversion : ReadsOperand (rules .inversion)
  bitwiseOr : ReadsOperand (rules .bitwiseOr)
  factor : ReadsOperand (rules .factor)
  pattern : ReadsOperand (rules .pattern)
  field : Flows Opens Free (rules .field)
  statement : Flows Opens Opens (rules .statement)

section Rules

variable {self : Goal → Rule Unit} (h : Smooth self)
include h

/-! ### Expressions -/

theorem namedExpression_flows : ReadsOperand (namedExpression self) :=
  (name_flows.bind fun _ => (flows_sign (by decide)).bind fun _ => h.expression).node.orElse h.expression

theorem starred_flows : Flows P Ends (starred self) :=
  ((flows_sign (by decide)).bind fun _ => h.bitwiseOr).node

theorem starExpression_flows : ReadsOperand (starExpression self) :=
  flows_look fun _ => (starred_flows h).ite h.expression

theorem starNamedExpression_flows : ReadsOperand (starNamedExpression self) :=
  flows_look fun _ => (starred_flows h).ite (namedExpression_flows h)

theorem starExpressions_flows : ReadsOperand (starExpressions self) := (starExpression_flows h).tupled

theorem yieldExpression_flows : Flows P Ends (yieldExpression self) := by
  refine ((flows_word (by decide)).bind fun _ => flows_look fun _ => Flows.ite ?_ ?_).nodeAs
  · exact (flows_word (by decide)).bind fun _ => h.expression.fromFree.bind fun _ => flows_pure
  · exact (starExpressions_flows h).optional.bind fun _ => flows_pure

theorem loopTargets_flows : Flows Free Ends (loopTargets self) := by
  have htarget : ReadsOperand (do if ← atSign "*" then starred self else self .bitwiseOr) :=
    flows_look fun _ => (starred_flows h).ite h.bitwiseOr
  exact htarget.tupled.fromFree.bind fun _ => flows_look fun _ => flows_check

theorem comprehensionClauses_flows : Flows Ends Ends (comprehensionClauses self) := by
  have hif : Flows Ends Ends (many (node .comprehensionIf (do word "if"; self .disjunction))) :=
    ((flows_word (by decide)).bind fun _ => h.disjunction.fromFree).node.many
  have hfor {Q : Known} : Flows Q Ends (do
      word "for"
      loopTargets self
      word "in"
      self .disjunction
      many (node .comprehensionIf (do word "if"; self .disjunction))) :=
    (flows_word (by decide)).bind fun _ => (loopTargets_flows h).bind fun _ =>
      (flows_word (by decide)).bind fun _ => h.disjunction.fromFree.bind fun _ => hif
  have hclause : Flows Ends Ends (node .comprehensionFor do
      if ← atWord "async" then word "async"
      word "for"
      loopTargets self
      word "in"
      self .disjunction
      many (node .comprehensionIf (do word "if"; self .disjunction))) :=
    (flows_look fun _ => ((flows_word (by decide)).bind fun _ => hfor).ite hfor).node
  exact hclause.bind fun _ => hclause.many

omit h in
theorem atClause_flows : Flows P P atClause :=
  flows_look fun _ => flows_pure.ite <|
    flows_look fun _ => (stays_look.flows fun _ _ => id).ite flows_pure

theorem parenthesised_flows : Flows P Ends (parenthesised self) := by
  have hclose {k : Kind} {Q : Known} : Flows Q Ends (do sign ")"; return k) :=
    (flows_signEnds (by decide)).bind fun _ => flows_pure
  refine Flows.nodeAs ((flows_signFree (by decide)).bind fun _ => flows_look fun _ => hclose.ite ?_)
  refine flows_look fun _ => ((yieldExpression_flows h).bind fun _ => hclose).ite ?_
  refine (starNamedExpression_flows h).fromFree.bind fun _ => flows_look fun _ => flows_look fun _ => Flows.ite ?_ ?_
  · exact (starNamedExpression_flows h).more.bind fun _ => flows_comma.bind fun _ => hclose
  · exact flows_check.bind fun _ => atClause_flows.bind fun _ =>
      ((comprehensionClauses_flows h).bind fun _ => hclose).ite hclose

theorem listDisplay_flows : Flows P Ends (listDisplay self) := by
  have hclose {k : Kind} {Q : Known} : Flows Q Ends (do sign "]"; return k) :=
    (flows_signEnds (by decide)).bind fun _ => flows_pure
  refine Flows.nodeAs ((flows_signFree (by decide)).bind fun _ => flows_look fun _ => hclose.ite ?_)
  refine (starNamedExpression_flows h).fromFree.bind fun _ => flows_look fun _ =>
    atClause_flows.bind fun _ => Flows.ite ?_ ?_
  · exact flows_check.bind fun _ => (comprehensionClauses_flows h).bind fun _ => hclose
  · exact (starNamedExpression_flows h).more.bind fun _ => flows_comma.bind fun _ => hclose

theorem pairValue_flows : Flows P Ends (pairValue self) :=
  ((flows_sign (by decide)).bind fun _ => h.expression).wrap

theorem dictItem_flows : ReadsOperand (dictItem self) :=
  flows_look fun _ => (((flows_sign (by decide)).bind fun _ => h.bitwiseOr).node).ite
    (h.expression.bind fun _ => pairValue_flows h)

theorem braceDisplay_flows : ReadsOperand (braceDisplay self) := by
  have hclose {k : Kind} {Q : Known} : Flows Q Ends (do sign "\x7d"; return k) :=
    (flows_signEnds (by decide)).bind fun _ => flows_pure
  -- what follows the first element, a pair or not
  have hrest {isDict starred : Bool} {k k' : Kind} : Flows Ends Ends (do
      if ← atClause then
        check starred
        comprehensionClauses self
        sign "\x7d"
        return k
      many (do sign ","; if isDict then dictItem self else starNamedExpression self)
      let _ ← attempt (sign ",")
      sign "\x7d"
      return k') := by
    have hitem : ReadsOperand (if isDict then dictItem self else starNamedExpression self) :=
      (dictItem_flows h).ite (starNamedExpression_flows h)
    refine atClause_flows.bind fun _ => Flows.ite ?_ ?_
    · exact flows_check.bind fun _ => (comprehensionClauses_flows h).bind fun _ => hclose
    · exact hitem.more.bind fun _ => flows_comma.bind fun _ => hclose
  refine Flows.nodeAs (flows_brace.bind fun _ => flows_look fun _ => hclose.ite ?_)
  refine flows_look fun _ => Flows.ite ?_ ?_
  · exact (dictItem_flows h).fromFree.bind fun _ => flows_look fun _ => hrest
  · exact (starNamedExpression_flows h).fromFree.bind fun _ => flows_look fun _ => flows_look fun _ =>
      ((pairValue_flows h).bind fun _ => flows_look fun _ => hrest).ite (flows_look fun _ => hrest)

theorem replacementField_flows : Flows Opens Free (replacementField self) := by
  have hclose {Q : Known} : Flows Q Free (sign "\x7d") := flows_signFree (by decide)
  have hparts : Flows Free Free (many (kind .joinedText <|> self .field)) :=
    ((flows_kind (by decide)).orElse h.field.fromFree).many
  have hspec {Q : Known} : Flows Q Free (do
      if ← atSign ":" then
        node .fieldSpec do
          sign ":"
          many (kind .joinedText <|> self .field)
      sign "\x7d") :=
    flows_look fun _ => (((flows_signFree (by decide)).bind fun _ => hparts).node.bind fun _ => hclose).ite hclose
  -- the conversion is a name, which only `:` or the closing brace can follow
  have hrest {Q : Known} : Flows Q Free (do
      if ← atSign "!" then
        sign "!"
        accept fun l => l.kind == .name && l.gap.isEmpty && ["r", "s", "a"].contains l.text
      if ← atSign ":" then
        node .fieldSpec do
          sign ":"
          many (kind .joinedText <|> self .field)
      sign "\x7d") :=
    flows_look fun _ => ((flows_sign (by decide)).bind fun _ =>
      (flows_acceptName fun l hl => by
        simp only [Bool.and_eq_true, beq_iff_eq] at hl
        exact hl.1.1).bind fun _ => hspec).ite hspec
  have hafter : Flows Ends Free (do
      let _ ← attempt (sign "=")
      if ← atSign "!" then
        sign "!"
        accept fun l => l.kind == .name && l.gap.isEmpty && ["r", "s", "a"].contains l.text
      if ← atSign ":" then
        node .fieldSpec do
          sign ":"
          many (kind .joinedText <|> self .field)
      sign "\x7d") := by
    have hequals : Flows Ends (fun _ _ => True) (attempt (sign "=")) :=
      ((flows_sign (by decide)).weaken (fun _ _ => id) fun _ _ _ => trivial).attempt fun _ _ _ => trivial
    exact hequals.bind fun _ => hrest
  refine Flows.node (flows_brace.bind fun _ => flows_look fun _ => Flows.ite ?_ ?_)
  · exact (yieldExpression_flows h).bind fun _ => hafter
  · exact (starExpressions_flows h).fromFree.bind fun _ => hafter

theorem strings_flows : ReadsOperand (strings self) := by
  have hparts : Flows Free Free (many (kind .joinedText <|> self .field)) :=
    ((flows_kind (by decide)).orElse h.field.fromFree).many
  have hpart {Q : Known} : Flows Q Ends (stringPart self) :=
    flows_look fun _ => (flows_kind (by decide)).toEnds.node.ite <|
      ((flows_kind (by decide)).bind fun _ => hparts.bind fun _ => (flows_kind (by decide)).toEnds).node
  exact (hpart.bind fun _ => hpart.many.bind fun _ => flows_look fun _ => flows_pure).nodeWhen

omit h in
theorem constant_flows : Flows P Ends (accept isConstant) :=
  flows_acceptName fun l hl => by
    simp only [isConstant, Bool.and_eq_true, beq_iff_eq] at hl
    exact hl.1

theorem atom_flows : ReadsOperand (atom self) :=
  flows_look fun _ => (parenthesised_flows h).ite <|
  flows_look fun _ => (listDisplay_flows h).ite <|
  flows_look fun _ => (braceDisplay_flows h).ite <|
  flows_look fun _ => (flows_signEnds (by decide)).node.ite <|
  flows_look fun _ => (flows_kind (by decide)).toEnds.node.ite <|
  flows_look fun _ => flows_look fun _ => (strings_flows h).ite <|
  flows_look fun _ => constant_flows.node.ite name_flows

theorem argument_flows (alone : Bool) : ReadsOperand (argument self alone) := by
  have hnamed : ReadsOperand (nodeAs do
      namedExpression self
      if alone && (← atClause) then
        comprehensionClauses self
        return .generatorArgument
      return .argument) :=
    ((namedExpression_flows h).bind fun _ => atClause_flows.bind fun _ =>
      ((comprehensionClauses_flows h).bind fun _ => flows_pure).ite flows_pure).nodeAs
  exact flows_look fun _ => ((flows_sign (by decide)).bind fun _ => h.expression).node.ite <|
    flows_look fun _ => ((flows_sign (by decide)).bind fun _ => h.expression).node.ite <|
    flows_look fun _ => flows_look fun _ =>
      (name_flows.bind fun _ => (flows_sign (by decide)).bind fun _ => h.expression).node.ite hnamed

theorem callSuffix_flows : Flows P Ends (callSuffix self) := by
  have harguments : Flows Free Ends (arguments self) := by
    refine flows_look fun _ => (stays_pure.flows fun _ _ => And.right).ite ?_
    refine (argument_flows h true).fromFree.bind fun _ => flows_look fun _ => flows_pure.ite ?_
    exact (argument_flows h false).more.bind fun _ => flows_comma.bind fun _ => flows_look fun _ => flows_check
  exact (flows_signFree (by decide)).bind fun _ => harguments.bind fun _ => flows_signEnds (by decide)

theorem sliceTail_flows : Flows P Ends (sliceTail self) :=
  (flows_signFree (by decide)).bind fun _ => h.expression.optional.bind fun _ => flows_look fun _ =>
    ((flows_signFree (by decide)).bind fun _ => h.expression.optional.bind fun _ => flows_pure).ite flows_pure

theorem subscriptSuffix_flows : Flows P Ends (subscriptSuffix self) := by
  have hitem : ReadsOperand (sliceItem self) :=
    flows_look fun _ => ((flows_sign (by decide)).bind fun _ => h.expression).node.ite <|
    flows_look fun _ => (sliceTail_flows h).node.ite <|
    (namedExpression_flows h).bind fun _ => flows_look fun _ => flows_look fun _ =>
      (sliceTail_flows h).wrap.ite flows_pure
  exact (flows_sign (by decide)).bind fun _ => hitem.tupled.bind fun _ => flows_signEnds (by decide)

theorem primary_flows : ReadsOperand (primary self) := by
  refine (atom_flows h).bind fun _ => Flows.many ?_
  exact flows_look fun _ => ((flows_sign (by decide)).bind fun _ => name_flows).wrap.ite <|
    flows_look fun _ => (callSuffix_flows h).wrap.ite <|
    flows_look fun _ => (subscriptSuffix_flows h).wrap.ite flows_failure

/-! ### Operators -/

theorem factor_flows : ReadsOperand (factor self) := by
  have hawait : ReadsOperand (awaitPrimary self) :=
    flows_look fun _ => ((flows_word (by decide)).bind fun _ => (primary_flows h).fromFree).node.ite
      (primary_flows h)
  have hpower : Flows Ends Ends (attempt (wrap .power (do sign "**"; self .factor))) :=
    (((flows_sign (by decide)).bind fun _ => h.factor).wrap).attempt fun _ _ => id
  refine flows_next ((flows_seenSign (by decide) (by decide)).bind fun _ => h.factor.fromFree).node ?_
  exact hawait.bind fun _ => flows_look fun _ => (hpower.bind fun _ => flows_pure).ite flows_pure

theorem binaryTower_flows {levels : List (List String)}
    (hlevels : (levels.all fun ss => !ss.contains "=" && !ss.contains "\x7b") = true) :
    ReadsOperand (binaryTower self levels) := by
  induction levels with
  | nil => exact factor_flows h
  | cons level tighter ih =>
    simp only [List.all_cons, Bool.and_eq_true, Bool.not_eq_true'] at hlevels
    have htighter := ih hlevels.2
    refine htighter.bind fun _ => Flows.many (flows_checkNext (Flows.wrap ?_))
    exact (flows_seenOperator hlevels.1.1 hlevels.1.2).bind fun _ => htighter.fromFree

theorem bitwiseOr_flows : ReadsOperand (bitwiseOr self) := binaryTower_flows h (by decide)

omit h in
theorem comparisonSign_flows : Flows Ends Free comparisonSign := by
  refine flows_next (flows_seenOperator (by decide) (by decide)) ?_
  refine flows_look fun _ => (flows_word (by decide)).ite ?_
  refine flows_look fun _ => ((flows_word (by decide)).bind fun _ => flows_word (by decide)).ite ?_
  have hnot : Flows Free Free (attempt (word "not")) := (flows_word (by decide)).attempt fun _ _ => id
  exact (flows_word (by decide)).bind fun _ => hnot.bind fun _ => flows_pure

theorem inversion_flows : ReadsOperand (inversion self) := by
  have hcomparison : ReadsOperand (comparison self) :=
    ((bitwiseOr_flows h).bind fun _ =>
      (comparisonSign_flows.bind fun _ => (bitwiseOr_flows h).fromFree).many.bind fun _ =>
        flows_look fun _ => flows_pure).nodeWhen
  exact flows_look fun _ => ((flows_word (by decide)).bind fun _ => h.inversion.fromFree).node.ite hcomparison

theorem disjunction_flows : ReadsOperand (disjunction self) := by
  have hconjunction : ReadsOperand (conjunction self) :=
    (inversion_flows h).bind fun _ =>
      ((flows_word (by decide)).bind fun _ => (inversion_flows h).fromFree).wrap.many
  exact hconjunction.bind fun _ => ((flows_word (by decide)).bind fun _ => hconjunction.fromFree).wrap.many

/-! ### Parameters -/

theorem parameters_flows {annotated : Bool → Rule Unit} (hannotated : ∀ star, Flows Ends Ends (annotated star)) :
    ReadsOperand (parameters self annotated) := by
  have hstar : Flows Free Ends (do if ← attempt name then annotated true) := by
    have hname : Flows Free Ends (attempt name) := name_flows.attempt fun _ _ => And.right
    exact hname.bind fun _ => (hannotated true).ite flows_pure
  have hitem : ReadsOperand (parameter self annotated) := by
    refine flows_look fun _ => (flows_signEnds (by decide)).node.ite ?_
    refine flows_look fun _ => Flows.ite ?_ ?_
    · exact ((flows_sign (by decide)).bind fun _ => name_flows.bind fun _ => hannotated false).node
    refine flows_look fun _ => ((flows_signFree (by decide)).bind fun _ => hstar).node.ite ?_
    exact (name_flows.bind fun _ => (hannotated false).bind fun _ => flows_look fun _ =>
      ((flows_sign (by decide)).bind fun _ => h.expression).node.ite flows_pure).node
  exact (hitem.commas.bind fun _ => flows_look fun _ => flows_check.bind fun _ => flows_check).node

theorem expression_flows : ReadsOperand (expression self) := by
  have hbody {Q : Known} : Flows Q Ends (do sign ":"; self .expression) :=
    (flows_sign (by decide)).bind fun _ => h.expression
  have hlambda : ReadsOperand (lambda self) := by
    refine ((flows_word (by decide)).bind fun _ => flows_look fun _ => Flows.ite ?_ hbody).node
    exact (parameters_flows h fun _ => flows_pure).fromFree.bind fun _ => hbody
  have hconditional : Flows Ends Ends (attempt (wrap .conditional do
      word "if"
      disjunction self
      word "else"
      self .expression)) :=
    ((flows_word (by decide)).bind fun _ => (disjunction_flows h).fromFree.bind fun _ =>
      (flows_word (by decide)).bind fun _ => h.expression.fromFree).wrap.attempt fun _ _ => id
  exact flows_look fun _ => hlambda.ite <| (disjunction_flows h).bind fun _ => flows_look fun _ =>
    (hconditional.bind fun _ => flows_pure).ite flows_pure

/-! ### Patterns -/

omit h in
theorem numberPattern_flows : Flows P Ends numberPattern := by
  have hnumber {φ : Lexeme → Bool} (hφ : ∀ l, φ l = true → l.kind = .number) {Q : Known} :
      Flows Q Ends (node .number (accept φ)) :=
    (flows_acceptOther fun l hl => by simp [hφ l hl]).toEnds.node
  have hsigned {digits : Rule Unit} {Q : Known} (hdigits : ∀ Q : Known, Flows Q Ends digits) :
      Flows Q Ends (signed digits) :=
    flows_look fun _ => ((flows_sign (by decide)).bind fun _ => hdigits _).node.ite (hdigits _)
  have hthat {imaginary : Bool} {Q : Known} : Flows Q Ends (numberThat imaginary) :=
    hnumber fun l hl => by
      simp only [Bool.and_eq_true, beq_iff_eq] at hl
      exact hl.1
  refine Flows.orElse ?_ (Flows.node ?_)
  · exact (hsigned fun _ => hnumber fun l hl => by simpa using hl).bind fun _ => flows_look fun _ => flows_check
  · have hjoin {Q : Known} : Flows Q Opens (accept fun l => l.isOperator "+" || l.isOperator "-") := by
      refine flows_accept (fun p l _ _ hl => ?_) fun l _ hl => ?_ <;> rw [Bool.or_eq_true] at hl
      · exact hl.elim (fits_of_isOperator (by decide)) (fits_of_isOperator (by decide))
      · exact hl.elim opens_of_isOperator opens_of_isOperator
    exact (hsigned fun _ => hthat).bind fun _ => hjoin.bind fun _ => hthat

omit h in
theorem attributes_flows : Flows Ends Ends (many (wrap .attribute (do sign "."; name))) :=
  ((flows_sign (by decide)).bind fun _ => name_flows).wrap.many

omit h in
theorem captureTarget_flows : Flows P Ends captureTarget :=
  (flows_acceptName fun l hl => by
    simp only [bindable, Bool.and_eq_true, beq_iff_eq] at hl
    exact hl.1.1).bind fun _ => flows_look fun _ => flows_check

theorem literal_flows : ReadsOperand (literal self) :=
  flows_look fun _ => flows_look fun _ => numberPattern_flows.ite <|
  flows_look fun _ => flows_look fun _ => (strings_flows h).ite constant_flows.node

theorem patternItems_flows : ReadsOperand (patternItems self) := by
  have hstar : ReadsOperand starPattern :=
    ((flows_sign (by decide)).bind fun _ => captureTarget_flows.node.orElse flows_wordEnds.node).node
  have hitem : ReadsOperand (maybeStarPattern self) := flows_look fun _ => hstar.ite h.pattern
  exact hitem.bind fun _ => flows_look fun _ => hitem.more.bind fun _ => flows_comma.bind fun _ =>
    flows_look fun _ => flows_pure

theorem parenPattern_flows : Flows P Ends (parenPattern self) := by
  have hclose {k : Kind} {Q : Known} : Flows Q Ends (do sign ")"; return k) :=
    (flows_signEnds (by decide)).bind fun _ => flows_pure
  refine Flows.nodeAs ((flows_signFree (by decide)).bind fun _ => flows_look fun _ => hclose.ite ?_)
  exact (patternItems_flows h).fromFree.bind fun _ => flows_look fun _ => flows_check.bind fun _ => hclose

theorem bracketPattern_flows : Flows P Ends (bracketPattern self) := by
  have hclose {Q : Known} : Flows Q Ends (sign "]") := flows_signEnds (by decide)
  exact ((flows_sign (by decide)).bind fun _ => flows_look fun _ =>
    ((patternItems_flows h).bind fun _ => hclose).ite hclose).node

theorem mappingItem_flows : ReadsOperand (mappingItem self) := by
  have hcolon {Q : Known} : Flows Q Ends (do sign ":"; self .pattern) :=
    (flows_sign (by decide)).bind fun _ => h.pattern
  have hdotted : ReadsOperand dottedValue :=
    name_flows.bind fun _ => (((flows_sign (by decide)).bind fun _ => name_flows).wrap).bind fun _ => attributes_flows
  exact (flows_look fun _ => (hdotted.bind fun _ => hcolon).ite ((literal_flows h).bind fun _ => hcolon)).node

theorem mappingPattern_flows : ReadsOperand (mappingPattern self) := by
  have hclose {Q : Known} : Flows Q Ends (sign "\x7d") := flows_signEnds (by decide)
  have hrest {Q : Known} : Flows Q Ends restPattern :=
    ((flows_sign (by decide)).bind fun _ => captureTarget_flows.node).node
  have hlast : Flows Ends Ends (attempt (do sign ","; restPattern)) :=
    ((flows_sign (by decide)).bind fun _ => hrest).attempt fun _ _ => id
  refine Flows.node (flows_brace.bind fun _ => hrest.attemptElse (flows_comma.bind fun _ => hclose) ?_)
  refine (mappingItem_flows h).fromFree.attemptElse ?_ hclose
  exact (mappingItem_flows h).more.bind fun _ => hlast.bind fun _ => flows_comma.bind fun _ => hclose

theorem classSuffix_flows : Flows P Ends (classSuffix self) := by
  have hclose {Q : Known} : Flows Q Ends (sign ")") := flows_signEnds (by decide)
  have hkeyword : ReadsOperand (keywordPattern self) :=
    (name_flows.bind fun _ => (flows_sign (by decide)).bind fun _ => h.pattern).node
  have hitem : ReadsOperand (classItem self) :=
    flows_look fun _ => flows_look fun _ => hkeyword.ite h.pattern
  exact (flows_sign (by decide)).bind fun _ => flows_look fun _ =>
    (hitem.commas.bind fun _ => flows_look fun _ => flows_check.bind fun _ => hclose).ite hclose

theorem namePattern_flows : ReadsOperand (namePattern self) := by
  refine captureTarget_flows.node.attemptElse flows_pure ?_
  refine flows_look fun _ => flows_wordEnds.node.ite (Flows.nodeAs ?_)
  have hname : ReadsOperand nameOrDotted := name_flows.bind fun _ => attributes_flows
  refine hname.bind fun _ => flows_look fun _ => ((classSuffix_flows h).bind fun _ => flows_pure).ite ?_
  exact flows_look fun _ => flows_look fun _ => flows_check.bind fun _ => flows_pure

theorem pattern_flows : ReadsOperand (pattern self) := by
  have hclosed : ReadsOperand (closedPattern self) :=
    flows_look fun _ => (parenPattern_flows h).ite <|
    flows_look fun _ => (bracketPattern_flows h).ite <|
    flows_look fun _ => (mappingPattern_flows h).ite <|
    flows_look fun _ => (namePattern_flows h).ite (literal_flows h).node
  have hor : ReadsOperand (orPattern self) :=
    (hclosed.bind fun _ => ((flows_sign (by decide)).bind fun _ => hclosed).many.bind fun _ =>
      flows_look fun _ => flows_pure).nodeWhen
  have has : Flows Ends Ends (attempt (wrap .asPattern (do word "as"; node .capture captureTarget))) :=
    ((flows_word (by decide)).bind fun _ => captureTarget_flows.node).wrap.attempt fun _ _ => id
  exact hor.bind fun _ => has.bind fun _ => flows_pure

theorem casePattern_flows : ReadsOperand (casePattern self) :=
  (patternItems_flows h).nodeWhen.bind fun _ => flows_look fun _ => flows_check

/-! ### Simple statements -/

theorem assignedValue_flows : ReadsOperand (assignedValue self) :=
  flows_look fun _ => (yieldExpression_flows h).ite (starExpressions_flows h)

theorem expressionLed_flows (d : Dialect) : ReadsOperand (expressionLed d self) := by
  have hequals {k : Kind} {Q : Known} : Flows Q Ends (do sign "="; assignedValue self; return k) :=
    (flows_sign (by decide)).bind fun _ => (assignedValue_flows h).bind fun _ => flows_pure
  have hmark {Q : Known} : Flows Q Ends (node .typeMark (do sign ":"; self .expression)) :=
    ((flows_sign (by decide)).bind fun _ => h.expression).node
  have hchain : Flows Opens Opens (many do
      starExpressions self
      check (isStarTarget (← latest))
      sign "=") :=
    ((starExpressions_flows h).bind fun _ => flows_look fun _ => flows_check.bind fun _ =>
      flows_sign (by decide)).many
  refine Flows.nodeAs ((starExpressions_flows h).bind fun _ => flows_look fun _ => flows_look fun _ => Flows.ite ?_ ?_)
  · exact flows_check.bind fun _ => hmark.bind fun _ => flows_look fun _ => hequals.ite flows_pure
  refine flows_look fun _ => Flows.ite ?_ ?_
  · exact flows_check.bind fun _ => (flows_sign (by decide)).bind fun _ => hchain.bind fun _ =>
      (assignedValue_flows h).bind fun _ => flows_look fun _ => flows_check.bind fun _ => flows_pure
  · refine flows_next (flows_check.bind fun _ => ?_) flows_pure
    exact (flows_seenOperator (by decide) (by decide)).bind fun _ => (assignedValue_flows h).fromFree.bind fun _ =>
      flows_pure

omit h in
theorem nameList_flows : Flows P Ends nameList :=
  name_flows.bind fun _ => ((flows_sign (by decide)).bind fun _ => name_flows).many

omit h in
theorem dottedName_flows : Flows P Ends dottedName :=
  (name_flows.bind fun _ => ((flows_sign (by decide)).bind fun _ => name_flows).many).node

omit h in
theorem newName_flows : Flows Ends Ends newName :=
  flows_look fun _ => ((flows_word (by decide)).bind fun _ => name_flows).ite flows_pure

omit h in
theorem importNames_flows : Flows P Ends importNames := by
  have hitem : ReadsOperand (node .importAlias (do name; newName)) := (name_flows.bind fun _ => newName_flows).node
  have hnames : Flows Free Ends importedNames := by
    refine flows_look fun _ => (flows_signEnds (by decide)).ite (flows_look fun _ => Flows.ite ?_ ?_)
    · exact (flows_sign (by decide)).bind fun _ => hitem.commas.bind fun _ => flows_signEnds (by decide)
    · exact hitem.fromFree.bind fun _ => ((flows_sign (by decide)).bind fun _ => hitem).many
  have hdots : Flows Free Free (many (accept fun l => l.isOperator "." || l.isOperator "...")) := by
    refine Flows.many (flows_accept (fun p l _ _ hl => ?_) fun l _ hl => ?_) <;> rw [Bool.or_eq_true] at hl
    · exact hl.elim (fits_of_isOperator (by decide)) (fits_of_isOperator (by decide))
    · exact ⟨hl.elim opens_of_isOperator opens_of_isOperator,
        hl.elim (ends_of_isOperator (by decide)) (ends_of_isOperator (by decide))⟩
  have hmodule : Flows Free Ends (attempt dottedName) := dottedName_flows.attempt fun _ _ => And.right
  exact ((flows_word (by decide)).bind fun _ => hdots.bind fun _ => flows_look fun _ => hmodule.bind fun _ =>
    flows_check.bind fun _ => (flows_word (by decide)).bind fun _ => hnames).node

theorem typeParameters_flows (d : Dialect) : Flows Ends Ends (typeParameters d self) := by
  have hdefault : Flows Ends Ends (do
      if ← atSign "=" then
        sign "="
        starExpression self) :=
    flows_look fun _ => ((flows_sign (by decide)).bind fun _ => starExpression_flows h).ite flows_pure
  have hitem : ReadsOperand (typeParameter self) := by
    refine Flows.node (flows_look fun _ => Flows.ite ?_ (flows_look fun _ => Flows.ite ?_ ?_))
    · exact (flows_sign (by decide)).bind fun _ => name_flows.bind fun _ => hdefault
    · exact (flows_sign (by decide)).bind fun _ => name_flows.bind fun _ => hdefault
    · exact name_flows.bind fun _ => flows_look fun _ =>
        ((flows_sign (by decide)).bind fun _ => h.expression.bind fun _ => hdefault).ite hdefault
  have hbrackets {Q : Known} : Flows Q Ends (node .typeParameters do
      sign "["
      let _ ← commas (typeParameter self)
      sign "]") :=
    ((flows_sign (by decide)).bind fun _ => hitem.commas.bind fun _ => flows_signEnds (by decide)).node
  exact flows_look fun _ => hbrackets.ite flows_pure

theorem typeAlias_flows (d : Dialect) : Flows P Ends (typeAlias d self) :=
  (flows_check.bind fun _ => flows_wordEnds.bind fun _ => name_flows.bind fun _ =>
    (typeParameters_flows h d).bind fun _ => (flows_sign (by decide)).bind fun _ => h.expression).node

theorem simpleStatement_flows (d : Dialect) : ReadsOperand (simpleStatement d self) := by
  have htarget : ReadsOperand (deleteTargets self) := h.bitwiseOr.tupled.bind fun _ => flows_look fun _ => flows_check
  have hword {k : Kind} {w : String} : ReadsOperand (node k (word w)) := flows_wordEnds.node
  have hreturn : ReadsOperand (node .returnStatement do
      word "return"
      let _ ← attempt (starExpressions self)) :=
    ((flows_word (by decide)).bind fun _ => (starExpressions_flows h).optional.bind fun _ => flows_pure).node
  have himport : ReadsOperand (node .importModules do
      word "import"
      let item : Rule Unit := node .importAlias (do dottedName; newName)
      item
      many (do sign ","; item)) := by
    have hitem {Q : Known} : Flows Q Ends (node .importAlias (do dottedName; newName)) :=
      (dottedName_flows.bind fun _ => newName_flows).node
    exact ((flows_word (by decide)).bind fun _ => hitem.bind fun _ =>
      ((flows_sign (by decide)).bind fun _ => hitem).many).node
  have hraise : ReadsOperand (node .raiseStatement do
      word "raise"
      if ← attempt (self .expression) then
        if ← atWord "from" then
          word "from"
          self .expression) :=
    ((flows_word (by decide)).bind fun _ => h.expression.optional.bind fun _ =>
      (flows_look fun _ => ((flows_word (by decide)).bind fun _ => h.expression.fromFree).ite flows_pure).ite
        flows_pure).node
  have hassert : ReadsOperand (node .assertStatement do
      word "assert"
      self .expression
      if ← atSign "," then
        sign ","
        self .expression) :=
    ((flows_word (by decide)).bind fun _ => h.expression.fromFree.bind fun _ => flows_look fun _ =>
      ((flows_sign (by decide)).bind fun _ => h.expression).ite flows_pure).node
  have hnames {k : Kind} {w : String} : ReadsOperand (node k (do word w; nameList)) :=
    (flows_wordEnds.bind fun _ => nameList_flows).node
  exact flows_look fun _ => hreturn.ite <|
    flows_look fun _ => himport.ite <|
    flows_look fun _ => importNames_flows.ite <|
    flows_look fun _ => hraise.ite <|
    flows_look fun _ => hword.ite <|
    flows_look fun _ => ((flows_word (by decide)).bind fun _ => htarget.fromFree).node.ite <|
    flows_look fun _ => (yieldExpression_flows h).node.ite <|
    flows_look fun _ => hassert.ite <|
    flows_look fun _ => hword.ite <|
    flows_look fun _ => hword.ite <|
    flows_look fun _ => hnames.ite <|
    flows_look fun _ => hnames.ite <| (typeAlias_flows h d).orElse (expressionLed_flows h d)

theorem simpleLine_flows (d : Dialect) : Flows Opens Opens (simpleLine d self) := by
  have hmore : Flows Ends Ends (many (do sign ";"; simpleStatement d self)) :=
    ((flows_sign (by decide)).bind fun _ => simpleStatement_flows h d).many
  exact ((simpleStatement_flows h d).bind fun _ => hmore.bind fun _ =>
    ((flows_signEnds (by decide)).attempt fun _ _ => id).bind fun _ => (flows_kind (by decide)).toOpens).node

/-! ### Compound statements -/

theorem body_flows (d : Dialect) : Flows P Opens (body d self) := by
  have hsuite : Flows Opens Opens (suite d self) :=
    (flows_look fun _ => ((flows_kind (by decide)).bind fun _ => (flows_kind (by decide)).bind fun _ =>
      h.statement.fromFree.bind fun _ => h.statement.many.bind fun _ => (flows_kind (by decide)).toOpens).ite
        (simpleLine_flows h d)).node
  exact (flows_sign (by decide)).bind fun _ => hsuite

/-- An optional `else` part. -/
theorem elseSuite_flows (d : Dialect) : Flows Opens Opens (do if ← atWord "else" then elseSuite d self) :=
  flows_look fun _ => ((flows_word (by decide)).bind fun _ => body_flows h d).node.ite flows_pure

theorem conditionalStatement_flows (d : Dialect) : Flows P Opens (conditionalStatement d self) := by
  have hmore : Flows Opens Opens (many do
      word "elif"
      namedExpression self
      body d self) :=
    ((flows_word (by decide)).bind fun _ => (namedExpression_flows h).fromFree.bind fun _ => body_flows h d).many
  exact ((flows_word (by decide)).bind fun _ => (namedExpression_flows h).fromFree.bind fun _ =>
    (body_flows h d).bind fun _ => hmore.bind fun _ => elseSuite_flows h d).node

theorem whileLoop_flows (d : Dialect) : Flows P Opens (whileLoop d self) :=
  ((flows_word (by decide)).bind fun _ => (namedExpression_flows h).fromFree.bind fun _ =>
    (body_flows h d).bind fun _ => elseSuite_flows h d).node

omit h in
/-- What starts with a word may follow `async`. -/
theorem async_flows {r : Rule Unit} {Q : Known} (hr : ∀ P, Flows P Q r) : Flows P Q (do maybeAsync; r) := by
  have hasync : Flows P (fun _ _ => True) maybeAsync :=
    flows_look fun _ => (flows_wordEnds.weaken (fun _ _ => id) fun _ _ _ => trivial).ite
      (stays_pure.flows fun _ _ _ => trivial)
  exact hasync.bind fun _ => hr _

theorem forLoop_flows (d : Dialect) : Flows P Opens (forLoop d self) :=
  (async_flows fun _ => (flows_word (by decide)).bind fun _ => (loopTargets_flows h).bind fun _ =>
    (flows_word (by decide)).bind fun _ => (starExpressions_flows h).fromFree.bind fun _ =>
      (body_flows h d).bind fun _ => elseSuite_flows h d).node

theorem withItem_flows : ReadsOperand (withItem self) := by
  have htarget : ReadsOperand (withItem.starExpressionTarget self) :=
    flows_look fun _ => ((starred_flows h).bind fun _ => flows_look fun _ => flows_check).ite
      (h.bitwiseOr.bind fun _ => flows_look fun _ => flows_check)
  have has : Flows Ends Ends (attempt do
      word "as"
      withItem.starExpressionTarget self
      check (← atSigns [",", ":", ")"])) :=
    ((flows_word (by decide)).bind fun _ => htarget.fromFree.bind fun _ => flows_look fun _ => flows_check).attempt
      fun _ _ => id
  exact (h.expression.bind fun _ => has.bind fun _ => flows_pure).node

theorem withStatement_flows (d : Dialect) : Flows P Opens (withStatement d self) := by
  have hgroup {Q : Known} : Flows Q Ends (do
      sign "("
      let _ ← commas (withItem self)
      sign ")"
      check (← atSign ":")) :=
    (flows_sign (by decide)).bind fun _ => (withItem_flows h).commas.bind fun _ =>
      (flows_signEnds (by decide)).bind fun _ => flows_look fun _ => flows_check
  refine Flows.node (async_flows fun _ => (flows_word (by decide)).bind fun _ => ?_)
  refine hgroup.attemptElse (body_flows h d) ?_
  exact (withItem_flows h).fromFree.bind fun _ => (withItem_flows h).more.bind fun _ => body_flows h d

theorem caught_flows (d : Dialect) : ReadsOperand (caught d self) :=
  h.expression.bind fun _ => flows_look fun _ =>
    (h.expression.more.bind fun _ => flows_comma.bind fun _ => flows_pure).ite newName_flows

theorem handler_flows (d : Dialect) : Flows P Opens (handler d self) :=
  ((flows_word (by decide)).bind fun _ => flows_look fun _ =>
    ((caught_flows h d).fromFree.bind fun _ => body_flows h d).ite (body_flows h d)).node

theorem starHandler_flows (d : Dialect) : Flows P Opens (starHandler d self) :=
  ((flows_word (by decide)).bind fun _ => (flows_sign (by decide)).bind fun _ => (caught_flows h d).bind fun _ =>
    body_flows h d).node

theorem tryStatement_flows (d : Dialect) : Flows P Opens (tryStatement d self) := by
  have hhandlers : Flows Opens Opens (attempt do
      if ← afterNext fun l => l.isOperator "*" then
        starHandler d self
        many (starHandler d self)
      else
        handler d self
        many (handler d self)) :=
    (flows_look fun _ => ((starHandler_flows h d).bind fun _ => (starHandler_flows h d).many).ite
      ((handler_flows h d).bind fun _ => (handler_flows h d).many)).attempt fun _ _ => id
  have hfinally : Flows Opens Opens (attempt (node .finallySuite (do word "finally"; body d self))) :=
    ((flows_word (by decide)).bind fun _ => body_flows h d).node.attempt fun _ _ => id
  have hend {handled : Bool} : Flows Opens Opens (do
      let final ← attempt (node .finallySuite (do word "finally"; body d self))
      check (handled || final)) := hfinally.bind fun _ => flows_check
  refine Flows.node ((flows_word (by decide)).bind fun _ => (body_flows h d).bind fun _ =>
    hhandlers.bind fun _ => Flows.ite ?_ hend)
  exact flows_look fun _ => (((flows_word (by decide)).bind fun _ => body_flows h d).node.bind fun _ => hend).ite hend

theorem functionDefinition_flows (d : Dialect) : Flows P Opens (functionDefinition d self) := by
  have htype (star : Bool) : Flows Ends Ends (parameterType self star) :=
    flows_look fun _ => ((flows_sign (by decide)).bind fun _ => (starExpression_flows h).ite h.expression).node.ite
      flows_pure
  have hresult {Q : Known} : Flows Q Opens (do
      sign ")"
      if ← atSign "->" then
        node .typeMark do
          sign "->"
          self .expression
      body d self) :=
    (flows_sign (by decide)).bind fun _ => flows_look fun _ =>
      (((flows_sign (by decide)).bind fun _ => h.expression).node.bind fun _ => body_flows h d).ite (body_flows h d)
  refine Flows.node (async_flows fun _ => (flows_word (by decide)).bind fun _ => name_flows.bind fun _ => ?_)
  exact (typeParameters_flows h d).bind fun _ => (flows_sign (by decide)).bind fun _ => flows_look fun _ =>
    ((parameters_flows h htype).bind fun _ => hresult).ite hresult

theorem classDefinition_flows (d : Dialect) : Flows P Opens (classDefinition d self) := by
  refine Flows.node ((flows_word (by decide)).bind fun _ => name_flows.bind fun _ =>
    (typeParameters_flows h d).bind fun _ => flows_look fun _ => Flows.ite ?_ (body_flows h d))
  exact (callSuffix_flows h).bind fun _ => flows_look fun _ => flows_check.bind fun _ => body_flows h d

theorem decorated_flows (d : Dialect) : Flows P Opens (decorated d self) := by
  have hdecorator {Q : Known} : Flows Q Opens (node .decorator do
      sign "@"
      namedExpression self
      kind .newline) :=
    ((flows_sign (by decide)).bind fun _ => (namedExpression_flows h).bind fun _ =>
      (flows_kind (by decide)).toOpens).node
  exact (hdecorator.bind fun _ => hdecorator.many.bind fun _ => flows_look fun _ =>
    (classDefinition_flows h d).ite (functionDefinition_flows h d)).node

theorem matchStatement_flows (d : Dialect) : Flows P Opens (matchStatement d self) := by
  have hheader {Q : Known} : Flows Q Opens (matchHeader self) :=
    (flows_word (by decide)).bind fun _ => (starNamedExpression_flows h).tupled.fromFree.bind fun _ =>
      flows_look fun _ => flows_check.bind fun _ => (flows_sign (by decide)).bind fun _ =>
        (flows_kind (by decide)).bind fun _ => (flows_kind (by decide)).toOpens
  have hguard {Q : Known} : Flows Q Ends (node .guard (do word "if"; namedExpression self)) :=
    ((flows_word (by decide)).bind fun _ => (namedExpression_flows h).fromFree).node
  have hclause : Flows Opens Opens (caseClause d self) :=
    ((flows_word (by decide)).bind fun _ => (casePattern_flows h).fromFree.bind fun _ => flows_look fun _ =>
      (hguard.bind fun _ => body_flows h d).ite (body_flows h d)).node
  exact (hheader.bind fun _ => hclause.bind fun _ => hclause.many.bind fun _ =>
    (flows_kind (by decide)).toOpens).node

theorem statement_flows (d : Dialect) : Flows Opens Opens (statement d self) :=
  flows_look fun _ => (decorated_flows h d).ite <|
  flows_look fun _ => (conditionalStatement_flows h d).ite <|
  flows_look fun _ => (whileLoop_flows h d).ite <|
  flows_look fun _ => (forLoop_flows h d).ite <|
  flows_look fun _ => (tryStatement_flows h d).ite <|
  flows_look fun _ => (withStatement_flows h d).ite <|
  flows_look fun _ => (functionDefinition_flows h d).ite <|
  flows_look fun _ => (classDefinition_flows h d).ite <|
  flows_look fun _ => (flows_look fun _ => (functionDefinition_flows h d).ite <|
    flows_look fun _ => (forLoop_flows h d).ite (withStatement_flows h d)).ite <|
  flows_look fun _ => ((matchStatement_flows h d).orElse (simpleLine_flows h d)).ite (simpleLine_flows h d)

end Rules

/-! ### Whole modules -/

/-- What holds of the rules at one depth holds at the next. -/
theorem rule_smooth (d : Dialect) (depth : Nat) : Smooth (rule d depth) := by
  induction depth with
  | zero =>
    exact ⟨flows_failure, flows_failure, flows_failure, flows_failure, flows_failure, flows_failure,
      flows_failure, flows_failure⟩
  | succ depth ih =>
    exact ⟨expression_flows ih, disjunction_flows ih, inversion_flows ih, bitwiseOr_flows ih, factor_flows ih,
      pattern_flows ih, replacementField_flows ih, statement_flows ih d⟩

/-- Neighbours in a module that the grammar describes fit, up to the end of the text. -/
theorem module?_fitting {d : Dialect} {text : String} {m : Tree} (h : module? d text = some m) :
    ∃ ms stop rest, Lexer.lexemes? d text = some (ms ++ stop :: rest) ∧ stop.kind = .stop ∧ Fitting (ms ++ [stop]) := by
  simp only [module?, read?, Option.bind_eq_bind, Option.bind_eq_some_iff] at h
  obtain ⟨_, ⟨ls, hls, ⟨_, c⟩, hrun, -⟩, -⟩ := h
  have hsmooth := rule_smooth d (ls.length + 1)
  have hstop : Flows Opens (fun p _ => p.kind = .stop) (kind .stop) :=
    flows_accept (fun p l _ _ hl => fits_of_kind (by simp_all)) fun l _ hl => by simpa using hl
  have hmodule : Flows Opens (fun p _ => p.kind = .stop)
      (node .module (do many (rule d (ls.length + 1) .statement); kind .stop)) :=
    (hsmooth.statement.many.bind fun _ => hstop).node
  obtain ⟨ms, stop, hms, hpath, hkind⟩ := hmodule hrun ⟨.newline, "", [], 0, 0⟩ rfl
  rcases hpath.last with ⟨-, rfl⟩ | ⟨ms, rfl⟩
  · cases hkind
  · refine ⟨ms, stop, c.rest, ?_, hkind, hpath.fitting⟩
    rw [hls, List.append_cons]
    exact congrArg some hms

end DoBlocks.Host.Grammar
