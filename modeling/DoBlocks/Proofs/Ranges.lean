import DoBlocks.Proofs.Accepted
import DoBlocks.Proofs.HostReading
import DoBlocks.Proofs.Layout

/-!
# What is kept of the tokens of a text

Every token between the braces of a block is punctuation of the block language or belongs to the range of
one host fragment, and what is stored for a fragment prints the lexemes that the host reads in its range,
in order and with nothing left out.
-/

namespace DoBlocks

open BlockReader
open Host (Surface SpelledUpTo EndsStatement surfaceOf gapOf)
open Host.Lexer (isPlain Trivia Written Spells)

/-! ### Where a range begins -/

namespace Lexer

variable {c : Char} {rest : List Char}

theorem stringLength_eq_none (hmark : isStringMark c = false) (hsingle : c ≠ '\x27') (hdouble : c ≠ '\x22') :
    stringLength (c :: rest) = none := by
  cases rest with
  | nil => rfl
  | cons d rest => simp [stringLength, hmark, quotedLength, hsingle, hdouble]

theorem numberLength_eq_none (hdecimal : Text.isDecimal c = false) (hzero : c ≠ '0') (hpoint : c ≠ '.') :
    numberLength (c :: rest) = none := by
  have hmarked : markedLength (c :: rest) = none := by
    unfold markedLength
    split
    · rename_i heq
      exact absurd (List.cons.inj heq).1 hzero
    · rfl
  simp [numberLength, hmarked, decimalLength, mantissaLength, hdecimal, hpoint]

theorem operatorLength_eq_none (hc : ∀ o ∈ operators, o ≠ [] ∧ o.head? ≠ some c) :
    operatorLength (c :: rest) = none := by
  rw [operatorLength, Option.map_eq_none_iff, List.find?_eq_none]
  intro o ho hprefix
  obtain ⟨hne, hhead⟩ := hc o ho
  obtain ⟨more, hmore⟩ := List.isPrefixOf_iff_prefix.1 hprefix
  obtain ⟨d, o, rfl⟩ := List.exists_cons_of_ne_nil hne
  obtain ⟨rfl, -⟩ := List.cons.inj hmore
  exact hhead rfl

/-- Characters that are not plain begin only trivia and line ends. -/
theorem isTrivia_of_not_isPlain {kind : TokenKind} {n : Nat} (hc : isPlain c = false)
    (h : lexeme? (c :: rest) = some (kind, n)) :
    kind.isTrivia = true ∨ kind = .newline := by
  have hcases : c ∈ [' ', '\t', '\x0c', '#', '\\', '\n', '\r'] := by
    simp only [isPlain, Host.Lexer.isInlineBlank, Bool.not_eq_false', Bool.or_eq_true, beq_iff_eq] at hc
    simpa [or_assoc] using hc
  have hclass : ∀ c ∈ [' ', '\t', '\x0c', '#', '\\', '\n', '\r'], Text.isNameStart c = false ∧
      Text.isDecimal c = false ∧ isStringMark c = false ∧
      (∀ o ∈ operators, o ≠ [] ∧ o.head? ≠ some c) ∧ c ∉ ['\x27', '\x22', '0', '.', '='] ∧
      "()\x7b\x7d[],;:".toList.contains c = false := Text.forall_mem_of_all (by decide)
  obtain ⟨hname, hdecimal, hmark, hoperator, hsigns, hsymbol⟩ := hclass c hcases
  simp only [List.mem_cons, List.not_mem_nil, or_false, not_or] at hsigns
  obtain ⟨hsingle, hdouble, hzero, hpoint, hequals⟩ := hsigns
  have harrow : arrowLength (c :: rest) = none := by
    unfold arrowLength
    split
    · rename_i heq
      exact absurd (List.cons.inj heq).1 hequals
    · rfl
  have hnone : nameLength (c :: rest) = none ∧ symbolLength (c :: rest) = none :=
    ⟨by simp [nameLength, hname], by rw [symbolLength, hsymbol]; rfl⟩
  obtain ⟨cl, hcl, hkind⟩ := List.exists_of_findSome?_eq_some h
  obtain ⟨m, hm, heq⟩ := Option.map_eq_some_iff.1 hkind
  cases heq
  simp only [classes, List.mem_cons, List.not_mem_nil, or_false] at hcl
  rcases hcl with rfl | rfl | rfl | rfl | rfl | rfl | rfl | rfl | rfl | rfl
  · exact .inl rfl
  · cases (stringLength_eq_none hmark hsingle hdouble).symm.trans hm
  · cases (numberLength_eq_none hdecimal hzero hpoint).symm.trans hm
  · cases (hnone.1).symm.trans hm
  · cases (harrow).symm.trans hm
  · cases (operatorLength_eq_none hoperator).symm.trans hm
  · cases (hnone.2).symm.trans hm
  · exact .inl rfl
  · exact .inr rfl
  · exact .inl rfl

end Lexer

/-- A significant token other than a line end begins with a plain character. -/
theorem SpacedToken.Genuine.exists_plain {t : SpacedToken} (h : t.Genuine) (hkind : t.kind ≠ .newline) :
    ∃ c cs, t.text.toList = c :: cs ∧ isPlain c = true := by
  obtain ⟨htrivia, cs, n, hlex, htext⟩ := h
  cases cs with
  | nil => cases hlex
  | cons c rest =>
    refine ⟨c, rest.take n, htext, ?_⟩
    cases hc : isPlain c with
    | true => rfl
    | false =>
      rcases Lexer.isTrivia_of_not_isPlain hc hlex with hk | hk
      · rw [htrivia] at hk
        cases hk
      · exact absurd hk hkind

/-! ### The text of a range -/

/-- The call that shows an escape with its number. -/
def escapeCall (operand : List Char) (n : Nat) : List Char :=
  escapeCallee.toList ++ '(' :: operand ++ ", ".toList ++ (toString n).toList ++ [')']

/-- The text of tokens that come after the token `before`: each token in order with the gap before it,
the first one without if it is not `spaced`, and each prefix `^` with its operand as a call. -/
inductive Shown : Option Token → Bool → List SpacedToken → List Char → Prop
  | nil {before : Option Token} {spaced : Bool} : Shown before spaced [] []
  | token {before : Option Token} {spaced : Bool} {t : SpacedToken} {ts : List SpacedToken}
      {cs : List Char} :
    (t.isOperator "^" && Fragment.expectsOperand before) = false →
    Shown (if t.kind == .newline then before else some t.toToken) true ts cs →
    Shown before spaced (t :: ts) ((if spaced then t.gap.toList else []) ++ t.text.toList ++ cs)
  | escape {before : Option Token} {spaced : Bool} {marker : SpacedToken} {operand ts : List SpacedToken}
      {cs ds : List Char} {n : Nat} :
    marker.isOperator "^" = true → Fragment.expectsOperand before = true →
    Shown none false operand cs → Shown (operand.getLast?.map SpacedToken.toToken) true ts ds →
    Shown before spaced (marker :: operand ++ ts)
      ((if spaced then marker.gap.toList else []) ++ escapeCall cs n ++ ds)

/-- The host text of a fragment shows its tokens. -/
theorem shown_textFrom (before : Option Token) (spaced : Bool) (index : Nat) (ts : List SpacedToken) :
    Shown before spaced ts (Fragment.textFrom spaced index (Fragment.items before ts)).toList := by
  fun_induction Fragment.items before ts generalizing spaced index with
  | case1 => exact .nil
  | case2 before t rest hmarker operand ihoperand ihrest =>
    rw [Bool.and_eq_true] at hmarker
    have htokens : t :: operand ++ rest.drop operand.length = t :: rest :=
      congrArg (t :: ·) (List.prefix_iff_eq_append.1 (List.take_prefix _ rest))
    have hgap : (if spaced then t.gap else "").toList = if spaced then t.gap.toList else [] := by
      split <;> rfl
    have htext (more : String) :
        (Fragment.itemText spaced index (.escape t (Fragment.items none operand)) ++ more).toList =
          (if spaced then t.gap.toList else []) ++
            escapeCall (Fragment.textFrom false (index + 1) (Fragment.items none operand)).toList index ++
            more.toList := by
      have hnumber : s!", {index})" = ", " ++ toString index ++ ")" := rfl
      rw [String.toList_append, Fragment.itemText, hnumber]
      simp only [String.toList_append, hgap, escapeCall]
      simp
    rw [Fragment.textFrom, htext, ← htokens]
    exact .escape hmarker.1 hmarker.2 (ihoperand false (index + 1)) (ihrest true _)
  | case3 before t rest hmarker ih =>
    rw [Fragment.textFrom, Fragment.itemText, String.toList_append, String.toList_append]
    have hgap : (if spaced then t.gap else "").toList = if spaced then t.gap.toList else [] := by
      split <;> rfl
    rw [hgap]
    exact .token (by simpa using hmarker) (ih true _)

/-- The text of a range begins with a plain character. -/
theorem Shown.exists_plain {before : Option Token} {ts : List SpacedToken} {cs : List Char}
    (h : Shown before false ts cs) (hts : Passed ts) (hne : cs ≠ []) :
    ∃ c rest, cs = c :: rest ∧ isPlain c = true := by
  cases h with
  | nil => exact absurd rfl hne
  | @token _ _ t ts cs _ _ =>
    obtain ⟨c, rest, htext, hc⟩ := (hts.genuine t (by simp)).exists_plain (hts.first t rfl)
    exact ⟨c, rest ++ cs, by simp [htext], hc⟩
  | escape => exact ⟨'_', _, rfl, rfl⟩

theorem textOf_exists_plain {ts : List SpacedToken} (hts : Passed ts) (hne : ts ≠ []) :
    ∃ c rest, (SpacedToken.textOf ts).toList = c :: rest ∧ isPlain c = true := by
  obtain ⟨t, more, rfl⟩ := List.exists_cons_of_ne_nil hne
  obtain ⟨c, rest, htext, hc⟩ := (hts.genuine t (by simp)).exists_plain (hts.first t rfl)
  exact ⟨c, _, by rw [SpacedToken.textOf, String.toList_append, htext, List.cons_append], hc⟩

/-! ### What is kept of a range -/

/-- What is printed for the surface is the lexemes that the text begins with, each gap between them
relined; after them and a gap comes `lost`. -/
def PrintsUpTo (s : Surface) (cs lost : List Char) : Prop :=
  ∃ ls, s = surfaceOf ls ∧ SpelledUpTo ls cs lost

/-- The targets of an assignment print the text before `lost`, up to the gap of a value that `lost` and
the `None` after it hold. -/
def AssignsUpTo (targets : List Target) (cs lost : List Char) : Prop :=
  ∃ us vs text value gap after, targets.flatMap Target.surface = surfaceOf us ++ gapOf vs ∧
    cs = text ++ lost ∧ Written us text ∧ vs ≠ [] ∧ Spells vs value ∧
    lost ++ " None".toList = value ++ gap ++ after ∧ Trivia gap ∧ EndsStatement after

/-- What is stored for a fragment, and what its range is read as. All of an expression is kept. A
statement is kept up to a semicolon at its end, a pattern up to a guard or a colon, the target of a loop
up to the word `in`, and the targets of an assignment up to its value. -/
def hostFragments : Fragments where
  expr e ts := ∃ cs, Shown none false ts cs ∧ PrintsUpTo e.surface cs []
  pattern p ts := ∃ lost, PrintsUpTo p.text (SpacedToken.textOf ts).toList lost ∧
    (lost = [] ∨ "if".toList <+: lost ∨ ":".toList <+: lost)
  simple s ts := (∃ cs lost, Shown none false ts cs ∧ PrintsUpTo s.surface cs lost ∧ EndsStatement lost) ∧
    (s.form = .expression → s.lead = [])
  tail e ts := ∃ cs lost, Shown none false ts cs ∧ PrintsUpTo e.surface cs lost ∧ EndsStatement lost
  target s ts := ∃ lost, PrintsUpTo s ((SpacedToken.textOf ts).toList ++ [' ']) lost ∧
    (lost = [] ∨ "in".toList <+: lost)
  sink s ts := s.exitFlag = none ∧
    match s.destination with
    | .discard => ts = []
    | .return => ∃ t, ts = [t] ∧ t.isName "return" = true
    | .assign targets => ∃ lost, AssignsUpTo targets (SpacedToken.textOf ts).toList lost

section Readers

variable {st st' : State}
variable {r : Range} {t : Host.Tree}

theorem hostText_yields {ts : List SpacedToken} {text : String} (h : Yields (hostText ts) st text st') :
    Shown none false ts text.toList := by
  rw [hostText, Yields.get_bind_iff] at h
  dsimp only at h
  split at h
  · obtain ⟨_, _, -, hf⟩ := Yields.bind_iff.1 h
    exact absurd hf Yields.not_throw
  · obtain ⟨_, _, -, hp⟩ := Yields.bind_iff.1 h
    obtain ⟨rfl, -⟩ := Yields.pure_iff.1 hp
    exact shown_textFrom none false _ ts

theorem hostTree_yields {r : Except Host.Refusal Host.Tree} {fault : ParseFault} {span : Span}
    (h : Yields (hostTree r fault span) st t st') : r = .ok t := by
  unfold hostTree at h
  split at h
  · obtain ⟨rfl, -⟩ := Yields.pure_iff.1 h
    rfl
  · exact absurd h Yields.not_throw
  · exact absurd h Yields.not_throw

theorem hostExpression_kept {role : FragmentRole} {escapes : Bool} {e : Expr} (hts : Scanned r.tokens)
    (h : Yields (hostExpression r role escapes) st e st') :
    hostFragments.expr e r.tokens := by
  obtain ⟨text, s₁, htext, hy⟩ := Yields.bind_iff.1 h
  obtain ⟨t, s₂, htree, hy⟩ := Yields.bind_iff.1 hy
  have hshown := hostText_yields htext
  have hread := hostTree_yields htree
  have he : e = t.toExpr := by
    split at hy <;>
    · obtain ⟨_, s₃, -, hp⟩ := Yields.bind_iff.1 hy
      exact (Yields.pure_iff.1 hp).1
  subst he
  obtain ⟨c, rest, hcs, hc⟩ := hshown.exists_plain hts.toPassed (Host.toList_ne_nil_of_readExpression hread)
  obtain ⟨hfull, hspelled⟩ := Host.readExpression_spelled hread hcs hc
  exact ⟨_, hshown, t.lexemes, Host.Tree.toExpr_surface hfull, hspelled⟩

theorem hostPattern_kept {p : Pattern} (hts : Scanned r.tokens) (hne : r.tokens ≠ [])
    (h : Yields (hostPattern r) st p st') : hostFragments.pattern p r.tokens := by
  obtain ⟨t, s₁, htree, hy⟩ := Yields.bind_iff.1 h
  have hread := hostTree_yields htree
  obtain ⟨c, rest, hcs, hc⟩ := textOf_exists_plain hts.toPassed hne
  split at hy
  · rename_i clause more hclause
    obtain ⟨rfl, -⟩ := Yields.pure_iff.1 hy
    obtain ⟨pattern, lost, hhead, -, hspelled, hlost⟩ := Host.readStatement_case hread hclause hcs hc
    rw [hhead]
    exact ⟨lost, ⟨pattern.lexemes, rfl, hspelled⟩, hlost⟩
  · exact absurd hy Yields.not_throw

theorem valueLast_form (form : SimpleForm) (ts : List Host.Tree) :
    (Host.Tree.valueLast form ts).form = form := by
  unfold Host.Tree.valueLast
  split <;> rfl

/-- An expression that is a statement has nothing before it. -/
theorem toSimple_lead (h : Host.Grammar.IsSimple t) (hform : t.toSimple.form = .expression) : t.toSimple.lead = [] := by
  obtain ⟨k, ts, rfl, -, -, hvalue⟩ := h
  by_cases hk : k = .expressionStatement
  · subst hk
    obtain ⟨v, rfl⟩ := hvalue rfl
    rfl
  · -- all other statements have forms of their own
    unfold Host.Tree.toSimple at hform
    split at hform
    · rename_i heq
      cases heq
      exact absurd rfl hk
    · rw [valueLast_form] at hform
      cases hform
    · split at hform
      · rw [valueLast_form] at hform
        cases hform
      · cases hform
    · split at hform
      · cases hform
      · rw [valueLast_form] at hform
        cases hform
    · cases hform
    · cases hform
    · cases hform
    · cases hform

theorem hostSimple_kept {s : Simple} (hts : Scanned r.tokens) (h : Yields (hostSimple r) st s st') :
    hostFragments.simple s r.tokens := by
  obtain ⟨text, s₁, htext, hy⟩ := Yields.bind_iff.1 h
  obtain ⟨tree, s₂, htree, hy⟩ := Yields.bind_iff.1 hy
  have hshown := hostText_yields htext
  have hread := hostTree_yields htree
  split at hy
  · rename_i t hone
    obtain ⟨_, s₃, -, hp⟩ := Yields.bind_iff.1 hy
    obtain ⟨rfl, -⟩ := Yields.pure_iff.1 hp
    obtain ⟨c, rest, hcs, hc⟩ := hshown.exists_plain hts.toPassed (Host.toList_ne_nil_of_readStatement hread)
    obtain ⟨hfull, hsimple, lost, hspelled, hends⟩ := Host.readStatement_spelled hread hone hcs hc
    exact ⟨⟨_, lost, hshown, ⟨t.lexemes, Host.Tree.toSimple_surface hfull, hspelled⟩, hends⟩,
      toSimple_lead hsimple⟩
  · exact absurd hy Yields.not_throw

theorem hostTarget_kept {s : Surface} (hts : Scanned r.tokens) (hne : r.tokens ≠ [])
    (h : Yields (hostTarget r) st s st') : hostFragments.target s r.tokens := by
  obtain ⟨t, s₁, htree, hy⟩ := Yields.bind_iff.1 h
  have hread := hostTree_yields htree
  obtain ⟨c, rest, hcs, hc⟩ := textOf_exists_plain hts.toPassed hne
  obtain ⟨target, more, lost, hparts, -, hspelled, hlost⟩ := Host.readStatement_loop hread hcs hc
  simp only [hparts] at hy
  obtain ⟨rfl, -⟩ := Yields.pure_iff.1 hy
  exact ⟨lost, ⟨target.lexemes, rfl, hspelled⟩, hlost⟩

theorem sinkBefore_kept {keyword : String} {before : List SpacedToken} {block : Token} {s : Sink}
    (hts : Passed before) (h : Yields (sinkBefore keyword before block) st s st') :
    hostFragments.sink s before := by
  cases before with
  | nil =>
    obtain ⟨rfl, -⟩ := Yields.pure_iff.1 h
    exact ⟨rfl, rfl⟩
  | cons first more =>
    obtain ⟨final, hlast⟩ : ∃ final, (first :: more).getLast? = some final :=
      ⟨_, List.getLast?_eq_some_getLast (List.cons_ne_nil first more)⟩
    unfold sinkBefore at h
    simp only [hlast] at h
    split at h
    · rename_i hreturn
      obtain ⟨rfl, -⟩ := Yields.pure_iff.1 h
      simp only [Bool.and_eq_true, beq_iff_eq, List.length_cons, Nat.add_eq_right,
        List.length_eq_zero_iff] at hreturn
      obtain ⟨rfl, hword⟩ := hreturn
      exact ⟨rfl, first, rfl, hword⟩
    split at h
    · split at h
      · rename_i tree hread
        split at h
        · rename_i t hone
          split at h
          · rename_i hassign
            obtain ⟨rfl, -⟩ := Yields.pure_iff.1 h
            obtain ⟨c, rest, hcs, hc⟩ := textOf_exists_plain hts (List.cons_ne_nil first more)
            obtain ⟨us, vs, text, lost, value, gap, after, hsurface, htext, hrest⟩ :=
              Host.readStatement_targets hread hone hassign hcs hc
            exact ⟨rfl, lost, us, vs, text, value, gap, after, hsurface, htext, hrest⟩
          · exact absurd h Yields.not_throw
        · exact absurd h Yields.not_throw
      · exact absurd h Yields.not_throw
      · exact absurd h Yields.not_throw
    · exact absurd h Yields.not_throw

end Readers

/-- What is read for a fragment is what the host reads in its range. -/
theorem hostFragments_read : hostFragments.Read where
  expr := hostExpression_kept
  pattern := hostPattern_kept
  simple := hostSimple_kept
  tail := by
    rintro s e ts ⟨⟨cs, lost, hshown, hprints, hends⟩, hlead⟩ hform hvalue
    refine ⟨cs, lost, hshown, ?_, hends⟩
    have hsurface : s.surface = e.surface := by simp [Simple.surface, hlead hform, hvalue]
    rwa [hsurface] at hprints
  target := hostTarget_kept
  sink := sinkBefore_kept

/-- A match inside a loop, and a block that is assigned. -/
def matchInLoop : String :=
  "\x7b for a in p \x7b let [x] match a else 0 if c => ^x\n y = do \x7b x \x7d \x7d\n w \x7d"

end DoBlocks
