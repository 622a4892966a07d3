import DoBlocks.Proofs.Layout
import DoBlocks.Site

/-!
# Brackets of a block

The reader finds the extent of a fragment with a stack of open brackets, looks ahead for a block by counting
them, and passes a site that it cannot read by counting braces alone. All three agree on a block that was
read: its tokens are a properly nested word of brackets that match in kind, from the opening brace to the
brace that closes it, so counting braces ends there too.

The one run of tokens that no stack has checked is the prefix of a nested block: the host decides whether it
is an assignment.
-/

namespace DoBlocks

open BlockReader

variable {t : Token} {ts before all : List SpacedToken} {s : Sink} {keyword : String}

/-! ### Nested words -/

/-- The brackets among the tokens are properly nested and match in kind. -/
inductive Nested : List SpacedToken → Prop
  | nil : Nested []
  | plain {t : SpacedToken} {ts : List SpacedToken} :
    t.isOpener = false → t.isCloser = false → Nested ts → Nested (t :: ts)
  | wrap {o c : SpacedToken} {inner ts : List SpacedToken} :
    o.isOpener = true → c.isCloser = true → Token.closerOf o.text = c.text → Nested inner → Nested ts →
    Nested (o :: inner ++ c :: ts)

theorem isCloser_eq_false_of_isOpener (h : t.isOpener = true) : t.isCloser = false := by
  simp only [Token.isOpener, Bool.and_eq_true, Bool.or_eq_true, beq_iff_eq] at h
  obtain ⟨hkind, (htext | htext) | htext⟩ := h <;> simp [Token.isCloser, hkind, htext]

theorem isOpener_of_isSymbol (h : t.isSymbol "\x7b" = true) : t.isOpener = true := by
  simp only [Token.isSymbol, Token.isOpener, Bool.and_eq_true, Bool.or_eq_true] at h ⊢
  exact ⟨h.1, .inr h.2⟩

namespace Nested

variable {ts us : List SpacedToken}

theorem append (h : Nested ts) (h' : Nested us) : Nested (ts ++ us) := by
  induction h with
  | nil => exact h'
  | plain hopen hclose _ ih => exact .plain hopen hclose ih
  | @wrap o c inner ts hopen hclose hmatch hinner _ _ ih =>
    have hsplit : o :: inner ++ c :: ts ++ us = o :: inner ++ c :: (ts ++ us) := by simp
    rw [hsplit]
    exact .wrap hopen hclose hmatch hinner ih

theorem singleton {t : SpacedToken} (hopen : t.isOpener = false) (hclose : t.isCloser = false) : Nested [t] :=
  .plain hopen hclose .nil

/-- No closing bracket comes first. -/
theorem head {t : SpacedToken} (h : Nested (t :: ts)) : t.isCloser = false := by
  cases h with
  | plain _ hclose _ => exact hclose
  | wrap hopen _ _ _ _ => exact isCloser_eq_false_of_isOpener hopen

/-- The first closing bracket with no opening one before it is determined. -/
theorem eq_of_append {inner inner' xs ys : List SpacedToken} {c c' : SpacedToken} (h : Nested inner)
    (h' : Nested inner') (hc : c.isCloser = true) (hc' : c'.isCloser = true)
    (heq : inner ++ c :: xs = inner' ++ c' :: ys) : inner = inner' := by
  induction h generalizing inner' c c' xs ys with
  | nil =>
    cases inner' with
    | nil => rfl
    | cons t ts =>
      obtain ⟨rfl, -⟩ := List.cons.inj heq
      exact absurd hc (by simp [h'.head])
  | @plain t ts hopen hclose hts ih =>
    cases h' with
    | nil =>
      obtain ⟨rfl, -⟩ := List.cons.inj heq
      exact absurd hc' (by simp [hclose])
    | plain _ _ hts' =>
      obtain ⟨rfl, htail⟩ := List.cons.inj heq
      rw [ih hts' hc hc' htail]
    | wrap hopen' _ _ _ _ =>
      obtain ⟨rfl, -⟩ := List.cons.inj heq
      exact absurd hopen' (by simp [hopen])
  | @wrap o d inner ts hopen hclose hmatch hinner hts ih ih' =>
    cases h' with
    | nil =>
      obtain ⟨rfl, -⟩ := List.cons.inj heq
      exact absurd hc' (by simp [isCloser_eq_false_of_isOpener hopen])
    | plain hopen' _ _ =>
      obtain ⟨rfl, -⟩ := List.cons.inj heq
      exact absurd hopen (by simp [hopen'])
    | @wrap o' d' inner' ts' hopen' hclose' hmatch' hinner' hts' =>
      simp only [List.cons_append, List.append_assoc, List.cons.injEq] at heq
      obtain ⟨rfl, heq⟩ := heq
      obtain rfl := ih hinner' hclose hclose' heq
      obtain ⟨rfl, htail⟩ := List.cons.inj (List.append_cancel_left heq)
      rw [ih' hts' hc hc' htail]

/-- A bracket closes at the end of the word that it opens, and at no earlier token. -/
theorem eq_of_wrap {o c : SpacedToken} {inner us vs : List SpacedToken} (hopen : o.isOpener = true)
    (hclose : c.isCloser = true) (hinner : Nested inner) (h : Nested us) (hne : us ≠ [])
    (heq : o :: inner ++ [c] = us ++ vs) : vs = [] := by
  cases h with
  | nil => exact absurd rfl hne
  | plain hopen' _ _ =>
    obtain ⟨rfl, -⟩ := List.cons.inj heq
    exact absurd hopen (by simp [hopen'])
  | @wrap o' c' inner' ts' hopen' hclose' _ hinner' _ =>
    simp only [List.cons_append, List.append_assoc, List.cons.injEq] at heq
    obtain ⟨rfl, heq⟩ := heq
    obtain rfl := hinner.eq_of_append hinner' hclose hclose' heq
    have htail := (List.cons.inj (List.append_cancel_left heq)).2
    exact (List.append_eq_nil_iff.1 htail.symm).2

end Nested

/-! ### Counting braces -/

namespace Site

variable {t : SpacedToken} {depth : Nat} {rest : List SpacedToken}

theorem throughBraces_open (h : t.isSymbol "\x7b" = true) :
    throughBraces depth (t :: rest) = t :: throughBraces (depth + 1) rest := by
  rw [throughBraces, if_pos h]

theorem throughBraces_close (h : t.isSymbol "\x7d" = true) :
    throughBraces (depth + 2) (t :: rest) = t :: throughBraces (depth + 1) rest := by
  have hopen : t.isSymbol "\x7b" = false := by
    simp only [Token.isSymbol, Bool.and_eq_true, beq_iff_eq] at h
    simp [Token.isSymbol, h.2]
  rw [throughBraces, hopen, if_neg Bool.false_ne_true, if_pos h, if_neg (by omega)]
  rfl

theorem throughBraces_last (h : t.isSymbol "\x7d" = true) : throughBraces 1 (t :: rest) = [t] := by
  have hopen : t.isSymbol "\x7b" = false := by
    simp only [Token.isSymbol, Bool.and_eq_true, beq_iff_eq] at h
    simp [Token.isSymbol, h.2]
  rw [throughBraces, hopen, if_neg Bool.false_ne_true, if_pos h, if_pos (by omega)]

theorem throughBraces_other (hopen : t.isSymbol "\x7b" = false) (hclose : t.isSymbol "\x7d" = false) :
    throughBraces depth (t :: rest) = t :: throughBraces depth rest := by
  rw [throughBraces, hopen, hclose, if_neg Bool.false_ne_true, if_neg Bool.false_ne_true]

end Site

theorem isSymbol_eq_false_of_not_opener (h : t.isOpener = false) : t.isSymbol "\x7b" = false := by
  simp only [Token.isOpener, Token.isSymbol, Bool.and_eq_false_iff, Bool.or_eq_false_iff] at h ⊢
  exact h.imp_right fun h => h.2

theorem isSymbol_eq_false_of_not_closer (h : t.isCloser = false) : t.isSymbol "\x7d" = false := by
  simp only [Token.isCloser, Token.isSymbol, Bool.and_eq_false_iff, Bool.or_eq_false_iff] at h ⊢
  exact h.imp_right fun h => h.2

/-- Braces match braces, and the other brackets each other. -/
theorem isSymbol_iff_of_closerOf {o c : Token} (hopen : o.isOpener = true) (hclose : c.isCloser = true)
    (hmatch : Token.closerOf o.text = c.text) : c.isSymbol "\x7d" = o.isSymbol "\x7b" := by
  simp only [Token.isOpener, Token.isCloser, Bool.and_eq_true, Bool.or_eq_true, beq_iff_eq] at hopen hclose
  obtain ⟨hkind, (htext | htext) | htext⟩ := hopen <;>
  · rw [htext] at hmatch
    simp [Token.isSymbol, hkind, hclose.1, htext, ← hmatch, Token.closerOf]

/-- Counting braces passes a nested word inside a block. -/
theorem Nested.throughBraces_append (h : Nested ts) (depth : Nat) (rest : List SpacedToken) :
    Site.throughBraces (depth + 1) (ts ++ rest) = ts ++ Site.throughBraces (depth + 1) rest := by
  induction h generalizing depth rest with
  | nil => rfl
  | plain hopen hclose _ ih =>
    rw [List.cons_append, Site.throughBraces_other (isSymbol_eq_false_of_not_opener hopen)
      (isSymbol_eq_false_of_not_closer hclose), ih, List.cons_append]
  | @wrap o c inner ts hopen hclose hmatch _ _ ih ih' =>
    have hassoc (us : List SpacedToken) : o :: inner ++ c :: ts ++ us = o :: (inner ++ c :: (ts ++ us)) := by simp
    have hkind := isSymbol_iff_of_closerOf hopen hclose hmatch
    have hcopen : c.isSymbol "\x7b" = false := by
      refine isSymbol_eq_false_of_not_opener (Bool.eq_false_iff.2 fun ho => ?_)
      rw [isCloser_eq_false_of_isOpener ho] at hclose
      cases hclose
    rw [hassoc, hassoc]
    cases hbrace : o.isSymbol "\x7b" with
    | true => rw [Site.throughBraces_open hbrace, ih, Site.throughBraces_close (hkind.trans hbrace), ih']
    | false =>
      rw [Site.throughBraces_other hbrace (isSymbol_eq_false_of_not_closer (isCloser_eq_false_of_isOpener hopen)),
        ih, Site.throughBraces_other hcopen (hkind.trans hbrace), ih']

/-! ### Fragments -/

/-- The tokens close the brackets `openers`, the latest first, and are nested otherwise. -/
inductive Closes : List SpacedToken → List SpacedToken → Prop
  | nil {ts : List SpacedToken} : Nested ts → Closes [] ts
  | cons {o c : SpacedToken} {openers inner ts : List SpacedToken} : Nested inner → c.isCloser = true →
    Token.closerOf o.text = c.text → Closes openers ts → Closes (o :: openers) (inner ++ c :: ts)

namespace Closes

variable {openers ts : List SpacedToken} {t : SpacedToken}

theorem plain (hopen : t.isOpener = false) (hclose : t.isCloser = false) (h : Closes openers ts) :
    Closes openers (t :: ts) := by
  cases h with
  | nil hts => exact .nil (.plain hopen hclose hts)
  | cons hinner hc hmatch hts => exact .cons (.plain hopen hclose hinner) hc hmatch hts

theorem push (hopen : t.isOpener = true) (h : Closes (t :: openers) ts) : Closes openers (t :: ts) := by
  cases h with
  | @cons _ c _ inner ts hinner hc hmatch hts =>
    cases hts with
    | nil hts => exact .nil (.wrap hopen hc hmatch hinner hts)
    | @cons o c' openers inner' ts' hinner' hc' hmatch' hts' =>
      have hsplit : t :: (inner ++ c :: (inner' ++ c' :: ts')) = (t :: inner ++ c :: inner') ++ c' :: ts' := by simp
      rw [hsplit]
      exact .cons (.wrap hopen hc hmatch hinner hinner') hc' hmatch' hts'

end Closes

namespace BlockReader

/-- The extent of a fragment closes the brackets that are open before it. -/
theorem extent_closes {keyword : String} {stop : Token → Bool} {openers rest ts : List SpacedToken}
    {before : Option SpacedToken} (h : extent keyword stop openers before rest = .ok ts) : Closes openers ts := by
  induction rest generalizing openers before ts with
  | nil =>
    unfold extent at h
    split at h
    · cases h
    · cases h
      exact .nil .nil
  | cons t rest ih =>
    rcases extent_cons h with ⟨rfl, -, rfl⟩ | ⟨-, openers', ts', hb, rfl, hx⟩
    · exact .nil .nil
    · cases hb with
      | opens hopen => exact (ih hx).push hopen
      | closes _ hclose hmatch => exact .cons .nil hclose hmatch (ih hx)
      | keeps hopen hclose => exact (ih hx).plain hopen hclose

theorem Scanned.nested {ts : List SpacedToken} (h : Scanned ts) : Nested ts := by
  obtain ⟨keyword, stop, rest, hx⟩ := h.found
  cases extent_closes hx with
  | nil hts => exact hts

end BlockReader

/-! ### Prefixes of nested blocks -/

/-- The host takes the tokens and a value for an assignment. -/
def isAssignmentPrefix (ts : List SpacedToken) : Bool :=
  match Host.readStatement (SpacedToken.textOf ts ++ " None") with
  | .ok tree => (onlySimple? tree).any fun t => t.is .assign
  | .error _ => false

/-- Before a block stands nothing, `return`, or what the host takes for the targets of an assignment. -/
inductive SinkPrefix : List SpacedToken → Prop
  | discard : SinkPrefix []
  | returning {t : SpacedToken} : t.isName "return" = true → SinkPrefix [t]
  | assign {ts : List SpacedToken} : isAssignmentPrefix ts = true → SinkPrefix ts

/-- What stands before a block names its sink. -/
inductive SinkNamed : List SpacedToken → Sink → Prop
  | discard : SinkNamed [] .discard
  | returning {t : SpacedToken} : t.isName "return" = true → SinkNamed [t] .returning
  | assign {ts : List SpacedToken} {tree t : Host.Tree} :
    Host.readStatement (SpacedToken.textOf ts ++ " None") = .ok tree → onlySimple? tree = some t →
    t.is .assign = true → SinkNamed ts (.assign (targetsOf t.children))

theorem SinkNamed.sinkPrefix (h : SinkNamed before s) : SinkPrefix before := by
  cases h with
  | discard => exact .discard
  | returning hword => exact .returning hword
  | assign hread hone hassign =>
    exact .assign (by simp only [isAssignmentPrefix, hread, hone, Option.any_some, hassign])

theorem sinkBefore_named {block : Token} {st st' : State} (h : Yields (sinkBefore keyword before block) st s st') :
    SinkNamed before s := by
  cases before with
  | nil =>
    obtain ⟨rfl, -⟩ := Yields.pure_iff.1 h
    exact .discard
  | cons first more =>
    obtain ⟨final, hlast⟩ : ∃ final, (first :: more).getLast? = some final :=
      ⟨_, List.getLast?_eq_some_getLast (List.cons_ne_nil first more)⟩
    unfold sinkBefore at h
    simp only [hlast] at h
    split at h
    · rename_i hreturn
      simp only [Bool.and_eq_true, beq_iff_eq, List.length_cons, Nat.add_eq_right, List.length_eq_zero_iff] at hreturn
      obtain ⟨rfl, hword⟩ := hreturn
      obtain ⟨rfl, -⟩ := Yields.pure_iff.1 h
      exact .returning hword
    split at h
    · split at h
      · rename_i tree hread
        split at h
        · rename_i t hone
          split at h
          · rename_i hassign
            obtain ⟨rfl, -⟩ := Yields.pure_iff.1 h
            exact .assign hread hone hassign
          · exact absurd h Yields.not_throw
        · exact absurd h Yields.not_throw
      · exact absurd h Yields.not_throw
      · exact absurd h Yields.not_throw
    · exact absurd h Yields.not_throw

/-- What stands before a block and the host takes for an assignment satisfies `P`. -/
def AssignmentPrefixes (keyword : String) (P : List SpacedToken → Prop) (all : List SpacedToken) : Prop :=
  ∀ earlier before rest, all = earlier ++ before ++ rest → startsBlock keyword rest = true →
    isAssignmentPrefix before = true → P before

/-- Where the host takes the tokens before a block for an assignment, their brackets are nested. -/
def PrefixesNested (keyword : String) (all : List SpacedToken) : Prop := AssignmentPrefixes keyword Nested all

/-- Ranges are nested; a sink stands for what the host takes for one. -/
def nestedFragments : Fragments :=
  ⟨fun _ => Nested, fun _ => Nested, fun _ => Nested, fun _ => Nested, fun _ => Nested, fun _ => SinkPrefix⟩

theorem nestedFragments_read : nestedFragments.Read where
  expr hts _ := hts.nested
  pattern hts _ _ := hts.nested
  simple hts _ := hts.nested
  tail h _ _ := h
  target hts _ _ := hts.nested
  sink _ h := (sinkBefore_named h).sinkPrefix

/-! ### Blocks -/

theorem nested_of_isName {t : SpacedToken} {word : String} (h : t.isName word = true) : Nested [t] := by
  simp only [Token.isName, Bool.and_eq_true, beq_iff_eq] at h
  exact .singleton (by simp [Token.isOpener, h.1]) (by simp [Token.isCloser, h.1])

theorem nested_of_comma {t : SpacedToken} (h : t.isSymbol "," = true) : Nested [t] := by
  simp only [Token.isSymbol, Bool.and_eq_true, beq_iff_eq] at h
  exact .singleton (by simp [Token.isOpener, h.2]) (by simp [Token.isCloser, h.2])

theorem nested_of_arrow {t : SpacedToken} (h : (t.kind == .arrow) = true) : Nested [t] := by
  rw [beq_iff_eq] at h
  exact .singleton (by simp [Token.isOpener, h]) (by simp [Token.isCloser, h])

theorem nested_of_braces {opener closer : SpacedToken} (hopen : opener.isSymbol "\x7b" = true)
    (hclose : closer.isSymbol "\x7d" = true) (h : Nested ts) : Nested (opener :: ts ++ [closer]) := by
  refine .wrap (isOpener_of_isSymbol hopen) (isCloser_of_isSymbol hclose) ?_ h .nil
  simp only [Token.isSymbol, Bool.and_eq_true, beq_iff_eq] at hopen hclose
  rw [hopen.2, hclose.2]
  rfl

theorem nested_of_onlySeparators (h : OnlySeparators ts) : Nested ts := by
  induction ts with
  | nil => exact .nil
  | cons t ts ih =>
    obtain ⟨ht, hts⟩ := List.forall_mem_cons.1 h
    simp only [Token.isSymbol, Bool.or_eq_true, Bool.and_eq_true, beq_iff_eq] at ht
    refine .plain ?_ ?_ (ih hts)
    · rcases ht with hkind | ⟨-, htext⟩
      · simp [Token.isOpener, hkind]
      · simp [Token.isOpener, htext]
    · rcases ht with hkind | ⟨-, htext⟩
      · simp [Token.isCloser, hkind]
      · simp [Token.isCloser, htext]

theorem nested_of_onlyNewlines (h : OnlyNewlines ts) : Nested ts :=
  nested_of_onlySeparators fun t ht => by simp [h t ht]

theorem EscapeLayout.nested {e : Escape} {ts : List SpacedToken} (h : EscapeLayout nestedFragments e ts) :
    Nested ts := by
  cases h with
  | mk hmarker hts =>
    simp only [Token.isOperator, Bool.and_eq_true, beq_iff_eq] at hmarker
    exact .plain (by simp [Token.isOpener, hmarker.1]) (by simp [Token.isCloser, hmarker.1]) hts

theorem ArmPatternLayout.nested {p : Pattern} {ts : List SpacedToken} (h : ArmPatternLayout nestedFragments p ts) :
    Nested ts := by
  cases h with
  | none => exact .nil
  | some hts => exact hts

theorem GuardLayout.nested {g : Option Expr} {ts : List SpacedToken} (h : GuardLayout nestedFragments g ts) :
    Nested ts := by
  cases h with
  | none => exact .nil
  | some hword hts => exact (nested_of_isName hword).append hts

theorem startsBlock_of_layout {F : Fragments} {word : SpacedToken} {b : Block} (hword : word.isName keyword = true)
    (h : BlockLayout keyword F b ts) (more : List SpacedToken) :
    startsBlock keyword (word :: ts ++ more) = true := by
  cases h with
  | mk hopen _ _ => simp [startsBlock, hword, hopen]

/-- If the tokens stand among the tokens `all`, they are nested. -/
def NestedIn (all ts : List SpacedToken) : Prop := ts <:+: all → Nested ts

namespace NestedIn

variable {all ts us : List SpacedToken} {t : SpacedToken}

theorem of (h : Nested ts) : NestedIn all ts := fun _ => h

theorem append (h : NestedIn all ts) (h' : NestedIn all us) : NestedIn all (ts ++ us) := by
  intro hin
  exact (h ((List.prefix_append ts us).isInfix.trans hin)).append (h' ((List.suffix_append ts us).isInfix.trans hin))

theorem cons (ht : Nested [t]) (h : NestedIn all ts) : NestedIn all (t :: ts) := (of ht).append h

end NestedIn

section Blocks

variable {keyword : String} {all : List SpacedToken}

/-- A block with what stands before it. -/
theorem SinkPrefix.nestedIn (hall : PrefixesNested keyword all) {before ts : List SpacedToken} {word : SpacedToken}
    {b : Block} (h : SinkPrefix before) (hword : word.isName keyword = true)
    (hb : BlockLayout keyword nestedFragments b ts) (hts : NestedIn all ts) : NestedIn all (before ++ word :: ts) := by
  intro hin
  refine NestedIn.append (fun _ => ?_) (.cons (nested_of_isName hword) hts) hin
  cases h with
  | discard => exact .nil
  | returning hreturn => exact nested_of_isName hreturn
  | assign hassign =>
    obtain ⟨earlier, more, hsplit⟩ := hin
    refine hall earlier before (word :: ts ++ more) ?_ (startsBlock_of_layout hword hb more) hassign
    rw [← hsplit]
    simp

mutual

theorem BlockLayout.nestedIn (hall : PrefixesNested keyword all) : ∀ {b : Block} {ts : List SpacedToken},
    BlockLayout keyword nestedFragments b ts → NestedIn all ts
  | _, _, @BlockLayout.mk _ _ opener closer _ _ ts _ _ hopen hbody hclose => by
    intro hin
    exact nested_of_braces hopen hclose (hbody.nestedIn hall (List.IsInfix.trans ⟨[opener], [closer], rfl⟩ hin))

theorem BodyLayout.nestedIn (hall : PrefixesNested keyword all) :
    ∀ {ss : List Statement} {tail : Option Tail} {ts : List SpacedToken},
    BodyLayout keyword nestedFragments ss tail ts → NestedIn all ts
  | _, _, _, .nil hgap => .of (nested_of_onlySeparators hgap)
  | _, _, _, .tail hgap ht hafter =>
    ((NestedIn.of (nested_of_onlySeparators hgap)).append (ht.nestedIn hall)).append
      (.of (nested_of_onlySeparators hafter))
  | _, _, _, .cons hgap hs hmore =>
    ((NestedIn.of (nested_of_onlySeparators hgap)).append (hs.nestedIn hall)).append (hmore.nestedIn hall)

theorem TailLayout.nestedIn (hall : PrefixesNested keyword all) : ∀ {t : Tail} {ts : List SpacedToken},
    TailLayout keyword nestedFragments t ts → NestedIn all ts
  | _, _, .value hts => .of hts
  | _, _, .escape he => .of he.nested
  | _, _, .conditional hc => hc.nestedIn hall
  | _, _, .block hsink _ hword hb => SinkPrefix.nestedIn hall hsink hword hb (hb.nestedIn hall)

theorem StatementLayout.nestedIn (hall : PrefixesNested keyword all) : ∀ {s : Statement} {ts : List SpacedToken},
    StatementLayout keyword nestedFragments s ts → NestedIn all ts
  | _, _, .simple hts => .of hts
  | _, _, .escape he => .of he.nested
  | _, _, .letMatch hword hp hmatch he harms =>
    ((NestedIn.cons (nested_of_isName hword) (.of hp)).append (.cons (nested_of_isName hmatch) (.of he))).append
      (harms.nestedIn hall)
  | _, _, .conditional hc => hc.nestedIn hall
  | _, _, .whileLoop hword he hb => (NestedIn.cons (nested_of_isName hword) (.of he)).append (hb.nestedIn hall)
  | _, _, .forLoop hword hx hin he hb =>
    ((NestedIn.cons (nested_of_isName hword) (.of hx)).append (.cons (nested_of_isName hin) (.of he))).append
      (hb.nestedIn hall)
  | _, _, .nested hsink hword hb => SinkPrefix.nestedIn hall hsink hword hb (hb.nestedIn hall)

theorem FallbackLayout.nestedIn (hall : PrefixesNested keyword all) : ∀ {as : List Arm} {ts : List SpacedToken},
    FallbackLayout keyword nestedFragments as ts → NestedIn all ts
  | _, _, .none => .of .nil
  | _, _, .arms hword hgap ha hmore =>
    ((NestedIn.cons (nested_of_isName hword) (.of (nested_of_onlyNewlines hgap))).append
      (ha.nestedIn hall)).append (hmore.nestedIn hall)
  | _, _, .shorthand hword hgap hb =>
    (NestedIn.cons (nested_of_isName hword) (.of (nested_of_onlyNewlines hgap))).append (hb.nestedIn hall)

theorem MoreArmsLayout.nestedIn (hall : PrefixesNested keyword all) : ∀ {as : List Arm} {ts : List SpacedToken},
    MoreArmsLayout keyword nestedFragments as ts → NestedIn all ts
  | _, _, .nil => .of .nil
  | _, _, .cons hcomma hgap ha hmore =>
    ((NestedIn.cons (nested_of_comma hcomma) (.of (nested_of_onlyNewlines hgap))).append
      (ha.nestedIn hall)).append (hmore.nestedIn hall)

theorem ArmLayout.nestedIn (hall : PrefixesNested keyword all) : ∀ {a : Arm} {ts : List SpacedToken},
    ArmLayout keyword nestedFragments a ts → NestedIn all ts
  | _, _, .mk hp hg harrow hgap hb =>
    ((NestedIn.of (hp.nested.append hg.nested)).append
      (.cons (nested_of_arrow harrow) (.of (nested_of_onlyNewlines hgap)))).append (hb.nestedIn hall)

theorem ArmBodyLayout.nestedIn (hall : PrefixesNested keyword all) : ∀ {b : Block} {ts : List SpacedToken},
    ArmBodyLayout keyword nestedFragments b ts → NestedIn all ts
  | _, _, .block hb => hb.nestedIn hall
  | _, _, .escape he => .of he.nested
  | _, _, .simple hts => .of hts
  | _, _, .value hts => .of hts

theorem ConditionalLayout.nestedIn (hall : PrefixesNested keyword all) : ∀ {c : Conditional} {ts : List SpacedToken},
    ConditionalLayout keyword nestedFragments c ts → NestedIn all ts
  | _, _, .mk hword he hb hmore =>
    ((NestedIn.cons (nested_of_isName hword) (.of he)).append (hb.nestedIn hall)).append (hmore.nestedIn hall)

theorem MoreBranchesLayout.nestedIn (hall : PrefixesNested keyword all) :
    ∀ {bs : List Branch} {orelse : Option Block} {ts : List SpacedToken},
    MoreBranchesLayout keyword nestedFragments bs orelse ts → NestedIn all ts
  | _, _, _, .none => .of .nil
  | _, _, _, .elif hgap hword he hb hmore =>
    (((NestedIn.of (nested_of_onlyNewlines hgap)).append (.cons (nested_of_isName hword) (.of he))).append
      (hb.nestedIn hall)).append (hmore.nestedIn hall)
  | _, _, _, .elseIf hgap hword hif he hb hmore =>
    (((NestedIn.of (nested_of_onlyNewlines hgap)).append
      (.cons (nested_of_isName hword) (.cons (nested_of_isName hif) (.of he)))).append
        (hb.nestedIn hall)).append (hmore.nestedIn hall)
  | _, _, _, .orelse hgap hword hb =>
    (NestedIn.of (nested_of_onlyNewlines hgap)).append (.cons (nested_of_isName hword) (hb.nestedIn hall))

end

/-- The tokens of a block: a nested word between two braces. Counting braces from the first one on takes exactly
these tokens. -/
theorem BlockLayout.braces (hall : PrefixesNested keyword all) {b : Block} {ts : List SpacedToken}
    (h : BlockLayout keyword nestedFragments b ts) (hin : ts <:+: all) :
    ∃ opener inner closer, ts = opener :: inner ++ [closer] ∧ opener.isSymbol "\x7b" = true ∧
      closer.isSymbol "\x7d" = true ∧ Nested inner ∧ ∀ rest, Site.throughBraces 0 (ts ++ rest) = ts := by
  cases h with
  | @mk opener closer _ _ ts _ _ hopen hbody hclose =>
    have hinner := hbody.nestedIn hall (List.IsInfix.trans ⟨[opener], [closer], rfl⟩ hin)
    refine ⟨opener, ts, closer, rfl, hopen, hclose, hinner, fun rest => ?_⟩
    have hsplit : opener :: ts ++ [closer] ++ rest = opener :: (ts ++ closer :: rest) := by simp
    rw [hsplit, Site.throughBraces_open hopen, hinner.throughBraces_append, Site.throughBraces_last hclose]
    rfl

end Blocks

/-! ### Checking nestedness -/

/-- The tokens close the brackets `openers` and are nested otherwise. -/
def closesAll (openers : List SpacedToken) : List SpacedToken → Bool
  | [] => openers.isEmpty
  | t :: rest =>
    if t.isOpener then closesAll (t :: openers) rest
    else if t.isCloser then
      match openers with
      | o :: outer => Token.closerOf o.text == t.text && closesAll outer rest
      | [] => false
    else closesAll openers rest

theorem closes_of_closesAll {openers : List SpacedToken} (h : closesAll openers ts = true) : Closes openers ts := by
  induction ts generalizing openers with
  | nil =>
    obtain rfl := List.isEmpty_iff.1 h
    exact .nil .nil
  | cons t ts ih =>
    unfold closesAll at h
    split at h
    · rename_i hopen
      exact (ih h).push hopen
    · rename_i hopen
      split at h
      · rename_i hclose
        cases openers with
        | nil => cases h
        | cons o outer =>
          simp only [Bool.and_eq_true, beq_iff_eq] at h
          exact .cons .nil hclose h.1 (ih h.2)
      · rename_i hclose
        exact (ih h).plain (Bool.eq_false_iff.2 hopen) (Bool.eq_false_iff.2 hclose)

/-- Every run of tokens before a block passes the test, or the host does not take it for an assignment. -/
def assignmentPrefixes (keyword : String) (test : List SpacedToken → Bool) (all : List SpacedToken) : Bool :=
  (List.range (all.length + 1)).all fun j => !startsBlock keyword (all.drop j) ||
    (List.range (j + 1)).all fun i => test ((all.take j).drop i) || !isAssignmentPrefix ((all.take j).drop i)

theorem assignmentPrefixes_spec {test : List SpacedToken → Bool} (h : assignmentPrefixes keyword test all = true) :
    AssignmentPrefixes keyword (fun before => test before = true) all := by
  intro earlier before rest hsplit hstarts hassign
  subst hsplit
  have hj := List.all_eq_true.1 h (earlier ++ before).length (List.mem_range.2 (by simp only [List.length_append]; omega))
  rw [List.drop_left, hstarts, List.take_left] at hj
  simp only [Bool.not_true, Bool.false_or] at hj
  have hi := List.all_eq_true.1 hj earlier.length (List.mem_range.2 (by simp only [List.length_append]; omega))
  rwa [List.drop_left, hassign, Bool.not_true, Bool.or_false] at hi

theorem prefixesNested_of_assignmentPrefixes (h : assignmentPrefixes keyword (closesAll []) all = true) :
    PrefixesNested keyword all := by
  intro earlier before rest hsplit hstarts hassign
  cases closes_of_closesAll (assignmentPrefixes_spec h earlier before rest hsplit hstarts hassign) with
  | nil hts => exact hts

/-! ### Reading a block at a token -/

/-- The tokens of the block that is read at a token are a nested word between two braces, no shorter word from
that token on is nested, and a site that cannot be read there would go on at the same token. Where a prefix of a
nested block is an assignment for the host, it is taken to be nested itself. -/
theorem Block.parseAt_nested {keyword text : String} {s : Script} {index next : Nat} {boundary : Bool} {b : Block}
    (hs : Script.ofText text = .ok s) (hall : PrefixesNested keyword s.tokens)
    (h : Block.parseAt keyword text index boundary = .ok (b, next)) :
    ∃ opener inner closer, (s.tokens.drop index).take (next - index) = opener :: inner ++ [closer] ∧
      opener.isSymbol "\x7b" = true ∧ closer.isSymbol "\x7d" = true ∧ Nested (opener :: inner ++ [closer]) ∧
      (∀ word later, opener :: inner ++ [closer] = word ++ later → word ≠ [] → Nested word → later = []) ∧
      next = index + (Site.throughBraces 0 (s.tokens.drop index)).length := by
  rw [parseAt, hs] at h
  dsimp only at h
  split at h
  · rename_i b' st' hrun
    cases h
    obtain ⟨ts, hm, hlayout⟩ := nextBlock_moved nestedFragments_read boundary (sound_start hs index) hrun
    have hrest : s.tokens.drop index = ts ++ st'.rest := hm.rest
    have hin : ts <:+: s.tokens := by
      refine List.IsInfix.trans ?_ (List.drop_suffix index s.tokens).isInfix
      rw [hrest]
      exact (List.prefix_append ts st'.rest).isInfix
    obtain ⟨opener, inner, closer, hts, hopen, hclose, hinner, hbraces⟩ := hlayout.braces hall hin
    have hlength : s.tokens.length - st'.rest.length = index + ts.length := by
      have hdrop := congrArg List.length hrest
      rw [List.length_drop, List.length_append] at hdrop
      have hpos : 0 < ts.length := by simp [hts]
      omega
    refine ⟨opener, inner, closer, ?_, hopen, hclose, nested_of_braces hopen hclose hinner, ?_, ?_⟩
    · rw [hlength, Nat.add_sub_cancel_left, hrest, List.take_left, hts]
    · intro word later heq hne hword
      exact hinner.eq_of_wrap (isOpener_of_isSymbol hopen) (isCloser_of_isSymbol hclose) hword hne heq
    · rw [hlength, hrest, hbraces]
  · cases h

/-- A block in a module: its body has brackets of all kinds, and a nested block with a target in brackets. -/
theorem Block.parseAt_nested_brackets :
    ∃ s b, Script.ofText "x = do \x7b a[(1)] = do \x7b f(\x7b2: 3\x7d) \x7d\n [y] \x7d\nz" = .ok s ∧
      PrefixesNested "do" s.tokens ∧
      Block.parseAt "do" "x = do \x7b a[(1)] = do \x7b f(\x7b2: 3\x7d) \x7d\n [y] \x7d\nz" 3 true = .ok (b, 27) ∧
      ∃ opener inner closer, (s.tokens.drop 3).take 24 = opener :: inner ++ [closer] ∧
        Nested (opener :: inner ++ [closer]) ∧ 27 = 3 + (Site.throughBraces 0 (s.tokens.drop 3)).length := by
  have hscript : (Script.ofText "x = do \x7b a[(1)] = do \x7b f(\x7b2: 3\x7d) \x7d\n [y] \x7d\nz").toOption.map
      (fun s => assignmentPrefixes "do" (closesAll []) s.tokens) = some true := by decide +kernel
  have hblock : (Block.parseAt "do" "x = do \x7b a[(1)] = do \x7b f(\x7b2: 3\x7d) \x7d\n [y] \x7d\nz" 3
      true).toOption.map Prod.snd = some 27 := by decide +kernel
  cases hs : Script.ofText "x = do \x7b a[(1)] = do \x7b f(\x7b2: 3\x7d) \x7d\n [y] \x7d\nz" with
  | error e =>
    rw [hs] at hscript
    cases hscript
  | ok s =>
    rw [hs] at hscript
    cases hb : Block.parseAt "do" "x = do \x7b a[(1)] = do \x7b f(\x7b2: 3\x7d) \x7d\n [y] \x7d\nz" 3 true with
    | error e =>
      rw [hb] at hblock
      cases hblock
    | ok found =>
      rw [hb] at hblock
      obtain ⟨b, next⟩ := found
      cases hblock
      have hall : PrefixesNested "do" s.tokens := prefixesNested_of_assignmentPrefixes (Option.some.inj hscript)
      obtain ⟨opener, inner, closer, htokens, -, -, hnested, -, hskip⟩ := Block.parseAt_nested hs hall hb
      exact ⟨s, b, rfl, hall, rfl, opener, inner, closer, htokens, hnested, hskip⟩

end DoBlocks
