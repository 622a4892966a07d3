import DoBlocks.Proofs.ReaderSteps

/-!
# How the tokens of a block are laid out

`BlockLayout b ts` says which tokens a block was read from: every token of `ts` is either punctuation of
the block language or belongs to the range of one host fragment, in the order in which the parts of the
block stand. What ties a fragment to its range is given by `Fragments`. The reader moves past exactly
the tokens of the block it reads.
-/

namespace DoBlocks

open BlockReader

/-- How the host fragments of a block relate to the tokens of their ranges. -/
structure Fragments where
  expr : Expr → List SpacedToken → Prop
  pattern : Pattern → List SpacedToken → Prop
  simple : Simple → List SpacedToken → Prop
  tail : Expr → List SpacedToken → Prop
  target : Host.Surface → List SpacedToken → Prop
  sink : Sink → List SpacedToken → Prop

/-- All tokens are line ends. -/
def OnlyNewlines (ts : List SpacedToken) : Prop := ∀ t ∈ ts, (t.kind == .newline) = true

/-- All tokens are line ends or semicolons. -/
def OnlySeparators (ts : List SpacedToken) : Prop :=
  ∀ t ∈ ts, (t.kind == .newline || t.isSymbol ";") = true

section Layouts

variable (keyword : String) (F : Fragments)

/-- `^` and a value. -/
inductive EscapeLayout : Escape → List SpacedToken → Prop
  | mk {marker : SpacedToken} {e : Escape} {ts : List SpacedToken} :
    marker.isOperator "^" = true → F.expr e.value ts → EscapeLayout e (marker :: ts)

/-- The pattern of an arm may be left out. -/
inductive ArmPatternLayout : Pattern → List SpacedToken → Prop
  | none : ArmPatternLayout .wildcard []
  | some {p : Pattern} {ts : List SpacedToken} : F.pattern p ts → ArmPatternLayout p ts

/-- `if` and a guard, or nothing. -/
inductive GuardLayout : Option Expr → List SpacedToken → Prop
  | none : GuardLayout none []
  | some {word : SpacedToken} {e : Expr} {ts : List SpacedToken} :
    word.isName "if" = true → F.expr e ts → GuardLayout (some e) (word :: ts)

mutual

/-- Statements and a tail between braces. -/
inductive BlockLayout : Block → List SpacedToken → Prop
  | mk {opener closer : SpacedToken} {ss : List Statement} {tail : Option Tail} {ts : List SpacedToken}
      {span : Span} {boundary : Bool} :
    opener.isSymbol "\x7b" = true → BodyLayout ss tail ts → closer.isSymbol "\x7d" = true →
    BlockLayout (.mk ss tail span boundary) (opener :: ts ++ [closer])

/-- Statements and perhaps a tail after them, with line ends and semicolons around each. -/
inductive BodyLayout : List Statement → Option Tail → List SpacedToken → Prop
  | nil {gap : List SpacedToken} : OnlySeparators gap → BodyLayout [] none gap
  | tail {gap ts after : List SpacedToken} {t : Tail} :
    OnlySeparators gap → TailLayout t ts → OnlySeparators after →
    BodyLayout [] (some t) (gap ++ ts ++ after)
  | cons {gap ts more : List SpacedToken} {s : Statement} {ss : List Statement} {tail : Option Tail} :
    OnlySeparators gap → StatementLayout s ts → BodyLayout ss tail more →
    BodyLayout (s :: ss) tail (gap ++ ts ++ more)

inductive TailLayout : Tail → List SpacedToken → Prop
  | value {e : Expr} {ts : List SpacedToken} : F.tail e ts → TailLayout (.value e) ts
  | escape {e : Escape} {ts : List SpacedToken} : EscapeLayout F e ts → TailLayout (.escape e) ts
  | conditional {c : Conditional} {ts : List SpacedToken} :
    ConditionalLayout c ts → TailLayout (.conditional c) ts
  | block {word : SpacedToken} {sink : Sink} {b : Block} {before ts : List SpacedToken} :
    F.sink sink before → sink.isDiscard = true → word.isName keyword = true → BlockLayout b ts →
    TailLayout (.block b) (before ++ word :: ts)

inductive StatementLayout : Statement → List SpacedToken → Prop
  | simple {s : Simple} {ts : List SpacedToken} {span : Span} :
    F.simple s ts → StatementLayout (.simple s span) ts
  | escape {e : Escape} {ts : List SpacedToken} :
    EscapeLayout F e ts → StatementLayout (.escape e) ts
  | letMatch {word matchWord : SpacedToken} {p : Pattern} {e : Expr} {arms : List Arm}
      {ps es rest : List SpacedToken} {span : Span} :
    word.isName "let" = true → F.pattern p ps → matchWord.isName "match" = true → F.expr e es →
    FallbackLayout arms rest →
    StatementLayout (.letMatch p e arms span) (word :: ps ++ matchWord :: es ++ rest)
  | conditional {c : Conditional} {ts : List SpacedToken} :
    ConditionalLayout c ts → StatementLayout (.conditional c) ts
  | whileLoop {word : SpacedToken} {test : Expr} {body : Block} {es ts : List SpacedToken} {span : Span} :
    word.isName "while" = true → F.expr test es → BlockLayout body ts →
    StatementLayout (.whileLoop test body span) (word :: es ++ ts)
  | forLoop {word inWord : SpacedToken} {target : Host.Surface} {iterable : Expr} {body : Block}
      {xs es ts : List SpacedToken} {span : Span} :
    word.isName "for" = true → F.target target xs → inWord.isName "in" = true →
    F.expr iterable es → BlockLayout body ts →
    StatementLayout (.forLoop target iterable body span) (word :: xs ++ inWord :: es ++ ts)
  | nested {word : SpacedToken} {sink : Sink} {b : Block} {before ts : List SpacedToken} {span : Span} :
    F.sink sink before → word.isName keyword = true → BlockLayout b ts →
    StatementLayout (.nested sink b span) (before ++ word :: ts)

/-- What comes after the value of a match: `else` with arms or with one body alone, or nothing. -/
inductive FallbackLayout : List Arm → List SpacedToken → Prop
  | none : FallbackLayout [] []
  | arms {word : SpacedToken} {gap ts more : List SpacedToken} {a : Arm} {as : List Arm} :
    word.isName "else" = true → OnlyNewlines gap → ArmLayout a ts → MoreArmsLayout as more →
    FallbackLayout (a :: as) (word :: gap ++ ts ++ more)
  | shorthand {word : SpacedToken} {gap ts : List SpacedToken} {body : Block} {span : Span} :
    word.isName "else" = true → OnlyNewlines gap → ArmBodyLayout body ts →
    FallbackLayout [.mk .wildcard none body span true] (word :: gap ++ ts)

inductive MoreArmsLayout : List Arm → List SpacedToken → Prop
  | nil : MoreArmsLayout [] []
  | cons {comma : SpacedToken} {gap ts more : List SpacedToken} {a : Arm} {as : List Arm} :
    comma.isSymbol "," = true → OnlyNewlines gap → ArmLayout a ts → MoreArmsLayout as more →
    MoreArmsLayout (a :: as) (comma :: gap ++ ts ++ more)

inductive ArmLayout : Arm → List SpacedToken → Prop
  | mk {arrow : SpacedToken} {p : Pattern} {guard : Option Expr} {body : Block}
      {ps gs gap ts : List SpacedToken} {span : Span} :
    ArmPatternLayout F p ps → GuardLayout F guard gs → (arrow.kind == .arrow) = true →
    OnlyNewlines gap → ArmBodyLayout body ts →
    ArmLayout (.mk p guard body span false) (ps ++ gs ++ arrow :: gap ++ ts)

/-- A block, or a single element that stands for one. -/
inductive ArmBodyLayout : Block → List SpacedToken → Prop
  | block {b : Block} {ts : List SpacedToken} : BlockLayout b ts → ArmBodyLayout b ts
  | escape {e : Escape} {ts : List SpacedToken} {span : Span} :
    EscapeLayout F e ts → ArmBodyLayout (.mk [] (some (.escape e)) span false) ts
  | simple {s : Simple} {ts : List SpacedToken} {span span' : Span} :
    F.simple s ts → ArmBodyLayout (.mk [.simple s span] none span' false) ts
  | value {e : Expr} {ts : List SpacedToken} {span : Span} :
    F.expr e ts → ArmBodyLayout (.mk [] (some (.value e)) span false) ts

inductive ConditionalLayout : Conditional → List SpacedToken → Prop
  | mk {word : SpacedToken} {test : Expr} {body : Block} {bs : List Branch} {orelse : Option Block}
      {es ts more : List SpacedToken} {span : Span} :
    word.isName "if" = true → F.expr test es → BlockLayout body ts →
    MoreBranchesLayout bs orelse more →
    ConditionalLayout (.mk (.mk test body :: bs) orelse span) (word :: es ++ ts ++ more)

inductive MoreBranchesLayout : List Branch → Option Block → List SpacedToken → Prop
  | none : MoreBranchesLayout [] none []
  | elif {word : SpacedToken} {test : Expr} {body : Block} {bs : List Branch} {orelse : Option Block}
      {gap es ts more : List SpacedToken} :
    OnlyNewlines gap → word.isName "elif" = true → F.expr test es → BlockLayout body ts →
    MoreBranchesLayout bs orelse more →
    MoreBranchesLayout (.mk test body :: bs) orelse (gap ++ word :: es ++ ts ++ more)
  | elseIf {word ifWord : SpacedToken} {test : Expr} {body : Block} {bs : List Branch}
      {orelse : Option Block} {gap es ts more : List SpacedToken} :
    OnlyNewlines gap → word.isName "else" = true → ifWord.isName "if" = true → F.expr test es →
    BlockLayout body ts → MoreBranchesLayout bs orelse more →
    MoreBranchesLayout (.mk test body :: bs) orelse (gap ++ word :: ifWord :: es ++ ts ++ more)
  | orelse {word : SpacedToken} {b : Block} {gap ts : List SpacedToken} :
    OnlyNewlines gap → word.isName "else" = true → BlockLayout b ts →
    MoreBranchesLayout [] (some b) (gap ++ word :: ts)

end

/-- Statements with line ends and semicolons around them. -/
inductive StatementsLayout : List Statement → List SpacedToken → Prop
  | nil {gap : List SpacedToken} : OnlySeparators gap → StatementsLayout [] gap
  | cons {gap ts more : List SpacedToken} {s : Statement} {ss : List Statement} :
    OnlySeparators gap → StatementLayout keyword F s ts → StatementsLayout ss more →
    StatementsLayout (s :: ss) (gap ++ ts ++ more)

end Layouts

/-! ### Reading -/

/-- The readers of fragments establish what is known of them. -/
structure Fragments.Read (F : Fragments) : Prop where
  expr : ∀ {r role escapes st e st'}, Scanned r.tokens →
    Yields (hostExpression r role escapes) st e st' → F.expr e r.tokens
  pattern : ∀ {r st p st'}, Scanned r.tokens → r.tokens ≠ [] → Yields (hostPattern r) st p st' →
    F.pattern p r.tokens
  simple : ∀ {r st s st'}, Scanned r.tokens → Yields (hostSimple r) st s st' → F.simple s r.tokens
  tail : ∀ {s e ts}, F.simple s ts → s.form = .expression → s.value = some e → F.tail e ts
  target : ∀ {r st s st'}, Scanned r.tokens → r.tokens ≠ [] → Yields (hostTarget r) st s st' →
    F.target s r.tokens
  sink : ∀ {keyword before block st s st'}, Passed before →
    Yields (sinkBefore keyword before block) st s st' → F.sink s before

namespace BlockReader

variable {t : Token} {s : Statement} {ts : List SpacedToken} {ss : List Statement} {role : FragmentRole}
  {escapes : Bool} {r : Range} {e : Expr} {s₁ s₂ : State} {u : SpacedToken}

/-- The step moves past tokens that are laid out as `R` says. -/
def Reads {α : Type} (m : Reader α) (R : α → List SpacedToken → Prop) : Prop :=
  ∀ ⦃st a st'⦄, Sound st → Yields m st a st' → ∃ ts, Moved st ts st' ∧ R a ts

theorem kind_ne_eof_of_isName {w : String} (h : t.isName w = true) : t.kind ≠ .eof := by
  simp only [Token.isName, Bool.and_eq_true, beq_iff_eq] at h
  simp [h.1]

theorem kind_ne_eof_of_isSymbol {s : String} (h : t.isSymbol s = true) :
    t.kind ≠ .eof := by
  simp only [Token.isSymbol, Bool.and_eq_true, beq_iff_eq] at h
  simp [h.1]

theorem kind_ne_eof_of_isOperator {s : String} (h : t.isOperator s = true) :
    t.kind ≠ .eof := by
  simp only [Token.isOperator, Bool.and_eq_true, beq_iff_eq] at h
  simp [h.1]

variable {keyword : String} {F : Fragments} {block : Bool → Reader Block} {st st' : State}

section Words

variable {t : Token}

theorem consume_name {w : String} (h : Yields consume st t st') (hs : Sound st)
    (hw : st.next.isName w = true) : ∃ u : SpacedToken, u.isName w = true ∧ Moved st [u] st' := by
  obtain ⟨rfl, u, hu, hm⟩ := h.consume_moved hs (kind_ne_eof_of_isName hw)
  exact ⟨u, hu ▸ hw, hm⟩

theorem consume_symbol {s : String} (h : Yields consume st t st') (hs : Sound st)
    (hw : st.next.isSymbol s = true) : ∃ u : SpacedToken, u.isSymbol s = true ∧ Moved st [u] st' := by
  obtain ⟨rfl, u, hu, hm⟩ := h.consume_moved hs (kind_ne_eof_of_isSymbol hw)
  exact ⟨u, hu ▸ hw, hm⟩

theorem skipNewlines_moved {u : Unit} (h : Yields skipNewlines st u st') :
    ∃ ts, Moved st ts st' ∧ OnlyNewlines ts := h.skipWhile_moved

theorem skipSeparators_moved {u : Unit} (h : Yields skipSeparators st u st') :
    ∃ ts, Moved st ts st' ∧ OnlySeparators ts := h.skipWhile_moved

end Words

variable (hF : F.Read)
include hF

/-- The last statement becomes the tail. -/
theorem tail_of_tailOf? {t : Tail} (hs : StatementLayout keyword F s ts) (ht : tailOf? s = some t) :
    TailLayout keyword F t ts := by
  cases hs with
  | @simple s _ _ hs =>
    simp only [tailOf?] at ht
    split at ht
    · rename_i hform hvalue
      cases ht
      exact .value (hF.tail hs hform hvalue)
    · cases ht
  | escape hs =>
    cases ht
    exact .escape hs
  | conditional hs =>
    cases ht
    exact .conditional hs
  | nested hsink hword hb =>
    simp only [tailOf?] at ht
    split at ht
    · rename_i hdiscard
      cases ht
      exact .block hsink hdiscard hword hb
    · cases ht
  | letMatch => cases ht
  | whileLoop => cases ht
  | forLoop => cases ht

theorem splitTail_layout (h : StatementsLayout keyword F ss ts) :
    BodyLayout keyword F (splitTail ss).1 (splitTail ss).2 ts := by
  induction h with
  | nil hgap => exact .nil hgap
  | @cons gap ts more s ss hgap hs hss ih =>
    cases hss with
    | nil hafter =>
      have hlast : [s].getLast?.bind tailOf? = tailOf? s := rfl
      unfold splitTail
      rw [hlast]
      cases ht : tailOf? s with
      | some t => exact .tail hgap (tail_of_tailOf? hF hs ht) hafter
      | none => exact .cons hgap hs (.nil hafter)
    | @cons _ _ _ s' ss' =>
      have hsplit : splitTail (s :: s' :: ss') =
          (s :: (splitTail (s' :: ss')).1, (splitTail (s' :: ss')).2) := by
        unfold splitTail
        rw [List.getLast?_cons_cons]
        split <;> rfl
      rw [hsplit]
      exact .cons hgap hs ih

/-- A range and the expression it is read as. -/
theorem expression_moved {stop : Token → Bool} (hs : Sound st) (hr : Yields (range keyword stop) st r s₁)
    (he : Yields (hostExpression r role escapes) s₁ e s₂) :
    Moved st r.tokens s₂ ∧ F.expr e r.tokens := by
  obtain ⟨hm, hsc, -⟩ := hr.range_moved hs
  have := hm.trans (still_hostExpression _ _ _ he)
  rw [List.append_nil] at this
  exact ⟨this, hF.expr hsc he⟩

theorem escape_moved {inArm : Bool} {e : Escape} (hs : Sound st) (hn : st.next.isOperator "^" = true)
    (h : Yields (escape keyword inArm) st e st') : ∃ ts, Moved st ts st' ∧ EscapeLayout F e ts := by
  obtain ⟨t, s₁, hc, hy⟩ := Yields.bind_iff.1 h
  obtain ⟨rfl, u, hu, hm⟩ := hc.consume_moved hs (kind_ne_eof_of_isOperator hn)
  obtain ⟨r, s₂, hr, hy⟩ := Yields.bind_iff.1 hy
  obtain ⟨-, hy⟩ := Yields.refuse_iff.1 hy
  obtain ⟨v, s₃, he, hy⟩ := Yields.bind_iff.1 hy
  rw [Yields.last_bind_iff] at hy
  obtain ⟨rfl, rfl⟩ := Yields.pure_iff.1 hy
  obtain ⟨hm', hv⟩ := expression_moved hF (hm.sound hs) hr he
  exact ⟨u :: r.tokens, hm.trans hm', .mk (hu ▸ hn) hv⟩

theorem header_moved (hs : Sound st) (h : Yields (header keyword role escapes) st e st') :
    ∃ ts, Moved st ts st' ∧ F.expr e ts := by
  obtain ⟨r, s₁, hr, hy⟩ := Yields.bind_iff.1 h
  obtain ⟨-, hy⟩ := Yields.refuse_after_iff.1 hy
  obtain ⟨v, s₂, he, hy⟩ := Yields.bind_iff.1 hy
  rw [Yields.atSymbol_bind_iff] at hy
  obtain ⟨-, hy⟩ := Yields.refuse_after_iff.1 hy
  obtain ⟨rfl, rfl⟩ := Yields.pure_iff.1 hy
  exact ⟨_, expression_moved hF hs hr he⟩

theorem guard?_moved {g : Option Expr} (hs : Sound st) (h : Yields (guard? keyword) st g st') :
    ∃ ts, Moved st ts st' ∧ GuardLayout F g ts := by
  rw [guard?, Yields.atName_bind_iff] at h
  split at h
  · rename_i hn
    obtain ⟨t, s₁, hc, hy⟩ := Yields.bind_iff.1 h
    obtain ⟨u, hu, hm⟩ := consume_name hc hs hn
    obtain ⟨r, s₂, hr, hy⟩ := Yields.bind_iff.1 hy
    obtain ⟨-, hy⟩ := Yields.refuse_iff.1 hy
    obtain ⟨v, s₃, he, hy⟩ := Yields.bind_iff.1 hy
    obtain ⟨rfl, rfl⟩ := Yields.pure_iff.1 hy
    obtain ⟨hm', hv⟩ := expression_moved hF (hm.sound hs) hr he
    exact ⟨u :: r.tokens, hm.trans hm', .some hu hv⟩
  · obtain ⟨rfl, rfl⟩ := Yields.pure_iff.1 h
    exact ⟨[], .refl _, .none⟩

variable (hb : ∀ boundary, Reads (block boundary) (BlockLayout keyword F))
include hb

theorem armBody_moved {anchor : Token} {b : Block} (hs : Sound st)
    (h : Yields (armBody keyword block anchor) st b st') :
    ∃ ts, Moved st ts st' ∧ ArmBodyLayout keyword F b ts := by
  rw [armBody, Yields.peek_bind_iff] at h
  split at h
  · obtain ⟨ts, hm, hl⟩ := hb false hs h
    exact ⟨ts, hm, .block hl⟩
  · split at h
    · exact absurd h Yields.not_throw
    · split at h
      · rename_i hn
        obtain ⟨e, s₁, he, hy⟩ := Yields.bind_iff.1 h
        obtain ⟨rfl, rfl⟩ := Yields.pure_iff.1 hy
        obtain ⟨ts, hm, hl⟩ := escape_moved hF hs hn he
        exact ⟨ts, hm, .escape hl⟩
      · obtain ⟨r, s₁, hr, hy⟩ := Yields.bind_iff.1 h
        split at hy
        · obtain ⟨s, s₂, hsm, hy⟩ := Yields.bind_iff.1 hy
          obtain ⟨rfl, rfl⟩ := Yields.pure_iff.1 hy
          obtain ⟨hm, hsc, -⟩ := hr.range_moved hs
          have hm' := hm.trans (still_hostSimple _ hsm)
          rw [List.append_nil] at hm'
          exact ⟨r.tokens, hm', .simple (hF.simple hsc hsm)⟩
        · obtain ⟨e, s₂, he, hy⟩ := Yields.bind_iff.1 hy
          obtain ⟨rfl, rfl⟩ := Yields.pure_iff.1 hy
          obtain ⟨hm, hv⟩ := expression_moved hF hs hr he
          exact ⟨r.tokens, hm, .value hv⟩

/-- What comes after the pattern of an arm. -/
theorem arm_rest_moved {p : Pattern} {ps : List SpacedToken} {first : Token} {a : Arm} (hs : Sound st)
    (hm : Moved st ps s₁) (hp : ArmPatternLayout F p ps) (h : Yields (do
      let guard ← guard? keyword
      if (← peek).kind != .arrow then fail .noArrow (← peek).span
      let arrow ← consume
      skipNewlines
      let body ← armBody keyword block arrow
      return Arm.mk p guard body (first.span.through (← BlockReader.last).span) false) s₁ a st') :
    ∃ ts, Moved st ts st' ∧ ArmLayout keyword F a ts := by
  obtain ⟨g, s₂, hg, hy⟩ := Yields.bind_iff.1 h
  obtain ⟨gs, hm₂, hgl⟩ := guard?_moved hF (hm.sound hs) hg
  rw [Yields.peek_bind_iff] at hy
  obtain ⟨hn, hy⟩ := Yields.refuse_after_iff.1 hy
  obtain ⟨t, s₃, hc, hy⟩ := Yields.bind_iff.1 hy
  have hs₂ := hm₂.sound (hm.sound hs)
  have harrow : (s₂.next.kind == .arrow) = true := by simpa using hn
  obtain ⟨rfl, u, hu, hm₃⟩ := hc.consume_moved hs₂ (by simp [beq_iff_eq.1 harrow])
  obtain ⟨_, s₄, hk, hy⟩ := Yields.bind_iff.1 hy
  obtain ⟨gap, hm₄, hgap⟩ := skipNewlines_moved hk
  obtain ⟨body, s₅, hbody, hy⟩ := Yields.bind_iff.1 hy
  obtain ⟨ts, hm₅, hbl⟩ := armBody_moved hF hb (hm₄.sound (hm₃.sound hs₂)) hbody
  rw [Yields.last_bind_iff] at hy
  obtain ⟨rfl, rfl⟩ := Yields.pure_iff.1 hy
  refine ⟨ps ++ gs ++ u :: gap ++ ts, ?_, .mk hp hgl (hu ▸ harrow) hgap hbl⟩
  simpa using hm.trans (hm₂.trans (hm₃.trans (hm₄.trans hm₅)))

theorem arm_moved : Reads (arm keyword block) (ArmLayout keyword F) := by
  intro st a st' hs h
  rw [arm, Yields.peek_bind_iff] at h
  obtain ⟨r, s₁, hr, hy⟩ := Yields.bind_iff.1 h
  obtain ⟨hm, hsc, -⟩ := hr.range_moved hs
  rw [Yields.peek_bind_iff] at hy
  obtain ⟨-, hy⟩ := Yields.refuse_iff.1 hy
  dsimp only at hy
  split at hy
  · rename_i hempty
    rw [List.isEmpty_iff.1 hempty] at hm
    split at hy
    · rw [Yields.pure_bind_iff] at hy
      exact arm_rest_moved hF hb hs hm .none hy
    · obtain ⟨_, _, hthrow, -⟩ := Yields.bind_iff.1 hy
      exact absurd hthrow Yields.not_throw
  · rename_i hne
    obtain ⟨p, s₂, hp, hy⟩ := Yields.bind_iff.1 hy
    have hm' := hm.trans (still_hostPattern _ hp)
    rw [List.append_nil] at hm'
    exact arm_rest_moved hF hb hs hm' (.some (hF.pattern hsc (by simpa using hne) hp)) hy

theorem moreArms_moved (fuel : Nat) :
    Reads (moreArms keyword block fuel) (MoreArmsLayout keyword F) := by
  induction fuel with
  | zero =>
    intro st as st' hs h
    obtain ⟨rfl, rfl⟩ := Yields.pure_iff.1 h
    exact ⟨[], .refl _, .nil⟩
  | succ fuel ih =>
    intro st as st' hs h
    rw [moreArms, Yields.atSymbol_bind_iff] at h
    split at h
    · rename_i hn
      obtain ⟨t, s₁, hc, hy⟩ := Yields.bind_iff.1 h
      obtain ⟨u, hu, hm₁⟩ := consume_symbol hc hs hn
      obtain ⟨_, s₂, hk, hy⟩ := Yields.bind_iff.1 hy
      obtain ⟨gap, hm₂, hgap⟩ := skipNewlines_moved hk
      rw [Yields.atStatementEnd_bind_iff] at hy
      obtain ⟨-, hy⟩ := Yields.refuse_iff.1 hy
      obtain ⟨a, s₃, ha, hy⟩ := Yields.bind_iff.1 hy
      have hs₂ := hm₂.sound (hm₁.sound hs)
      obtain ⟨ts, hm₃, hal⟩ := arm_moved hF hb hs₂ ha
      obtain ⟨more, s₄, hmore, hy⟩ := Yields.bind_iff.1 hy
      obtain ⟨rest, hm₄, hrl⟩ := ih (hm₃.sound hs₂) hmore
      obtain ⟨rfl, rfl⟩ := Yields.pure_iff.1 hy
      refine ⟨u :: gap ++ ts ++ rest, ?_, .cons hu hgap hal hrl⟩
      simpa using hm₁.trans (hm₂.trans (hm₃.trans hm₄))
    · obtain ⟨rfl, rfl⟩ := Yields.pure_iff.1 h
      exact ⟨[], .refl _, .nil⟩

theorem arms_moved {word : Token} {as : List Arm} {s₀ : State} (hs : Sound s₀) (hu : u.isName "else" = true)
    (hm₀ : Moved s₀ [u] st) (h : Yields (arms keyword block word) st as st') :
    ∃ ts, Moved s₀ ts st' ∧ FallbackLayout keyword F as ts := by
  obtain ⟨_, s₁, hk, hy⟩ := Yields.bind_iff.1 h
  obtain ⟨gap, hm₁, hgap⟩ := skipNewlines_moved hk
  have hs₁ := hm₁.sound (hm₀.sound hs)
  rw [Yields.atStatementEnd_bind_iff] at hy
  obtain ⟨-, hy⟩ := Yields.refuse_iff.1 hy
  rw [Yields.get_bind_iff] at hy
  dsimp only at hy
  split at hy
  · obtain ⟨a, s₂, ha, hy⟩ := Yields.bind_iff.1 hy
    obtain ⟨ts, hm₂, hal⟩ := arm_moved hF hb hs₁ ha
    obtain ⟨more, s₃, hmore, hy⟩ := Yields.bind_iff.1 hy
    obtain ⟨rest, hm₃, hrl⟩ := moreArms_moved hF hb _ (hm₂.sound hs₁) hmore
    obtain ⟨rfl, rfl⟩ := Yields.pure_iff.1 hy
    refine ⟨u :: gap ++ ts ++ rest, ?_, .arms hu hgap hal hrl⟩
    simpa using hm₀.trans (hm₁.trans (hm₂.trans hm₃))
  · rw [Yields.peek_bind_iff] at hy
    obtain ⟨body, s₂, hbody, hy⟩ := Yields.bind_iff.1 hy
    obtain ⟨ts, hm₂, hbl⟩ := armBody_moved hF hb hs₁ hbody
    rw [Yields.last_bind_iff] at hy
    obtain ⟨rfl, rfl⟩ := Yields.pure_iff.1 hy
    refine ⟨u :: gap ++ ts, ?_, .shorthand hu hgap hbl⟩
    simpa using hm₀.trans (hm₁.trans hm₂)

omit hF hb in
/-- The statement has a `match` that belongs to the `let`, so the pattern ends there. -/
theorem next_of_letPattern
    (hfound : (before? (fun ts => ts.head?.any fun u => u.isName "match") 0 st.rest).isSome = true)
    (hu : u.isName "let" = true) (hm₁ : Moved st [u] s₁) (hm₂ : Moved s₁ r.tokens s₂)
    (hx : extent keyword (fun t => t.isName "match") [] none s₁.rest = .ok r.tokens) :
    s₂.next.isName "match" = true := by
  simp only [Token.isName, Bool.and_eq_true, beq_iff_eq] at hu
  rw [hm₁.rest, List.singleton_append, before?_name hu.1 (by simp [Token.isName, hu.2]), Option.isSome_map] at hfound
  obtain ⟨pre, hpre⟩ := Option.isSome_iff_exists.1 hfound
  obtain rfl := eq_of_before? hx hpre
  obtain ⟨more, hrest, hhead⟩ := before?_spec hpre
  obtain rfl := List.append_cancel_left (hm₂.rest.symm.trans hrest)
  cases hmore : s₂.rest with
  | nil => simp [hmore] at hhead
  | cons v more => simpa [State.next, hmore] using hhead

theorem letMatch_moved (hs : Sound st) (hn : st.next.isName "let" = true)
    (hfound : (before? (fun ts => ts.head?.any fun u => u.isName "match") 0 st.rest).isSome = true)
    (h : Yields (letMatch keyword block) st s st') :
    ∃ ts, Moved st ts st' ∧ StatementLayout keyword F s ts := by
  obtain ⟨t, s₁, hc, hy⟩ := Yields.bind_iff.1 h
  obtain ⟨u, hu, hm₁⟩ := consume_name hc hs hn
  obtain ⟨r, s₂, hr, hy⟩ := Yields.bind_iff.1 hy
  obtain ⟨hm₂, hsc, hx, -⟩ := hr.range_moved (hm₁.sound hs)
  have hs₂ := hm₂.sound (hm₁.sound hs)
  have hmatch := next_of_letPattern hfound hu hm₁ hm₂ hx
  obtain ⟨hne, hy⟩ := Yields.refuse_iff.1 hy
  obtain ⟨p, s₃, hp, hy⟩ := Yields.bind_iff.1 hy
  have hpattern := hF.pattern hsc (by simpa using hne) hp
  have hstill := still_hostPattern _ hp
  obtain ⟨t', s₄, hc', hy⟩ := Yields.bind_iff.1 hy
  have hnext : s₃.next.isName "match" = true := by rwa [hstill.next_eq]
  obtain ⟨u', hu', hm₄⟩ := consume_name hc' (hstill.sound hs₂) hnext
  obtain ⟨r', s₅, hr', hy⟩ := Yields.bind_iff.1 hy
  obtain ⟨-, hy⟩ := Yields.refuse_iff.1 hy
  obtain ⟨e, s₆, he, hy⟩ := Yields.bind_iff.1 hy
  obtain ⟨hm₆, hel⟩ := expression_moved hF (hm₄.sound (hstill.sound hs₂)) hr' he
  have hs₆ := hm₆.sound (hm₄.sound (hstill.sound hs₂))
  rw [Yields.atName_bind_iff] at hy
  have hto := hm₁.trans (hm₂.trans (hstill.trans (hm₄.trans hm₆)))
  dsimp only at hy
  split at hy
  · rename_i helse
    obtain ⟨t'', s₇, hc'', hy⟩ := Yields.bind_iff.1 hy
    obtain ⟨u'', hu'', hm₇⟩ := consume_name hc'' hs₆ helse
    obtain ⟨as, s₈, has, hy⟩ := Yields.bind_iff.1 hy
    obtain ⟨ts, hm₈, hfl⟩ := arms_moved hF hb hs₆ hu'' hm₇ has
    rw [Yields.last_bind_iff] at hy
    obtain ⟨rfl, rfl⟩ := Yields.pure_iff.1 hy
    refine ⟨u :: r.tokens ++ u' :: r'.tokens ++ ts, ?_, .letMatch hu hpattern hu' hel hfl⟩
    simpa using hto.trans hm₈
  · rw [Yields.pure_bind_iff, Yields.last_bind_iff] at hy
    obtain ⟨rfl, rfl⟩ := Yields.pure_iff.1 hy
    refine ⟨u :: r.tokens ++ u' :: r'.tokens ++ [], ?_,
      .letMatch hu hpattern hu' hel .none⟩
    simpa using hto

/-- A test and the body after it. -/
theorem branch_moved {br : Branch} (hs : Sound st) (h : Yields (branch keyword block role) st br st') :
    ∃ test body es ts, br = .mk test body ∧ Moved st (es ++ ts) st' ∧ F.expr test es ∧
      BlockLayout keyword F body ts := by
  obtain ⟨test, s₁, ht, hy⟩ := Yields.bind_iff.1 h
  obtain ⟨es, hm₁, hel⟩ := header_moved hF hs ht
  obtain ⟨body, s₂, hbody, hy⟩ := Yields.bind_iff.1 hy
  obtain ⟨ts, hm₂, hbl⟩ := hb false (hm₁.sound hs) hbody
  obtain ⟨rfl, rfl⟩ := Yields.pure_iff.1 hy
  exact ⟨test, body, es, ts, rfl, hm₁.trans hm₂, hel, hbl⟩

theorem moreBranches_moved (fuel : Nat) : Reads (moreBranches keyword block fuel)
    fun p ts => MoreBranchesLayout keyword F p.1 p.2 ts := by
  induction fuel with
  | zero =>
    intro st p st' hs h
    obtain ⟨rfl, rfl⟩ := Yields.pure_iff.1 h
    exact ⟨[], .refl _, .none⟩
  | succ fuel ih =>
    intro st p st' hs h
    rw [moreBranches, Yields.get_bind_iff] at h
    obtain ⟨_, s₁, hk, hy⟩ := Yields.bind_iff.1 h
    obtain ⟨gap, hm₁, hgap⟩ := skipNewlines_moved hk
    have hs₁ := hm₁.sound hs
    rw [Yields.atName_bind_iff] at hy
    split at hy
    · rename_i hn
      obtain ⟨t, s₂, hc, hy⟩ := Yields.bind_iff.1 hy
      obtain ⟨u, hu, hm₂⟩ := consume_name hc hs₁ hn
      obtain ⟨br, s₃, hbr, hy⟩ := Yields.bind_iff.1 hy
      obtain ⟨test, body, es, ts, rfl, hm₃, hel, hbl⟩ := branch_moved hF hb (hm₂.sound hs₁) hbr
      obtain ⟨⟨bs, orelse⟩, s₄, hmore, hy⟩ := Yields.bind_iff.1 hy
      obtain ⟨more, hm₄, hml⟩ := ih (hm₃.sound (hm₂.sound hs₁)) hmore
      obtain ⟨rfl, rfl⟩ := Yields.pure_iff.1 hy
      refine ⟨gap ++ u :: es ++ ts ++ more, ?_, .elif hgap hu hel hbl hml⟩
      simpa using hm₁.trans (hm₂.trans (hm₃.trans hm₄))
    · rw [Yields.atName_bind_iff] at hy
      split at hy
      · rename_i hn
        obtain ⟨t, s₂, hc, hy⟩ := Yields.bind_iff.1 hy
        obtain ⟨u, hu, hm₂⟩ := consume_name hc hs₁ hn
        have hs₂ := hm₂.sound hs₁
        rw [Yields.atName_bind_iff] at hy
        split at hy
        · rename_i hn'
          obtain ⟨t', s₃, hc', hy⟩ := Yields.bind_iff.1 hy
          obtain ⟨u', hu', hm₃⟩ := consume_name hc' hs₂ hn'
          obtain ⟨br, s₄, hbr, hy⟩ := Yields.bind_iff.1 hy
          obtain ⟨test, body, es, ts, rfl, hm₄, hel, hbl⟩ := branch_moved hF hb (hm₃.sound hs₂) hbr
          obtain ⟨⟨bs, orelse⟩, s₅, hmore, hy⟩ := Yields.bind_iff.1 hy
          obtain ⟨more, hm₅, hml⟩ := ih (hm₄.sound (hm₃.sound hs₂)) hmore
          obtain ⟨rfl, rfl⟩ := Yields.pure_iff.1 hy
          refine ⟨gap ++ u :: u' :: es ++ ts ++ more, ?_, .elseIf hgap hu hu' hel hbl hml⟩
          simpa using hm₁.trans (hm₂.trans (hm₃.trans (hm₄.trans hm₅)))
        · obtain ⟨b, s₃, hbody, hy⟩ := Yields.bind_iff.1 hy
          obtain ⟨ts, hm₃, hbl⟩ := hb false hs₂ hbody
          obtain ⟨rfl, rfl⟩ := Yields.pure_iff.1 hy
          refine ⟨gap ++ u :: ts, ?_, .orelse hgap hu hbl⟩
          simpa using hm₁.trans (hm₂.trans hm₃)
      · -- the line ends stay to be read
        obtain ⟨_, s₂, hset, hy⟩ := Yields.bind_iff.1 hy
        obtain rfl := Yields.set_iff.1 hset
        obtain ⟨rfl, rfl⟩ := Yields.pure_iff.1 hy
        exact ⟨[], .refl _, .none⟩

theorem conditional_moved {c : Conditional} (hs : Sound st) (hn : st.next.isName "if" = true)
    (h : Yields (conditional keyword block) st c st') :
    ∃ ts, Moved st ts st' ∧ ConditionalLayout keyword F c ts := by
  obtain ⟨t, s₁, hc, hy⟩ := Yields.bind_iff.1 h
  obtain ⟨u, hu, hm₁⟩ := consume_name hc hs hn
  obtain ⟨br, s₂, hbr, hy⟩ := Yields.bind_iff.1 hy
  obtain ⟨test, body, es, ts, rfl, hm₂, hel, hbl⟩ := branch_moved hF hb (hm₁.sound hs) hbr
  rw [Yields.get_bind_iff] at hy
  obtain ⟨⟨bs, orelse⟩, s₃, hmore, hy⟩ := Yields.bind_iff.1 hy
  obtain ⟨more, hm₃, hml⟩ := moreBranches_moved hF hb _ (hm₂.sound (hm₁.sound hs)) hmore
  dsimp only at hy
  rw [Yields.last_bind_iff] at hy
  obtain ⟨rfl, rfl⟩ := Yields.pure_iff.1 hy
  refine ⟨u :: es ++ ts ++ more, ?_, .mk hu hel hbl hml⟩
  simpa using hm₁.trans (hm₂.trans hm₃)

theorem whileLoop_moved (hs : Sound st) (hn : st.next.isName "while" = true)
    (h : Yields (whileLoop keyword block) st s st') :
    ∃ ts, Moved st ts st' ∧ StatementLayout keyword F s ts := by
  obtain ⟨t, s₁, hc, hy⟩ := Yields.bind_iff.1 h
  obtain ⟨u, hu, hm₁⟩ := consume_name hc hs hn
  obtain ⟨test, s₂, ht, hy⟩ := Yields.bind_iff.1 hy
  obtain ⟨es, hm₂, hel⟩ := header_moved hF (hm₁.sound hs) ht
  obtain ⟨body, s₃, hbody, hy⟩ := Yields.bind_iff.1 hy
  obtain ⟨ts, hm₃, hbl⟩ := hb false (hm₂.sound (hm₁.sound hs)) hbody
  rw [Yields.last_bind_iff] at hy
  obtain ⟨rfl, rfl⟩ := Yields.pure_iff.1 hy
  refine ⟨u :: es ++ ts, ?_, .whileLoop hu hel hbl⟩
  simpa using hm₁.trans (hm₂.trans hm₃)

theorem forLoop_moved (hs : Sound st) (hn : st.next.isName "for" = true) (h : Yields (forLoop keyword block) st s st') :
    ∃ ts, Moved st ts st' ∧ StatementLayout keyword F s ts := by
  obtain ⟨t, s₁, hc, hy⟩ := Yields.bind_iff.1 h
  obtain ⟨u, hu, hm₁⟩ := consume_name hc hs hn
  obtain ⟨r, s₂, hr, hy⟩ := Yields.bind_iff.1 hy
  obtain ⟨hm₂, hsc, -⟩ := hr.range_moved (hm₁.sound hs)
  have hs₂ := hm₂.sound (hm₁.sound hs)
  rw [Yields.atName_bind_iff] at hy
  obtain ⟨hin, hy⟩ := Yields.refuse_iff.1 hy
  simp only [Bool.or_eq_true, Bool.not_eq_true', not_or, Bool.not_eq_false] at hin
  obtain ⟨target, s₃, ht, hy⟩ := Yields.bind_iff.1 hy
  have htarget := hF.target hsc (by simpa using hin.1) ht
  have hstill := still_hostTarget _ ht
  have hs₃ := hstill.sound hs₂
  have hnext : s₃.next.isName "in" = true := by
    rw [hstill.next_eq]
    exact hin.2
  obtain ⟨t', s₄, hc', hy⟩ := Yields.bind_iff.1 hy
  obtain ⟨u', hu', hm₄⟩ := consume_name hc' hs₃ hnext
  obtain ⟨iterable, s₅, hi, hy⟩ := Yields.bind_iff.1 hy
  obtain ⟨es, hm₅, hel⟩ := header_moved hF (hm₄.sound hs₃) hi
  obtain ⟨body, s₆, hbody, hy⟩ := Yields.bind_iff.1 hy
  obtain ⟨ts, hm₆, hbl⟩ := hb false (hm₅.sound (hm₄.sound hs₃)) hbody
  rw [Yields.last_bind_iff] at hy
  obtain ⟨rfl, rfl⟩ := Yields.pure_iff.1 hy
  refine ⟨u :: r.tokens ++ u' :: es ++ ts, ?_, .forLoop hu htarget hu' hel hbl⟩
  simpa using hm₁.trans (hm₂.trans (hstill.trans (hm₄.trans (hm₅.trans hm₆))))

omit hF hb in
/-- A search passes tokens inside a line. -/
theorem passed_of_before? {p : List SpacedToken → Bool} {pre : List SpacedToken} (hs : Sound st)
    (h : before? p 0 st.rest = some pre) : Passed pre := by
  obtain ⟨more, hrest, -⟩ := before?_spec h
  refine ⟨fun t ht => hs.genuine t (hrest ▸ List.mem_append_left more ht), fun t ht hk => ?_⟩
  obtain ⟨pre', rfl⟩ := List.head?_eq_some_iff.1 ht
  rw [hrest, List.cons_append, before?] at h
  split at h
  · cases h
  · simp [hk] at h

theorem nestedBlock_moved {before : List SpacedToken} (hs : Sound st)
    (hfound : before? (startsBlock keyword) 0 st.rest = some before)
    (h : Yields (nestedBlock keyword block before) st s st') :
    ∃ ts, Moved st ts st' ∧ StatementLayout keyword F s ts := by
  obtain ⟨more, hrest, hstarts⟩ := before?_spec hfound
  rw [nestedBlock, Yields.peek_bind_iff] at h
  obtain ⟨_, s₁, hadv, hy⟩ := Yields.bind_iff.1 h
  have hm₁ := hadv.advance_moved ⟨more, hrest.symm⟩
  have hs₁ := hm₁.sound hs
  rw [Yields.peek_bind_iff] at hy
  obtain ⟨sink, s₂, hsink, hy⟩ := Yields.bind_iff.1 hy
  have hstill := still_sinkBefore _ _ _ hsink
  obtain ⟨t, s₃, hc, hy⟩ := Yields.bind_iff.1 hy
  have hword : s₂.next.isName keyword = true := by
    obtain ⟨k, brace, _, hmore, hk, -⟩ := startsBlock_spec hstarts
    have : s₁.rest = more := List.append_cancel_left (hm₁.rest.symm.trans hrest)
    rw [hstill.next_eq]
    simpa [State.next, this, hmore] using hk
  have hs₂ := hstill.sound hs₁
  obtain ⟨u, hu, hm₃⟩ := consume_name hc hs₂ hword
  obtain ⟨b, s₄, hbody, hy⟩ := Yields.bind_iff.1 hy
  obtain ⟨ts, hm₄, hbl⟩ := hb true (hm₃.sound hs₂) hbody
  rw [Yields.atStatementEnd_bind_iff] at hy
  obtain ⟨-, hy⟩ := Yields.refuse_after_iff.1 hy
  rw [Yields.last_bind_iff] at hy
  obtain ⟨rfl, rfl⟩ := Yields.pure_iff.1 hy
  refine ⟨before ++ u :: ts, ?_, .nested (hF.sink (passed_of_before? hs hfound) hsink) hu hbl⟩
  simpa using hm₁.trans (hstill.trans (hm₃.trans hm₄))

theorem statement_moved : Reads (statement keyword block) (StatementLayout keyword F) := by
  intro st s st' hs h
  rw [statement, Yields.peek_bind_iff, Yields.get_bind_iff] at h
  dsimp only at h
  split at h
  · rename_i hn
    obtain ⟨e, s₁, he, hy⟩ := Yields.bind_iff.1 h
    obtain ⟨rfl, rfl⟩ := Yields.pure_iff.1 hy
    obtain ⟨ts, hm, hl⟩ := escape_moved hF hs hn he
    exact ⟨ts, hm, .escape hl⟩
  split at h
  · rename_i hn
    rw [Bool.and_eq_true] at hn
    exact letMatch_moved hF hb hs hn.1 hn.2 h
  split at h
  · rename_i hn
    obtain ⟨c, s₁, hc, hy⟩ := Yields.bind_iff.1 h
    obtain ⟨rfl, rfl⟩ := Yields.pure_iff.1 hy
    obtain ⟨ts, hm, hl⟩ := conditional_moved hF hb hs hn hc
    exact ⟨ts, hm, .conditional hl⟩
  split at h
  · rename_i hn
    exact whileLoop_moved hF hb hs hn h
  split at h
  · rename_i hn
    exact forLoop_moved hF hb hs hn h
  split at h
  · rename_i before hfound
    exact nestedBlock_moved hF hb hs hfound h
  · obtain ⟨r, s₁, hr, hy⟩ := Yields.bind_iff.1 h
    obtain ⟨hm, hsc, -⟩ := hr.range_moved hs
    obtain ⟨s, s₂, hsm, hy⟩ := Yields.bind_iff.1 hy
    obtain ⟨rfl, rfl⟩ := Yields.pure_iff.1 hy
    have hm' := hm.trans (still_hostSimple _ hsm)
    rw [List.append_nil] at hm'
    exact ⟨r.tokens, hm', .simple (hF.simple hsc hsm)⟩

/-- Statements end before a closing brace. -/
theorem statements_moved {opener : Token} (fuel : Nat) (hs : Sound st)
    (h : Yields (statements keyword block opener fuel) st ss st') :
    ∃ ts, Moved st ts st' ∧ StatementsLayout keyword F ss ts ∧ st'.next.isSymbol "\x7d" = true := by
  induction fuel generalizing st ss with
  | zero => exact absurd h Yields.not_throw
  | succ fuel ih =>
    rw [statements] at h
    obtain ⟨_, s₁, hk, hy⟩ := Yields.bind_iff.1 h
    obtain ⟨gap, hm₁, hgap⟩ := skipSeparators_moved hk
    rw [Yields.peek_bind_iff] at hy
    obtain ⟨-, hy⟩ := Yields.refuse_iff.1 hy
    dsimp only at hy
    split at hy
    · rename_i hend
      obtain ⟨rfl, rfl⟩ := Yields.pure_iff.1 hy
      exact ⟨gap, hm₁, .nil hgap, hend⟩
    · obtain ⟨s, s₂, hst, hy⟩ := Yields.bind_iff.1 hy
      obtain ⟨ts, hm₂, hl⟩ := statement_moved hF hb (hm₁.sound hs) hst
      rw [Yields.atStatementEnd_bind_iff] at hy
      split at hy
      · rw [Yields.peek_bind_iff, Yields.peek_bind_iff] at hy
        obtain ⟨_, _, hthrow, -⟩ := Yields.bind_iff.1 hy
        exact absurd hthrow Yields.not_throw
      · obtain ⟨more, s₃, hmore, hy⟩ := Yields.bind_iff.1 hy
        obtain ⟨rfl, rfl⟩ := Yields.pure_iff.1 hy
        obtain ⟨rest, hm₃, hrl, hend⟩ := ih (hm₂.sound (hm₁.sound hs)) hmore
        refine ⟨gap ++ ts ++ rest, ?_, .cons hgap hl hrl, hend⟩
        simpa using hm₁.trans (hm₂.trans hm₃)

theorem blockBody_moved (boundary : Bool) :
    Reads (blockBody keyword block boundary) (BlockLayout keyword F) := by
  intro st b st' hs h
  rw [blockBody, Yields.peek_bind_iff] at h
  obtain ⟨-, h⟩ := Yields.refuse_iff.1 h
  obtain ⟨hopen, h⟩ := Yields.refuse_iff.1 h
  have hopen : st.next.isSymbol "\x7b" = true := by simpa using hopen
  obtain ⟨t, s₁, hc, hy⟩ := Yields.bind_iff.1 h
  obtain ⟨u, hu, hm₁⟩ := consume_symbol hc hs hopen
  rw [Yields.get_bind_iff] at hy
  obtain ⟨ss, s₂, hss, hy⟩ := Yields.bind_iff.1 hy
  obtain ⟨ts, hm₂, hl, hclose⟩ := statements_moved hF hb _ (hm₁.sound hs) hss
  obtain ⟨t', s₃, hc', hy⟩ := Yields.bind_iff.1 hy
  obtain ⟨u', hu', hm₃⟩ := consume_symbol hc' (hm₂.sound (hm₁.sound hs)) hclose
  obtain ⟨rfl, rfl⟩ := Yields.pure_iff.1 hy
  refine ⟨u :: ts ++ [u'], ?_, .mk hu (splitTail_layout hF hl) hu'⟩
  simpa using hm₁.trans (hm₂.trans hm₃)

omit hb

theorem blockAt_moved (depth : Nat) (boundary : Bool) :
    Reads (blockAt keyword depth boundary) (BlockLayout keyword F) := by
  induction depth generalizing boundary with
  | zero =>
    intro st b st' hs h
    rw [blockAt, Yields.peek_bind_iff] at h
    exact absurd h Yields.not_throw
  | succ depth ih =>
    rw [blockAt]
    exact blockBody_moved hF ih boundary

theorem nextBlock_moved (boundary : Bool) :
    Reads (nextBlock keyword boundary) (BlockLayout keyword F) := by
  intro st b st' hs h
  rw [nextBlock, Yields.get_bind_iff] at h
  exact blockAt_moved hF _ _ hs h

end BlockReader

/-- Line ends, perhaps the keyword, the block and line ends. -/
inductive TextLayout (keyword : String) (F : Fragments) : Block → List SpacedToken → Prop
  | mk {before words ts after : List SpacedToken} {b : Block} :
    OnlyNewlines before → (∀ t ∈ words, t.isName keyword = true) → words.length ≤ 1 →
    BlockLayout keyword F b ts → OnlyNewlines after →
    TextLayout keyword F b (before ++ words ++ ts ++ after)

namespace BlockReader

variable {keyword : String} {F : Fragments} {st st' : State}

/-- Only the end of the text has the kind of an end. -/
theorem rest_eq_nil_of_next (hs : Sound st) (h : st.next.kind = .eof) : st.rest = [] := by
  cases hrest : st.rest with
  | nil => rfl
  | cons t rest =>
    have := (hs.genuine t (by simp [hrest])).kind_ne_eof
    simp only [State.next, hrest, List.head?_cons, Option.map_some, Option.getD_some] at h
    exact absurd h this

/-- What comes after the keyword of a text. -/
theorem wholeText_rest (hF : F.Read) {before words : List SpacedToken} {b : Block} {s₀ : State}
    (hs₀ : Sound s₀) (hm₀ : Moved s₀ (before ++ words) st) (hbefore : OnlyNewlines before)
    (hword : ∀ t ∈ words, t.isName keyword = true) (hlen : words.length ≤ 1)
    (h : Yields (do
      let b ← nextBlock keyword true
      skipNewlines
      let t ← peek
      if t.kind != .eof then fail (.afterBlock t.text) t.span
      return b) st b st') : TextLayout keyword F b s₀.rest := by
  obtain ⟨b', s₁, hb, hy⟩ := Yields.bind_iff.1 h
  obtain ⟨ts, hm₁, hl⟩ := nextBlock_moved hF true (hm₀.sound hs₀) hb
  obtain ⟨_, s₂, hk, hy⟩ := Yields.bind_iff.1 hy
  obtain ⟨after, hm₂, hafter⟩ := skipNewlines_moved hk
  rw [Yields.peek_bind_iff] at hy
  obtain ⟨hend, hy⟩ := Yields.refuse_iff.1 hy
  obtain ⟨rfl, rfl⟩ := Yields.pure_iff.1 hy
  have hm := hm₀.trans (hm₁.trans hm₂)
  have hnil := rest_eq_nil_of_next (hm.sound hs₀) (by simpa using hend)
  have hrest := hm.rest
  rw [hnil, List.append_nil, ← List.append_assoc] at hrest
  rw [hrest]
  exact .mk hbefore hword hlen hl hafter

/-- A text that holds exactly one block is read to its end. -/
theorem wholeText_layout (hF : F.Read) {b : Block} (hs : Sound st)
    (h : Yields (wholeText keyword) st b st') : TextLayout keyword F b st.rest := by
  obtain ⟨_, s₁, hk, hy⟩ := Yields.bind_iff.1 h
  obtain ⟨before, hm₁, hbefore⟩ := skipNewlines_moved hk
  have hs₁ := hm₁.sound hs
  rw [Yields.atName_bind_iff] at hy
  split at hy
  · rename_i hn
    obtain ⟨t, s₂, hc, hy⟩ := Yields.bind_iff.1 hy
    obtain ⟨u, hu, hm₂⟩ := consume_name hc hs₁ hn
    exact wholeText_rest hF hs (hm₁.trans hm₂) hbefore (by simpa using hu) (by simp) hy
  · have hm₁' : Moved st (before ++ []) s₁ := by rwa [List.append_nil]
    exact wholeText_rest hF hs hm₁' hbefore (by simp) (by simp) hy

/-- The start of a text stands before tokens that the lexer has cut. -/
theorem sound_start {text : String} {s : Script} (h : Script.ofText text = .ok s) (index : Nat) :
    Sound (State.start s index) := by
  obtain ⟨-, hgenuine, hstop⟩ := Script.ofText_spec h
  exact ⟨hstop, fun t ht => hgenuine t (List.mem_of_mem_drop ht)⟩

end BlockReader

/-- All tokens of a text that holds a block are laid out as the block is. -/
theorem Block.parse_layout {keyword text : String} {F : Fragments} {b : Block} (hF : F.Read)
    (h : Block.parse keyword text = .ok b) :
    ∃ s, Script.ofText text = .ok s ∧ TextLayout keyword F b s.tokens := by
  rw [Block.parse] at h
  split at h
  · cases h
  · rename_i s hs
    have hy : Yields (wholeText keyword) (State.start s 0) b
        ((wholeText keyword).run (State.start s 0)).2 := Prod.ext h rfl
    exact ⟨s, hs, wholeText_layout hF (sound_start hs 0) hy⟩

end DoBlocks
