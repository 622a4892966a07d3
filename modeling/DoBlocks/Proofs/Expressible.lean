import DoBlocks.Proofs.Provenance
import DoBlocks.Proofs.Ranges
import DoBlocks.Proofs.Refusals

/-!
# What is read can be lowered

A block that is read has its escapes only where they can be lifted from, so lowering it can fail only for
an arm that falls through and for loop control that would act on a wrapper, and none of the calls that
stand for escapes is left in the code.
-/

namespace DoBlocks

open BlockReader
open Host (Surface surfaceOf gapOf SpelledUpTo)
open Host.Lexer (Written Spells)

variable {ls : List Host.Lexeme} {cs : List Char} {l : Host.Lexeme} {w text : String} {offset : Nat}

/-! ### Words of a range -/

theorem Host.Lexer.Spells.isInfix_of_isWord (h : Spells ls cs) (hl : l ∈ ls) (hw : l.isWord w = true) :
    w.toList <:+: cs := by
  induction h with
  | nil => cases hl
  | mark hmark _ ih =>
    rcases List.mem_cons.1 hl with rfl | hl
    · exact absurd hmark (not_isMark_of_isWord hw)
    · exact ih hl
  | @cons m ms gap rest _ _ _ _ ih =>
    rcases List.mem_cons.1 hl with rfl | hl
    · simp only [Lexeme.isWord, Bool.and_eq_true, beq_iff_eq] at hw
      rw [← hw.2]
      exact List.infix_append gap l.text.toList rest
    · exact (ih hl).trans (List.suffix_append _ rest).isInfix

theorem Host.Lexer.Written.isInfix_of_isWord (h : Written ls cs) (hl : l ∈ ls) (hw : l.isWord w = true) :
    w.toList <:+: cs := by
  cases h with
  | @mk m ms rest _ hrest =>
    rcases List.mem_cons.1 hl with rfl | hl
    · simp only [Lexeme.isWord, Bool.and_eq_true, beq_iff_eq] at hw
      rw [← hw.2]
      exact (List.prefix_append l.text.toList rest).isInfix
    · exact (hrest.isInfix_of_isWord hl hw).trans (List.suffix_append _ rest).isInfix

theorem placed_begins {ts more : List SpacedToken} (h : Placed offset cs (ts ++ more)) :
    (String.join (ts.map fun t => t.gap ++ t.text)).toList <+: cs := by
  induction ts generalizing offset cs with
  | nil => exact List.nil_prefix
  | cons t ts ih =>
    cases h with
    | @cons _ _ after _ _ hcs _ _ h =>
      rw [List.map_cons, String.join_cons, String.toList_append, String.toList_append, hcs]
      exact List.prefix_append_right_inj _ |>.2 (ih h)

/-- The text of consecutive tokens is part of the text they stand in. -/
theorem Placed.isInfix_textOf {ts us : List SpacedToken} (h : Placed offset cs ts) (hus : us <:+: ts) :
    (SpacedToken.textOf us).toList <:+: cs := by
  obtain ⟨before, more, rfl⟩ := hus
  induction before generalizing offset cs with
  | nil =>
    cases us with
    | nil => exact List.nil_infix
    | cons t us =>
      cases h with
      | @cons _ _ after _ _ hcs _ _ h =>
        rw [SpacedToken.textOf, String.toList_append, hcs, List.append_assoc]
        exact (List.prefix_append_right_inj _ |>.2 (placed_begins h)).isInfix.trans
          (List.suffix_append _ _).isInfix
  | cons t before ih =>
    cases h with
    | @cons _ _ after _ _ hcs _ _ h =>
      rw [hcs]
      exact (ih h).trans (List.suffix_append _ _).isInfix

/-- The text is printed from lexemes none of which is the word `w`, with perhaps a gap after them. -/
def Host.Surface.Avoids (s : Surface) (w : String) : Prop :=
  ∃ ls vs, s = surfaceOf ls ++ gapOf vs ∧ ∀ l ∈ ls, l.isWord w = false

/-- The name of the escape calls is printed only if it is in the text. -/
def Marked (text : String) (s : Surface) : Prop :=
  ¬ escapeCallee.toList <:+: text.toList → s.Avoids escapeCallee

theorem marked_of_written (vs : List Host.Lexeme)
    (hcs : escapeCallee.toList <:+: cs → escapeCallee.toList <:+: text.toList) (h : Written ls cs) :
    Marked text (surfaceOf ls ++ gapOf vs) := by
  refine fun hnot => ⟨ls, vs, rfl, fun l hl => ?_⟩
  by_contra hw
  exact hnot (hcs (h.isInfix_of_isWord hl (by simpa using hw)))

theorem PrintsUpTo.marked {s : Surface} {lost : List Char} (h : PrintsUpTo s cs lost)
    (hcs : escapeCallee.toList <:+: cs → escapeCallee.toList <:+: text.toList) : Marked text s := by
  obtain ⟨ls, rfl, written, gap, hwritten, h, -⟩ := h
  have hbegins : written <:+: cs := by
    rw [hwritten, List.append_assoc]
    exact (List.prefix_append _ _).isInfix
  have := marked_of_written [] (fun hw => hcs (hw.trans hbegins)) h
  rwa [show gapOf [] = [] from rfl, List.append_nil] at this

/-- A blank after a text adds no word to it. -/
theorem escapeCallee_infix_of_blank (h : escapeCallee.toList <:+: cs ++ [' ']) :
    escapeCallee.toList <:+: cs := by
  rcases List.infix_concat_iff.1 h with h | h
  · obtain ⟨before, hbefore⟩ := h
    have hlast := congrArg List.getLast? hbefore
    rw [List.getLast?_append, List.getLast?_concat] at hlast
    cases hlast
  · exact h

/-! ### Fragments -/

/-- The host has read the statement. -/
def Simple.Read (s : Simple) : Prop :=
  ∃ text tree t, Host.readStatement text = .ok tree ∧ onlySimple? tree = some t ∧ s = t.toSimple

/-- The host has read the expression, by itself or as the value of a statement. -/
def Expr.Read (e : Expr) : Prop :=
  (∃ text t, Host.readExpression text = .ok t ∧ e = t.toExpr) ∨ ∃ s : Simple, s.Read ∧ s.value = some e

theorem Expr.misplaced_subset_marks (e : Expr) : e.misplaced ⊆ e.marks := by
  induction e with
  | plain text buried => exact List.Subset.refl _
  | hidden name => exact List.Subset.refl _
  | escape text mark operand ih => exact List.subset_cons_of_subset mark ih
  | logical c opening left before after right closing ihl ihr => 
    exact List.append_subset.2 ⟨List.Subset.trans ihl (List.subset_append_left _ _), List.Subset.trans ihr (List.subset_append_right _ _)⟩
  | conditional opening body ifText test elseText orelse closing ihb iht iho =>
    intro mark hmark
    simp only [misplaced, marks, List.mem_append] at hmark ⊢
    rcases hmark with (hmark | hmark) | hmark
    · exact .inl (.inr (iht hmark))
    · exact .inl (.inl (ihb hmark))
    · exact .inr (iho hmark)

/-- What is read, with its escapes only where they can be lifted from. -/
def placedFragments : Fragments where
  expr e _ := e.Read ∧ e.misplaced = []
  pattern := hostFragments.pattern
  simple s _ := s.Read ∧ s.misplaced = []
  tail e _ := e.Read ∧ e.misplaced = []
  target := hostFragments.target
  sink := hostFragments.sink

section Readers

variable {st st' : State}

theorem hostExpression_placed {r : Range} {role : FragmentRole} {escapes : Bool} {e : Expr}
    (h : Yields (hostExpression r role escapes) st e st') : e.Read ∧ e.misplaced = [] := by
  obtain ⟨text, s₁, -, hy⟩ := Yields.bind_iff.1 h
  obtain ⟨t, s₂, htree, hy⟩ := Yields.bind_iff.1 hy
  have hread := hostTree_yields htree
  split at hy
  · obtain ⟨_, s₃, hreject, hp⟩ := Yields.bind_iff.1 hy
    obtain ⟨rfl, -⟩ := Yields.pure_iff.1 hp
    exact ⟨.inl ⟨text, t, hread, rfl⟩, always_rejectMarks _ _ hreject⟩
  · obtain ⟨_, s₃, hreject, hp⟩ := Yields.bind_iff.1 hy
    obtain ⟨rfl, -⟩ := Yields.pure_iff.1 hp
    have hmarks : t.toExpr.marks = [] := always_rejectMarks _ _ hreject
    exact ⟨.inl ⟨text, t, hread, rfl⟩, List.subset_nil.1 (hmarks ▸ t.toExpr.misplaced_subset_marks)⟩

theorem hostSimple_placed {r : Range} {s : Simple} (h : Yields (hostSimple r) st s st') :
    s.Read ∧ s.misplaced = [] := by
  obtain ⟨text, s₁, -, hy⟩ := Yields.bind_iff.1 h
  obtain ⟨tree, s₂, htree, hy⟩ := Yields.bind_iff.1 hy
  have hread := hostTree_yields htree
  split at hy
  · rename_i t hone
    obtain ⟨_, s₃, hreject, hp⟩ := Yields.bind_iff.1 hy
    obtain ⟨rfl, -⟩ := Yields.pure_iff.1 hp
    exact ⟨⟨text, tree, t, hread, hone, rfl⟩, always_rejectMarks _ _ hreject⟩
  · exact absurd hy Yields.not_throw

theorem value_placed {s : Simple} {e : Expr} (h : s.Read ∧ s.misplaced = []) (hvalue : s.value = some e) :
    e.Read ∧ e.misplaced = [] := by
  have hmisplaced := (List.append_eq_nil_iff.1 h.2).2
  rw [hvalue] at hmisplaced
  exact ⟨.inr ⟨s, h.1, hvalue⟩, hmisplaced⟩

end Readers

theorem placedFragments_read : placedFragments.Read where
  expr _ h := hostExpression_placed h
  pattern := hostPattern_kept
  simple _ h := hostSimple_placed h
  tail h _ hvalue := value_placed h hvalue
  target := hostTarget_kept
  sink := sinkBefore_kept

/-! ### Blocks -/

/-- What is known of the fragments of a block that is read from `text` and delivered to `sink`. -/
def Sources.ofText (text : String) (sink : Sink) : Sources where
  expr := Expr.Read
  simple := Simple.Read
  pattern p := Marked text p.text
  target := Marked text
  targets ts := sink.destination = .assign ts ∨ Marked text (ts.flatMap Target.surface)

/-- Something is laid out in consecutive tokens of `all`. -/
def LaidIn {α : Type} (all : List SpacedToken) (R : α → List SpacedToken → Prop) (x : α) : Prop :=
  ∃ ts, ts <:+: all ∧ R x ts

section Layouts

variable {keyword text : String} {sink : Sink} {all : List SpacedToken} {F : Fragments}
variable {ts : List SpacedToken} {ss : List Statement} {tail : Option Tail} {span : Span} {a : Arm} {as : List Arm}
  {bs : List Branch} {orelse : Option Block}

theorem LaidIn.mono {α : Type} {R : α → List SpacedToken → Prop} {x : α} (h : LaidIn ts R x) (hts : ts <:+: all) :
    LaidIn all R x := by
  obtain ⟨us, hus, hx⟩ := h
  exact ⟨us, hus.trans hts, hx⟩

theorem BodyLayout.parts (h : BodyLayout keyword F ss tail ts) :
    (∀ s ∈ ss, LaidIn ts (StatementLayout keyword F) s) ∧ ∀ t ∈ tail, LaidIn ts (TailLayout keyword F) t := by
  induction ss generalizing ts with
  | nil =>
    refine ⟨nofun, ?_⟩
    cases h with
    | nil => exact nofun
    | @tail gap ts after t hgap ht hafter =>
      rintro _ ⟨⟩
      exact ⟨ts, List.infix_append gap ts after, ht⟩
  | cons s ss ih =>
    cases h with
    | @cons gap us more _ _ _ _ hs hss =>
      obtain ⟨hstatements, htail⟩ := ih hss
      have hmore : more <:+: gap ++ us ++ more := (List.suffix_append _ more).isInfix
      refine ⟨List.forall_mem_cons.2 ⟨⟨us, List.infix_append gap us more, hs⟩, fun s hs => ?_⟩, fun t ht => ?_⟩
      · exact (hstatements s hs).mono hmore
      · exact (htail t ht).mono hmore

theorem BlockLayout.parts {boundary : Bool} (h : BlockLayout keyword F (.mk ss tail span boundary) ts) :
    (∀ s ∈ ss, LaidIn ts (StatementLayout keyword F) s) ∧ ∀ t ∈ tail, LaidIn ts (TailLayout keyword F) t := by
  cases h with
  | @mk opener closer _ _ us _ _ _ hbody _ =>
    have hus : us <:+: opener :: us ++ [closer] := ⟨[opener], [closer], by simp⟩
    obtain ⟨hss, htail⟩ := hbody.parts
    exact ⟨fun s hs => (hss s hs).mono hus, fun t ht => (htail t ht).mono hus⟩

/-- The parts of an arm are laid out somewhere. -/
def ArmLaidIn (all : List SpacedToken) (keyword : String) (F : Fragments) : Arm → Prop
  | .mk pattern guard body _ _ => LaidIn all (ArmPatternLayout F) pattern ∧ LaidIn all (GuardLayout F) guard ∧
    LaidIn all (ArmBodyLayout keyword F) body

theorem ArmLaidIn.mono (h : ArmLaidIn ts keyword F a) (hts : ts <:+: all) :
    ArmLaidIn all keyword F a := by
  obtain ⟨pattern, guard, body, span, shorthand⟩ := a
  exact ⟨h.1.mono hts, h.2.1.mono hts, h.2.2.mono hts⟩

theorem ArmLayout.parts (h : ArmLayout keyword F a ts) :
    ArmLaidIn ts keyword F a := by
  cases h with
  | @mk arrow _ _ _ ps gs gap ts _ hp hg _ _ hb =>
    refine ⟨⟨ps, ⟨[], gs ++ arrow :: gap ++ ts, by simp⟩, hp⟩, ⟨gs, ⟨ps, arrow :: gap ++ ts, by simp⟩, hg⟩, ts, ?_, hb⟩
    exact (List.suffix_append _ ts).isInfix

theorem MoreArmsLayout.parts (h : MoreArmsLayout keyword F as ts) :
    ∀ a ∈ as, ArmLaidIn ts keyword F a := by
  induction as generalizing ts with
  | nil => exact nofun
  | cons a as ih =>
    cases h with
    | @cons comma gap us more _ _ _ _ ha has =>
      refine List.forall_mem_cons.2 ⟨ha.parts.mono ⟨comma :: gap, more, by simp⟩, fun b hb => ?_⟩
      exact (ih has b hb).mono (List.suffix_append _ more).isInfix

theorem FallbackLayout.parts (h : FallbackLayout keyword F as ts) :
    ∀ a ∈ as, ArmLaidIn ts keyword F a := by
  cases h with
  | none => exact nofun
  | @arms word gap us more _ _ _ _ ha has =>
    refine List.forall_mem_cons.2 ⟨ha.parts.mono ⟨word :: gap, more, by simp⟩, fun b hb => ?_⟩
    exact (has.parts b hb).mono (List.suffix_append _ more).isInfix
  | @shorthand word gap us _ _ _ _ hb =>
    refine List.forall_mem_singleton.2 ⟨⟨[], List.nil_infix, .none⟩, ⟨[], List.nil_infix, .none⟩, us, ?_, hb⟩
    exact (List.suffix_append _ us).isInfix

/-- The parts of a branch are laid out somewhere. -/
def BranchLaidIn (all : List SpacedToken) (keyword : String) (F : Fragments) : Branch → Prop
  | .mk test body => LaidIn all F.expr test ∧ LaidIn all (BlockLayout keyword F) body

theorem BranchLaidIn.mono {br : Branch} (h : BranchLaidIn ts keyword F br) (hts : ts <:+: all) :
    BranchLaidIn all keyword F br := by
  obtain ⟨test, body⟩ := br
  exact ⟨h.1.mono hts, h.2.mono hts⟩

theorem branches_parts (before : List SpacedToken) {es us more : List SpacedToken} {test : Expr} {body : Block}
    (he : F.expr test es) (hb : BlockLayout keyword F body us)
    (hmore : (∀ br ∈ bs, BranchLaidIn more keyword F br) ∧ ∀ b ∈ orelse, LaidIn more (BlockLayout keyword F) b) :
    (∀ br ∈ .mk test body :: bs, BranchLaidIn (before ++ es ++ us ++ more) keyword F br) ∧
      ∀ b ∈ orelse, LaidIn (before ++ es ++ us ++ more) (BlockLayout keyword F) b := by
  have hends : more <:+: before ++ es ++ us ++ more := (List.suffix_append _ more).isInfix
  refine ⟨List.forall_mem_cons.2 ⟨⟨⟨es, ?_, he⟩, ⟨us, List.infix_append _ us more, hb⟩⟩, fun br hbr => ?_⟩, ?_⟩
  · exact ⟨before, us ++ more, by simp⟩
  · exact (hmore.1 br hbr).mono hends
  · exact fun b hb => (hmore.2 b hb).mono hends

theorem MoreBranchesLayout.parts (h : MoreBranchesLayout keyword F bs orelse ts) :
    (∀ br ∈ bs, BranchLaidIn ts keyword F br) ∧ ∀ b ∈ orelse, LaidIn ts (BlockLayout keyword F) b := by
  induction bs generalizing ts with
  | nil =>
    refine ⟨nofun, ?_⟩
    cases h with
    | none => exact nofun
    | @orelse word _ gap us _ _ hb =>
      rintro _ ⟨⟩
      exact ⟨us, ⟨gap ++ [word], [], by simp⟩, hb⟩
  | cons br bs ih =>
    cases h with
    | @elif word test body _ _ gap es us more _ _ he hb hmore =>
      have := branches_parts (gap ++ [word]) he hb (ih hmore)
      simpa using this
    | @elseIf word ifWord test body _ _ gap es us more _ _ _ he hb hmore =>
      have := branches_parts (gap ++ [word, ifWord]) he hb (ih hmore)
      simpa using this

theorem ConditionalLayout.parts (h : ConditionalLayout keyword F (.mk bs orelse span) ts) :
    (∀ br ∈ bs, BranchLaidIn ts keyword F br) ∧ ∀ b ∈ orelse, LaidIn ts (BlockLayout keyword F) b := by
  cases h with
  | @mk word _ _ _ _ _ _ _ _ _ he hb hmore => exact branches_parts [word] he hb hmore.parts

/-- What is known of fragments in the tokens `all` is enough to know the sources of a block among them. -/
structure Fragments.Supplies (F : Fragments) (S : Sources) (all : List SpacedToken) : Prop where
  expr {e : Expr} : LaidIn all F.expr e → e.Liftable S
  tail {e : Expr} : LaidIn all F.tail e → e.Liftable S
  simple {s : Simple} (span : Span) : LaidIn all F.simple s → (Statement.simple s span).Liftable S
  pattern {p : Pattern} : LaidIn all F.pattern p → S.pattern p
  /-- An arm without a pattern takes everything. -/
  wildcard : S.pattern .wildcard
  target {s : Surface} : LaidIn all F.target s → S.target s
  sink {s : Sink} : LaidIn all F.sink s → s.Known S

namespace Fragments.Supplies

variable {S : Sources} (hS : F.Supplies S all)

include hS

theorem kept {e : Expr} (h : LaidIn all F.expr e) (hfixed : e.fixed = true) : e.Kept S := by
  refine ⟨(hS.expr h).1, Expr.marks_eq_nil_iff.2 ?_⟩
  rw [Expr.fixed, Bool.and_eq_true, Bool.not_eq_true'] at hfixed
  exact hfixed.2

theorem escape {e : Escape} (h : LaidIn all (EscapeLayout F) e) : e.value.Liftable S := by
  obtain ⟨_, hts, hlayout⟩ := h
  cases hlayout with
  | @mk marker _ es _ he => exact hS.expr ⟨es, (List.suffix_cons marker es).isInfix.trans hts, he⟩

end Fragments.Supplies

variable {S : Sources}

mutual

theorem Block.liftable_of_supplies (hS : F.Supplies S all) :
    ∀ {b : Block}, LaidIn all (BlockLayout keyword F) b →
    b.wellFormed true = true → b.Liftable S
  | .mk ss none span boundary, ⟨ts, hts, hlayout⟩, hw => by
    simp only [Block.wellFormed, Bool.and_true] at hw
    exact ⟨statements_liftable hS (fun s hs => (hlayout.parts.1 s hs).mono hts) hw, trivial⟩
  | .mk ss (some t) span boundary, ⟨ts, hts, hlayout⟩, hw => by
    simp only [Block.wellFormed, Bool.and_eq_true] at hw
    exact ⟨statements_liftable hS (fun s hs => (hlayout.parts.1 s hs).mono hts) hw.1,
      Tail.liftable_of_supplies hS ((hlayout.parts.2 t rfl).mono hts) hw.2⟩

theorem Tail.liftable_of_supplies (hS : F.Supplies S all) :
    ∀ {t : Tail}, LaidIn all (TailLayout keyword F) t →
    t.wellFormed true = true → t.Liftable S
  | .value e, ⟨ts, hts, .value he⟩, _ => hS.tail ⟨ts, hts, he⟩
  | .escape e, ⟨ts, hts, .escape he⟩, _ => hS.escape ⟨ts, hts, he⟩
  | .conditional c, ⟨ts, hts, .conditional hc⟩, hw => Conditional.liftable_of_supplies hS ⟨ts, hts, hc⟩ hw
  | .block b, ⟨_, hts, hlayout⟩, hw => by
    cases hlayout with
    | @block word _ _ before ts _ _ _ hb =>
      exact Block.liftable_of_supplies hS ⟨ts, List.IsInfix.trans ⟨before ++ [word], [], by simp⟩ hts, hb⟩ hw

theorem statements_liftable (hS : F.Supplies S all) : ∀ {ss : List Statement},
    (∀ s ∈ ss, LaidIn all (StatementLayout keyword F) s) → statementsWellFormed true ss = true →
      statementsLiftable S ss
  | [], _, _ => trivial
  | s :: rest, h, hw => by
    simp only [statementsWellFormed, Bool.and_eq_true] at hw
    obtain ⟨hs, hrest⟩ := List.forall_mem_cons.1 h
    exact ⟨Statement.liftable_of_supplies hS hs hw.1, statements_liftable hS hrest hw.2⟩

theorem Statement.liftable_of_supplies (hS : F.Supplies S all) :
    ∀ {s : Statement}, LaidIn all (StatementLayout keyword F) s →
    s.wellFormed true = true → s.Liftable S
  | .simple s span, ⟨ts, hts, .simple hs⟩, _ => hS.simple span ⟨ts, hts, hs⟩
  | .escape e, ⟨ts, hts, .escape he⟩, _ => hS.escape ⟨ts, hts, he⟩
  | .letMatch primary source arms span, ⟨_, hts, hlayout⟩, hw => by
    simp only [Statement.wellFormed, Bool.and_eq_true] at hw
    cases hlayout with
    | @letMatch word matchWord _ _ _ ps es rest _ _ hp _ he ha =>
      refine ⟨hS.pattern ⟨ps, List.IsInfix.trans ?_ hts, hp⟩, hS.expr ⟨es, List.IsInfix.trans ?_ hts, he⟩,
        arms_liftable hS (fun a hmem => ?_) hw.2⟩
      · exact ⟨[word], matchWord :: es ++ rest, by simp⟩
      · exact ⟨word :: ps ++ [matchWord], rest, by simp⟩
      · exact (ha.parts a hmem).mono ((List.suffix_append _ rest).isInfix.trans hts)
  | .conditional c, ⟨ts, hts, .conditional hc⟩, hw => Conditional.liftable_of_supplies hS ⟨ts, hts, hc⟩ hw
  | .whileLoop test body span, ⟨_, hts, hlayout⟩, hw => by
    simp only [Statement.wellFormed, Bool.and_eq_true] at hw
    cases hlayout with
    | @whileLoop word _ _ es ts _ _ he hb =>
      have hbody := (List.suffix_append (word :: es) ts).isInfix.trans hts
      exact ⟨hS.kept ⟨es, List.IsInfix.trans ⟨[word], ts, by simp⟩ hts, he⟩ hw.1,
        Block.liftable_of_supplies hS ⟨ts, hbody, hb⟩ hw.2⟩
  | .forLoop target iterable body span, ⟨_, hts, hlayout⟩, hw => by
    simp only [Statement.wellFormed, Bool.and_eq_true] at hw
    cases hlayout with
    | @forLoop word inWord _ _ _ xs es ts _ _ hx _ he hb =>
      refine ⟨hS.target ⟨xs, List.IsInfix.trans ?_ hts, hx⟩, hS.expr ⟨es, List.IsInfix.trans ?_ hts, he⟩, ?_⟩
      · exact ⟨[word], inWord :: es ++ ts, by simp⟩
      · exact ⟨word :: xs ++ [inWord], ts, by simp⟩
      · exact Block.liftable_of_supplies hS ⟨ts, (List.suffix_append _ ts).isInfix.trans hts, hb⟩ hw.2
  | .nested inner b span, ⟨_, hts, hlayout⟩, hw => by
    simp only [Statement.wellFormed, Bool.and_eq_true] at hw
    cases hlayout with
    | @nested word _ _ before ts _ hs _ hb =>
      refine ⟨hS.sink ⟨before, List.IsInfix.trans ?_ hts, hs⟩, ?_⟩
      · exact ⟨[], word :: ts, by simp⟩
      · exact Block.liftable_of_supplies hS ⟨ts, List.IsInfix.trans ⟨before ++ [word], [], by simp⟩ hts, hb⟩ hw.2

theorem arms_liftable (hS : F.Supplies S all) :
    ∀ {as : List Arm}, (∀ a ∈ as, ArmLaidIn all keyword F a) →
    armsWellFormed true as = true → armsLiftable S as
  | [], _, _ => trivial
  | .mk pattern guard body span shorthand :: rest, h, hw => by
    simp only [armsWellFormed, Bool.and_eq_true] at hw
    obtain ⟨⟨⟨ps, hps, hp⟩, ⟨gs, hgs, hg⟩, ⟨ts, hts, hb⟩⟩, hrest⟩ := List.forall_mem_cons.1 h
    refine ⟨?_, ?_, ?_, arms_liftable hS hrest hw.2⟩
    · cases hp with
      | none => exact hS.wildcard
      | some hp => exact hS.pattern ⟨ps, hps, hp⟩
    · cases hg with
      | none => exact nofun
      | @some word e es _ he =>
        rintro _ ⟨⟩
        exact hS.kept ⟨es, List.IsInfix.trans ⟨[word], [], by simp⟩ hgs, he⟩ hw.1.1
    · have hbody : body.wellFormed true = true := hw.1.2
      cases hb with
      | block hb => exact Block.liftable_of_supplies hS ⟨ts, hts, hb⟩ hbody
      | escape he => exact ⟨trivial, hS.escape ⟨ts, hts, he⟩⟩
      | simple hs => exact ⟨⟨hS.simple _ ⟨ts, hts, hs⟩, trivial⟩, trivial⟩
      | value he => exact ⟨trivial, hS.expr ⟨ts, hts, he⟩⟩

theorem Conditional.liftable_of_supplies (hS : F.Supplies S all) : ∀ {c : Conditional},
    LaidIn all (ConditionalLayout keyword F) c → c.wellFormed true = true →
      c.Liftable S
  | .mk branches none span, ⟨ts, hts, hlayout⟩, hw => by
    simp only [Conditional.wellFormed, Bool.and_eq_true] at hw
    exact ⟨branches_liftable hS (fun br hbr => (hlayout.parts.1 br hbr).mono hts) hw.1.2, trivial⟩
  | .mk branches (some b) span, ⟨ts, hts, hlayout⟩, hw => by
    simp only [Conditional.wellFormed, Bool.and_eq_true] at hw
    exact ⟨branches_liftable hS (fun br hbr => (hlayout.parts.1 br hbr).mono hts) hw.1.2,
      Block.liftable_of_supplies hS ((hlayout.parts.2 b rfl).mono hts) hw.2⟩

theorem branches_liftable (hS : F.Supplies S all) :
    ∀ {bs : List Branch}, (∀ br ∈ bs, BranchLaidIn all keyword F br) →
    branchesWellFormed true bs = true → branchesLiftable S bs
  | [], _, _ => trivial
  | .mk test body :: rest, h, hw => by
    simp only [branchesWellFormed, Bool.and_eq_true] at hw
    obtain ⟨⟨ht, hb⟩, hrest⟩ := List.forall_mem_cons.1 h
    exact ⟨hS.expr ht, Block.liftable_of_supplies hS hb hw.1.2, branches_liftable hS hrest hw.2⟩

end


/-- The fragments that are read supply what is known of a text. -/
theorem placedFragments_supplies (hall : Placed 0 text.toList all) :
    placedFragments.Supplies (.ofText text sink) all where
  expr := fun ⟨_, _, he⟩ => he
  tail := fun ⟨_, _, he⟩ => he
  simple _ := fun ⟨_, _, hs⟩ => ⟨hs.1, hs.2, fun _ he => (value_placed hs he).1⟩
  pattern := by
    rintro p ⟨ts, hts, lost, hprints, -⟩
    exact hprints.marked fun hw => hw.trans (hall.isInfix_textOf hts)
  wildcard := fun _ => ⟨[⟨.name, "_", [], 0, 0⟩], [], rfl, by decide⟩
  target := by
    rintro s ⟨ts, hts, lost, hprints, -⟩
    exact hprints.marked fun hw => (escapeCallee_infix_of_blank hw).trans (hall.isInfix_textOf hts)
  sink := by
    rintro s ⟨ts, hts, -, hdestination⟩
    unfold Sink.Known
    split
    · rename_i targets heq
      rw [heq] at hdestination
      obtain ⟨lost, us, vs, written, _, _, _, hsurface, hcs, hwritten, -⟩ := hdestination
      have hbegins : written <:+: (SpacedToken.textOf ts).toList := hcs ▸ (List.prefix_append _ _).isInfix
      refine .inr (.inr ?_)
      rw [hsurface]
      exact marked_of_written vs (fun hw => hw.trans (hbegins.trans (hall.isInfix_textOf hts))) hwritten
    · trivial

theorem Block.liftable_of_layout (hall : Placed 0 text.toList all) {b : Block}
    (h : LaidIn all (BlockLayout keyword placedFragments) b) (hw : b.wellFormed true = true) :
    b.Liftable (.ofText text sink) :=
  Block.liftable_of_supplies (placedFragments_supplies hall) h hw

end Layouts

namespace Lowering

/-- A block that is read can be lowered: the only faults are an arm that falls through and loop control that
would act on a wrapper, a lifted expression has no value left if and only if every evaluation of it escapes,
and no escape call is in the code. All expressions of the code are what is left of expressions that the host
has read; in patterns and targets the name of the escape calls stands only if it stands in the text. -/
theorem parsed_block_is_expressible {keyword text : String} {b : Block} (hb : Block.parse keyword text = .ok b)
    (guards : Bool) (sink : Sink) (st : State) :
    (∀ e st', outcome (lower guards sink b) st = (.error (.error e), st') →
      e.fault = .armFallsThrough ∨ e.fault = .loopControl "break" ∨ e.fault = .loopControl "continue") ∧
    (∀ span e st₁ prelude value st₂, Yields (lift span e) st₁ (prelude, value) st₂ →
      (value = none ↔ e.alwaysEscapes = true)) ∧
    ∀ r st', Yields (lower guards sink b) st r st' → Lowered.allClear (.ofText text sink) r.statements := by
  obtain ⟨s, hs, hlayout⟩ := Block.parse_layout placedFragments_read hb
  have hplaced := (Script.ofText_spec hs).1
  have hwell := Block.Accepted.wellFormed (.inl ⟨_, _, hb⟩)
  have hliftable : b.Liftable (.ofText text sink) := by
    generalize s.tokens = all at hlayout hplaced
    cases hlayout with
    | @mk before words ts after _ _ _ _ hblock _ =>
      have hts : ts <:+: before ++ words ++ ts ++ after := List.infix_append _ ts after
      exact Block.liftable_of_layout hplaced ⟨ts, hts, hblock⟩ hwell
  have hsink : sink.Known (.ofText text sink) := by
    unfold Sink.Known
    split
    · exact .inr (.inl ‹_›)
    · trivial
  refine ⟨fun e st' hout => ?_, fun span e st₁ prelude value st₂ hy => hy.lift_eq_none_iff, fun r st' hy => ?_⟩
  · have hends : Ending (causesOf b True False) (fun _ => True) st (outcome (lower guards sink b) st) :=
      ending_lower guards (fun _ => ⟨hliftable, hwell⟩) False.elim False.elim False.elim
    rw [hout] at hends
    cases hends with
    | error _ he =>
      cases he with
      | fallsThrough => exact .inl rfl
      | unliftable h => exact absurd trivial h
      | stray hescapes _ => cases hescapes
      | control hword _ => exact .inr (hword.imp (congrArg _) (congrArg _))
  · exact Lowered.allClear_suite.2 (Clears.lower guards hsink hliftable hy)

/-- A match on a value that may escape, in a loop with a block that is assigned. -/
theorem parsed_block_is_expressible_nested :
    ∃ b r st', Block.parse "do"
        "\x7b let [x] match a or ^b else 0 if c => return\n for i in y \x7b z = do \x7b i and ^i \x7d \x7d\n w \x7d" =
          .ok b ∧
      Yields (lower true .returning b) (.initial ⟨"_lm", 0, []⟩) r st' ∧ st'.wrappers.length = 2 ∧
      Lowered.allClear (.ofText
        "\x7b let [x] match a or ^b else 0 if c => return\n for i in y \x7b z = do \x7b i and ^i \x7d \x7d\n w \x7d"
        .returning) r.statements := by
  obtain ⟨b, hb, htest⟩ := Block.exists_parse_of_reads
    (show Block.reads "do"
        "\x7b let [x] match a or ^b else 0 if c => return\n for i in y \x7b z = do \x7b i and ^i \x7d \x7d\n w \x7d"
        (fun b => passes (lower true .returning b) (.initial ⟨"_lm", 0, []⟩) fun _ st' => st'.wrappers.length == 2) =
      true by decide +kernel)
  obtain ⟨r, st', hy, hlength⟩ := exists_yields_of_passes htest
  obtain ⟨-, -, hclear⟩ := parsed_block_is_expressible hb true .returning (.initial ⟨"_lm", 0, []⟩)
  exact ⟨b, r, st', hb, hy, beq_iff_eq.1 hlength, hclear r st' hy⟩

/-- A call of the name that stands for escapes is left in the code: after a dot the marker is an operand, but
the call is of an attribute. -/
theorem escape_call_after_dot_stays :
    ¬ escapeCallee.toList <:+: "\x7b a.^x \x7d".toList ∧
    Block.reads "do" "\x7b a.^x \x7d" (fun b =>
      passes (lower true .returning b) (.initial ⟨"_lm", 0, []⟩) fun r _ =>
        renderStatements? r.body "" "    " == some "return a.__letmatch_escape__(x, 0)\n") = true :=
  ⟨by decide +kernel, by decide +kernel⟩

/-- A condition may be a bare tuple, but no header takes one. -/
theorem tuple_condition_unreadable :
    Block.reads "do" "\x7b if a, b \x7b c \x7d \x7d" (fun b => passes (lower true .returning b) default fun r _ =>
      (renderStatements? r.statements "" "    ").any fun text =>
        text == "if a, b:\n    return c\nelse:\n    return\n" && !(Host.readModule text).isOk) = true := by
  decide +kernel

end Lowering

end DoBlocks
