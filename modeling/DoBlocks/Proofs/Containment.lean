import DoBlocks.Proofs.Bounds
import DoBlocks.Proofs.Hygiene
import DoBlocks.Proofs.Splicing
import Mathlib.Data.List.TakeWhile

/-!
# Bad sites do not stop a run

A site that cannot be read or lowered stays as it is and gets one report, and the other sites are still
lowered. The run comes to an outcome unless a range of some site is an obstacle, or the host refuses the
module that the import of the catch-alls goes into for how it is written.
-/

namespace DoBlocks

open BlockReader

/-! ### Indentation -/

theorem Text.isBlank_of_strip {s : String} (h : (strip s).isEmpty = true) : ∀ c ∈ s.toList, isBlank c = true := by
  have hempty : (s.toList.dropWhile isBlank).reverse.dropWhile isBlank = [] := by
    simpa [strip] using h
  have hblank : ∀ c ∈ s.toList.dropWhile isBlank, isBlank c = true := by
    simpa using List.dropWhile_eq_nil_iff.1 hempty
  refine List.dropWhile_eq_nil_iff.1 ?_
  -- the first character that is left would be no blank
  cases hrest : s.toList.dropWhile isBlank with
  | nil => rfl
  | cons c rest =>
    have hnot := List.head?_dropWhile_not isBlank s.toList
    rw [hrest] at hnot hblank
    exact absurd (hblank c (.head _)) (Bool.eq_false_iff.1 hnot)

/-- White space, a comment or a continued line. -/
theorem Lexer.trivia_cases {cs : List Char} {kind : TokenKind} {n : Nat} (h : lexeme? cs = some (kind, n))
    (hkind : kind.isTrivia = true) :
    (∀ c ∈ cs.take n, (c == ' ' || c == '\t' || c == '\x0c') = true) ∨
      (∃ rest, cs.take n = '#' :: rest ∧ '\n' ∉ rest) ∨ ∃ first, cs.take n = first ++ ['\n'] := by
  obtain ⟨cl, hcl, hsome⟩ := List.exists_of_findSome?_eq_some h
  obtain ⟨m, hm, heq⟩ := Option.map_eq_some_iff.1 hsome
  simp only [classes, List.mem_cons, List.not_mem_nil, or_false] at hcl
  rcases hcl with rfl | rfl | rfl | rfl | rfl | rfl | rfl | rfl | rfl | rfl <;> cases heq <;> try cases hkind
  · refine .inr (.inl ?_)
    dsimp only [commentLength] at hm
    split at hm
    · rename_i rest
      cases hm
      refine ⟨rest.takeWhile fun c => c != '\r' && c != '\n', ?_, fun hmem => ?_⟩
      · rw [Nat.add_comm, List.take_succ_cons, countWhile]
        exact congrArg _ (List.prefix_iff_eq_take.1 (List.takeWhile_prefix _)).symm
      · have := List.mem_takeWhile_imp hmem
        simp at this
    · cases hm
  · refine .inr (.inr ?_)
    dsimp only [continuationLength] at hm
    split at hm
    · obtain ⟨k, hk, rfl⟩ := Option.map_eq_some_iff.1 hm
      unfold newlineLength at hk
      split at hk
      · cases hk
        exact ⟨['\\'], rfl⟩
      · cases hk
        exact ⟨['\\', '\r'], rfl⟩
      · cases hk
    · cases hm
  · refine .inl ?_
    dsimp only [whitespaceLength] at hm
    split at hm
    · cases hm
    · cases hm
      rw [countWhile, ← List.prefix_iff_eq_take.1 (List.takeWhile_prefix _)]
      intro c hc
      exact List.mem_takeWhile_imp (p := fun c => c == ' ' || c == '\t' || c == '\x0c') hc

namespace Site

theorem toList_lastLine_append (s t : String) : (lastLine (s ++ t)).toList =
    if '\n' ∈ t.toList then (lastLine t).toList else (lastLine s).toList ++ t.toList := by
  simp only [lastLine, String.toList_append, String.toList_ofList, List.reverse_append]
  split
  · rename_i hmem
    have hstop : (t.toList.reverse.takeWhile (· != '\n')).length ≠ t.toList.reverse.length := fun hall => by
      have heq := (List.takeWhile_prefix (· != '\n')).eq_of_length hall
      simpa using List.takeWhile_eq_self_iff.1 heq '\n' (List.mem_reverse.2 hmem)
    rw [List.takeWhile_append, if_neg hstop]
  · rename_i hmem
    rw [List.takeWhile_append_of_pos, List.reverse_append, List.reverse_reverse]
    intro c hc
    simp only [bne_iff_ne, ne_eq]
    rintro rfl
    exact hmem (List.mem_reverse.1 hc)

/-- If the last line of the gap is white space, it is an indentation. -/
def Indents (gap : String) : Prop :=
  (∀ c ∈ (lastLine gap).toList, Text.isBlank c = true) → isMargin (lastLine gap) = true

theorem Indents.append {gap text : String} (h : Indents gap)
    (htext : (∀ c ∈ text.toList, (c == ' ' || c == '\t' || c == '\x0c') = true) ∨
      (∃ rest, text.toList = '#' :: rest ∧ '\n' ∉ rest) ∨ ∃ first, text.toList = first ++ ['\n']) :
    Indents (gap ++ text) := by
  intro hblank
  rw [isMargin]
  rw [toList_lastLine_append] at hblank ⊢
  obtain hspaces | ⟨rest, hcomment, hline⟩ | ⟨first, hbreak⟩ := htext
  · have hline : '\n' ∉ text.toList := fun hmem => by simpa using hspaces _ hmem
    rw [if_neg hline] at hblank ⊢
    obtain ⟨hgap, -⟩ := List.forall_mem_append.1 hblank
    rw [List.all_append, Bool.and_eq_true]
    exact ⟨h hgap, List.all_eq_true.2 hspaces⟩
  · have hline : '\n' ∉ text.toList := by simp [hcomment, hline]
    rw [if_neg hline, hcomment] at hblank
    have := hblank '#' (by simp)
    cases this
  · have hline : '\n' ∈ text.toList := by simp [hbreak]
    have hlast : (lastLine text).toList = [] := by simp [lastLine, hbreak]
    rw [if_pos hline, hlast]
    rfl

theorem Script.collect_indents {offset : Nat} {cs : List Char} {ts : List Token} {gap : String}
    (h : Lexer.Cuts offset cs ts) (hgap : Indents gap) : ∀ t ∈ Script.collect gap ts, Indents t.gap := by
  have hempty : Indents "" := fun _ => rfl
  induction h generalizing gap with
  | stop ht => simp [Script.collect, ht, TokenKind.isTrivia]
  | @token _ n cs _ t ts hlex htext _ _ _ _ ih =>
    rw [Script.collect]
    split
    · rename_i htrivia
      exact ih (hgap.append (by rw [htext]; exact Lexer.trivia_cases hlex htrivia))
    · split
      · exact List.forall_mem_nil _
      · exact List.forall_mem_cons.2 ⟨hgap, ih hempty⟩

end Site

/-! ### Sites -/

/-- The range is what stands before a block in its statement, or stands at or after a block keyword. -/
def InSite (keyword : String) (tokens ts : List SpacedToken) : Prop :=
  ∃ earlier before rest, tokens = earlier ++ before ++ rest ∧ startsBlock keyword rest = true ∧
    (ts = before ∨ ts <:+: rest)

theorem InSite.isInfix {keyword : String} {tokens ts : List SpacedToken} (h : InSite keyword tokens ts) :
    ts <:+: tokens := by
  obtain ⟨earlier, before, rest, rfl, -, rfl | hts⟩ := h
  · exact ⟨earlier, rest, rfl⟩
  · exact hts.trans (List.suffix_append _ rest).isInfix

/-- What is read of a range, with its escapes only where they can be lifted from. -/
def rangeFragments : Fragments where
  expr e ts := (∃ index, ExpressionOf index ts e) ∧ e.misplaced = []
  pattern _ _ := True
  simple s ts := (∃ index, SimpleOf index ts s) ∧ s.misplaced = []
  tail e ts := ∃ s : Simple, ((∃ index, SimpleOf index ts s) ∧ s.misplaced = []) ∧ s.value = some e
  target _ _ := True
  sink s _ := s.Known .spaced

section Readers

variable {st st' : State}

theorem hostExpression_ranged {r : Range} {role : FragmentRole} {escapes : Bool} {e : Expr}
    (h : Yields (hostExpression r role escapes) st e st') : ∃ index, ExpressionOf index r.tokens e := by
  obtain ⟨text, s₁, htext, hy⟩ := Yields.bind_iff.1 h
  obtain rfl := hostText_text htext
  obtain ⟨t, s₂, htree, hy⟩ := Yields.bind_iff.1 hy
  have hread := hostTree_yields htree
  refine ⟨st.markers.length, t, hread, ?_⟩
  split at hy
  · obtain ⟨_, s₃, -, hp⟩ := Yields.bind_iff.1 hy
    exact (Yields.pure_iff.1 hp).1
  · obtain ⟨_, s₃, -, hp⟩ := Yields.bind_iff.1 hy
    exact (Yields.pure_iff.1 hp).1

theorem hostSimple_ranged {r : Range} {s : Simple} (h : Yields (hostSimple r) st s st') :
    ∃ index, SimpleOf index r.tokens s := by
  obtain ⟨text, s₁, htext, hy⟩ := Yields.bind_iff.1 h
  obtain rfl := hostText_text htext
  obtain ⟨tree, s₂, htree, hy⟩ := Yields.bind_iff.1 hy
  have hread := hostTree_yields htree
  split at hy
  · rename_i t hone
    obtain ⟨_, s₃, -, hp⟩ := Yields.bind_iff.1 hy
    exact ⟨st.markers.length, tree, t, hread, hone, (Yields.pure_iff.1 hp).1⟩
  · exact absurd hy Yields.not_throw

theorem targetsOf_ne_nil {text : String} {tree t : Host.Tree} (hread : Host.readStatement text = .ok tree)
    (hone : onlySimple? tree = some t) (hassign : t.is .assign = true) : targetsOf t.children ≠ [] := by
  obtain ⟨ls, stop, more, -, -, -, -, hrun⟩ := Host.statement?_spec (Host.eq_of_accepted hread)
  obtain ⟨tree', hstatement, hbuilt⟩ := Host.Grammar.statement_isStatement (Host.Grammar.rule_adds _ _) hrun
  obtain rfl := (List.cons.inj hbuilt).1
  obtain ⟨⟨k, ts, rfl, -, htargets, -⟩, -⟩ := Host.lexemes_of_onlySimple? hstatement hone
  obtain rfl : k = .assign := by simpa [Host.Tree.is, Host.Tree.kind?] using hassign
  obtain ⟨us, v, rfl, hus, hu⟩ := htargets rfl
  cases hu with
  | nil => exact absurd rfl hus
  | @cons t equals rest _ _ =>
    cases rest with
    | nil => exact List.cons_ne_nil _ _
    | cons u rest => exact List.cons_ne_nil _ _

theorem always_sinkBefore_known (keyword : String) (before : List SpacedToken) (block : Token) :
    Always (sinkBefore keyword before block) fun s => s.Known .spaced := by
  unfold sinkBefore
  split
  · refine .ite (fun _ => .pure trivial) fun _ => .ite (fun _ => ?_) fun _ => .throw _
    split
    · rename_i tree hread
      split
      · rename_i t hone
        exact .ite (fun hassign => .pure (.inr (targetsOf_ne_nil hread hone hassign))) fun _ => .throw _
      · exact .throw _
    · exact .throw _
    · exact .throw _
  · exact .pure trivial

end Readers

theorem rangeFragments_read : rangeFragments.Read where
  expr _ h := ⟨hostExpression_ranged h, (hostExpression_placed h).2⟩
  pattern _ _ _ := trivial
  simple _ h := ⟨hostSimple_ranged h, (hostSimple_placed h).2⟩
  tail h _ hvalue := ⟨_, h, hvalue⟩
  target _ _ _ := trivial
  sink _ h := always_sinkBefore_known _ _ _ h

theorem rangeFragments_supplies {all : List SpacedToken} (hall : ∀ ts, ts <:+: all → ¬ Obstacle ts) :
    rangeFragments.Supplies .spaced all := by
  have hexpr {e : Expr} {ts : List SpacedToken} (hts : ts <:+: all)
      (h : (∃ index, ExpressionOf index ts e) ∧ e.misplaced = []) : e.Liftable .spaced := by
    obtain ⟨⟨index, hof⟩, hplaced⟩ := h
    obtain ⟨t, hread, rfl⟩ := hof
    refine ⟨⟨Host.Tree.written_toExpr t, ?_⟩, hplaced⟩
    cases hspaced : t.toExpr.isSpaced with
    | true => rfl
    | false => exact absurd (.tightExpression ⟨t, hread, rfl⟩ hspaced) (hall ts hts)
  have hsimple {s : Simple} {ts : List SpacedToken} (hts : ts <:+: all)
      (h : (∃ index, SimpleOf index ts s) ∧ s.misplaced = []) :
      s.isSpaced = true ∧ ∀ e ∈ s.value, e.Liftable .spaced := by
    obtain ⟨⟨index, hof⟩, hplaced⟩ := h
    have hspaced : s.isSpaced = true := by
      cases hspaced : s.isSpaced with
      | true => rfl
      | false => exact absurd (.tightSimple hof hspaced) (hall ts hts)
    obtain ⟨tree, t, hread, hone, rfl⟩ := hof
    refine ⟨hspaced, fun e he => ?_⟩
    have hvalue := written_value_toSimple t
    have hmisplaced := (List.append_eq_nil_iff.1 hplaced).2
    rw [Simple.isSpaced, Bool.and_eq_true] at hspaced
    rw [show t.toSimple.value = some e from he] at hvalue hmisplaced hspaced
    exact ⟨⟨hvalue, hspaced.1⟩, hmisplaced⟩
  constructor
  · rintro e ⟨ts, hts, he⟩
    exact hexpr hts he
  · rintro e ⟨ts, hts, s, hs, hvalue⟩
    exact (hsimple hts hs).2 e hvalue
  · rintro s span ⟨ts, hts, hs⟩
    exact ⟨(hsimple hts hs).1, hs.2, fun e he => ((hsimple hts hs).2 e he).1⟩
  · exact fun _ => trivial
  · trivial
  · exact fun _ => trivial
  · rintro s ⟨ts, -, hs⟩
    exact hs

namespace Site

variable {keyword : String} {before tokens : List SpacedToken} {depth : Nat} {st st' : State}

/-- The site can be lowered and written, if it could be read. -/
def Fit (s : Site) : Prop :=
  ∀ sink block, s.content = .ok (sink, block) →
    sink.Writable ∧ block.Liftable .spaced ∧ block.wellFormed true = true ∧ isMargin s.indent = true

theorem always_content?_indent (indent : String) :
    Always (content? keyword before depth indent) fun _ => (Text.strip indent).isEmpty = true := by
  refine .after fun word => .ite (fun _ => .thrown) fun hindent => .after fun _ => .after fun _ =>
    .after fun _ => .after fun _ => .refuse (.pure ?_)
  simp only [Bool.or_eq_true, not_or, Bool.not_eq_true, Bool.not_eq_false'] at hindent
  exact hindent.2

theorem ReadAt.fit {s : Site} (h : ReadAt keyword tokens before depth st s st')
    (hfree : ∀ ts, InSite keyword tokens ts → ¬ Obstacle ts) (hgaps : ∀ t ∈ tokens, Indents t.gap) : s.Fit := by
  obtain ⟨earlier, htokens⟩ := h.tokens
  have hrest : ∀ ts, ts <:+: st.rest → ¬ Obstacle ts := fun ts hts =>
    hfree ts ⟨earlier, before, st.rest, htokens, h.starts, .inr hts⟩
  intro sink block hcontent
  have hread := h.read
  change Site.read keyword before depth st = _ at hread
  unfold Site.read at hread
  dsimp only at hread
  split at hread
  · rename_i c s₁ hc
    cases hread
    cases hcontent
    obtain ⟨hwritten, hwell⟩ := always_content? _ _ _ _ hc
    obtain ⟨u, ts, s₁, hm, hsink, hlayout⟩ := content?_moved rangeFragments_read h.sound h.starts hc
    refine ⟨Sink.writable_of_known Sources.isSpaced_spaced (always_sinkBefore_known _ _ _ hsink) hwritten, ?_, hwell, ?_⟩
    · refine Block.liftable_of_supplies (rangeFragments_supplies hrest) ⟨ts, ?_, hlayout⟩ hwell
      rw [hm.rest]
      exact ⟨[u], st'.rest, rfl⟩
    · have hfirst : (before ++ st.rest).headD default ∈ tokens := by
        obtain ⟨k, brace, more, hstart, -⟩ := startsBlock_spec h.starts
        rw [htokens, List.append_assoc]
        refine List.mem_append_right _ ?_
        rw [List.headD_eq_head?_getD]
        cases hall : before ++ st.rest with
        | nil => simp [hstart] at hall
        | cons t ts => exact .head _
      exact hgaps _ hfirst (Text.isBlank_of_strip (always_content?_indent _ hc))
  · cases hread
    cases hcontent
  · cases hread

/-- Where every range can be read, the site is read or its error is kept. -/
theorem exists_read (depth : Nat) (hs : Sound st) (hstarts : startsBlock keyword st.rest = true)
    (hbefore : ¬ Unreadable before) (hrest : ∀ ts, ts <:+: st.rest → ¬ Unreadable ts) :
    ∃ s st', Yields (read keyword before depth) st s st' := by
  have hst : Within (.ofReadable st hrest) st.rest.length st := .refl hs
  cases hout : outcome (content? keyword before depth (lastLine ((before ++ st.rest).headD default).gap)) st with
  | mk r t =>
    have hrun : outcome (read keyword before depth) st = Site.read keyword before depth st := rfl
    unfold Site.read at hrun
    dsimp only at hrun
    rw [show (content? keyword before depth (lastLine ((before ++ st.rest).headD default).gap)).run st = _ from hout] at hrun
    cases r with
    | ok c => exact ⟨_, _, hrun⟩
    | error e =>
      obtain ⟨p, rfl⟩ := (content?_stays hst hstarts fun _ => hbefore).faults trivial (congrArg Prod.fst hout)
      exact ⟨_, _, hrun⟩

/-- Where every range can be read, the walk over the tokens comes to its end. -/
theorem exists_locateFrom (fuel depth : Nat) (hs : Sound st) (htokens : before.reverse ++ st.rest <:+ tokens)
    (hfree : ∀ ts, InSite keyword tokens ts → ¬ Unreadable ts) :
    ∃ ss st', Yields (locateFrom keyword fuel before depth) st ss st' := by
  induction fuel generalizing before depth st with
  | zero => exact ⟨[], st, Yields.pure_iff.2 ⟨rfl, rfl⟩⟩
  | succ fuel ih =>
    obtain ⟨earlier, hearlier⟩ := htokens
    rw [← List.append_assoc] at hearlier
    rw [locateFrom]
    simp only [Yields.get_bind_iff]
    split
    · exact ⟨[], st, Yields.pure_iff.2 ⟨rfl, rfl⟩⟩
    · rename_i t rest hrest
      have hsrest : Sound { st with rest := rest, last := t.toToken } :=
        ⟨hs.stop, fun u hu => hs.genuine u (by simp [hrest, show u ∈ rest from hu])⟩
      split
      · obtain ⟨ss, st', hy⟩ := @ih [] _ depth hsrest ⟨earlier ++ before.reverse ++ [t], by simp [← hearlier, hrest]⟩
        exact ⟨ss, st', Yields.bind_iff.2 ⟨(), _, Yields.set_iff.2 rfl, hy⟩⟩
      split
      · rename_i hstarts
        obtain ⟨s, s₁, hread⟩ := exists_read depth hs hstarts
          (hfree _ ⟨earlier, before.reverse, st.rest, hearlier.symm, hstarts, .inl rfl⟩)
          fun ts hts => hfree ts ⟨earlier, before.reverse, st.rest, hearlier.symm, hstarts, .inr hts⟩
        obtain ⟨ts, -, hrest', hs₁, -⟩ := read_spec hs hstarts hread
        have htaken : st.rest.take (st.rest.length - s₁.rest.length) = ts := by simp [hrest']
        obtain ⟨ss, st', hy⟩ := @ih (ts.reverse ++ before) s₁ depth hs₁ ⟨earlier, by simp [← hearlier, hrest']⟩
        refine ⟨s :: ss, st', Yields.bind_iff.2 ⟨s, s₁, hread, Yields.get_bind_iff.2 ?_⟩⟩
        rw [htaken]
        exact Yields.bind_iff.2 ⟨ss, st', hy, Yields.pure_iff.2 ⟨rfl, rfl⟩⟩
      · obtain ⟨ss, st', hy⟩ := @ih (t :: before) _
          (if t.isOpener then depth + 1 else if t.isCloser then depth - 1 else depth) hsrest ⟨earlier, by simp [← hearlier, hrest]⟩
        exact ⟨ss, st', Yields.bind_iff.2 ⟨(), _, Yields.set_iff.2 rfl, hy⟩⟩

end Site

/-- Where no range is an obstacle, all sites of a text are found, and those that could be read can be
lowered and written. -/
theorem exists_locateSitesOf {keyword text : String} {s : Script} (hs : Script.ofText text = .ok s)
    (hfree : ∀ ts, InSite keyword s.tokens ts → ¬ Obstacle ts) :
    ∃ ss, locateSitesOf keyword s = .ok ss ∧ ∀ site ∈ ss, site.Fit := by
  have hsound := sound_start hs 0
  have hgaps : ∀ t ∈ s.tokens, Site.Indents t.gap := by
    rw [Script.ofText] at hs
    split at hs
    · cases hs
    · rename_i hfault
      cases hs
      exact Site.Script.collect_indents (Lexer.scan_cuts hfault) fun _ => rfl
  obtain ⟨ss, st', hy⟩ := @Site.exists_locateFrom keyword [] s.tokens _ (s.tokens.length + 1) 0 hsound
    (List.suffix_refl _) fun ts hts hun => hfree ts hts hun.obstacle
  refine ⟨ss, congrArg Prod.fst hy, fun site hsite => ?_⟩
  obtain ⟨before, depth, st₁, st₂, hread⟩ := Site.locateFrom_readAt hsound hy site hsite
  exact hread.fit hfree hgaps

namespace Expansion

open Lowering (Drawn)

variable {α β : Type} {settings : Settings} {filename code joined : String} {bad : Prop}
  {P : Lowering.State → Prop}

/-! ### Steps that return -/

/-- From every state that satisfies `P`, what the step comes to satisfies `Q`, and it comes to something
unless `bad` holds. -/
structure Returns (bad : Prop) (P : Lowering.State → Prop) (m : Expand α) (Q : α → Lowering.State → Prop) : Prop where
  gives : ∀ {st a st'}, P st → Yields m st a st' → Q a st'
  ends : ∀ {st}, P st → ¬ bad → ∃ a st', Yields m st a st'

namespace Returns

variable {m : Expand α} {f : α → Expand β} {Q R : α → Lowering.State → Prop} {Q' : β → Lowering.State → Prop}

theorem pure {a : α} (h : ∀ st, P st → Q a st) : Returns bad P (Pure.pure a) Q where
  gives hst hy := by
    obtain ⟨rfl, rfl⟩ := Yields.pure_iff.1 hy
    exact h _ hst
  ends {st} _ _ := ⟨a, st, Yields.pure_iff.2 ⟨rfl, rfl⟩⟩

theorem bind (h : Returns bad P m R) (hf : ∀ a, Returns bad (R a) (f a) Q') : Returns bad P (m >>= f) Q' where
  gives hst hy := by
    obtain ⟨a, st₁, hm, hb⟩ := Yields.bind_iff.1 hy
    exact (hf a).gives (h.gives hst hm) hb
  ends hst hbad := by
    obtain ⟨a, st₁, hm⟩ := h.ends hst hbad
    obtain ⟨b, st', hb⟩ := (hf a).ends (h.gives hst hm) hbad
    exact ⟨b, st', Yields.bind_iff.2 ⟨a, st₁, hm, hb⟩⟩

/-- Each of the states can be looked at alone. -/
theorem each (h : ∀ st, P st → Returns bad (· = st) m Q) : Returns bad P m Q where
  gives hst hy := (h _ hst).gives rfl hy
  ends hst := (h _ hst).ends rfl

theorem get_bind {f : Lowering.State → Expand β} (h : ∀ st, P st → Returns bad (· = st) (f st) Q') :
    Returns bad P (get >>= f) Q' where
  gives hst hy := (h _ hst).gives rfl (Yields.get_bind_iff.1 hy)
  ends hst hbad := by
    obtain ⟨b, st', hb⟩ := (h _ hst).ends rfl hbad
    exact ⟨b, st', Yields.get_bind_iff.2 hb⟩

theorem modify {g : Lowering.State → Lowering.State} {Q : PUnit → Lowering.State → Prop}
    (h : ∀ st, P st → Q () (g st)) : Returns bad P (modify g) Q where
  gives hst hy := Yields.modify_iff.1 hy ▸ h _ hst
  ends _ _ := ⟨(), _, Yields.modify_iff.2 rfl⟩

theorem mono {P' : Lowering.State → Prop} (h : Returns bad P m R) (hP : ∀ st, P' st → P st)
    (hQ : ∀ a st, R a st → Q a st) : Returns bad P' m Q where
  gives hst hy := hQ _ _ (h.gives (hP _ hst) hy)
  ends hst := h.ends (hP _ hst)

/-- A phase only writes to the trace. -/
theorem phase {name detail : String} (h : Returns bad P m Q) (hP : ∀ st t, P st → P { st with trace := t })
    (hQ : ∀ a st t, Q a st → Q a { st with trace := t }) : Returns bad P (Expansion.phase name detail m) Q :=
  (modify fun st hst => hP st _ hst).bind fun _ => h.bind fun a =>
    (modify fun st hst => hQ a st _ hst).bind fun _ => pure fun _ hst => hst

/-- A site that can be written is lowered or stays as it is. -/
theorem lowerSite {s : Site} (hs : ¬ bad → s.Fit) :
    Returns bad (fun st => ¬ bad → Drawn [] st) (lowerSite settings s) fun _ st => ¬ bad → Drawn [] st := by
  have hexists {st : Lowering.State} (hst : ¬ bad → Drawn [] st) (hbad : ¬ bad) :
      ∃ x st', Yields (Expansion.lowerSite settings s) st x st' ∧ Drawn [] st' := by
    unfold Expansion.lowerSite
    split
    · exact ⟨_, st, Yields.pure_iff.2 ⟨rfl, rfl⟩, hst hbad⟩
    · rename_i sink block hcontent
      obtain ⟨hsink, hblock, hwell, hmargin⟩ := hs hbad sink block hcontent
      obtain ⟨hkeeps, hwrites⟩ := Lowering.drawn_lowerSite settings.emitGuard hsink hblock hwell (hst hbad)
      simp only [Yields.get_bind_iff]
      cases hout : outcome (Lowering.lowerSite settings.emitGuard sink block) st with
      | mk r t =>
        rw [hout] at hkeeps
        rw [show (Lowering.lowerSite settings.emitGuard sink block).run st = _ from hout]
        cases r with
        | error e =>
          cases e with
          | error e =>
            exact ⟨_, t, Yields.bind_iff.2 ⟨(), _, Yields.set_iff.2 rfl, Yields.pure_iff.2 ⟨rfl, rfl⟩⟩, hkeeps⟩
          | spelling => exact absurd hout (hwrites t)
        | ok r =>
          obtain ⟨text, hrender⟩ : ∃ text, renderStatements? r.statements s.indent settings.indent = some text :=
            ⟨_, if_pos hmargin⟩
          refine ⟨.ok (dropLastBreaks text), t, Yields.bind_iff.2 ⟨(), t, Yields.set_iff.2 rfl, ?_⟩, hkeeps⟩
          rw [hrender]
          exact Yields.pure_iff.2 ⟨rfl, rfl⟩
  constructor
  · intro st x st' hst hy hbad
    obtain ⟨x', st'', hy', hkept⟩ := hexists hst hbad
    obtain ⟨-, rfl⟩ := Prod.mk.inj (hy.symm.trans hy')
    exact hkept
  · intro st hst hbad
    obtain ⟨x, st', hy, -⟩ := hexists hst hbad
    exact ⟨x, st', hy⟩

theorem lowerSites (settings : Settings) (filename : String) (cs : List Char) {sites : List Site}
    (hs : ¬ bad → ∀ s ∈ sites, s.Fit) :
    Returns bad (fun st => ¬ bad → Drawn [] st) (lowerSites settings filename cs sites) fun _ _ => True := by
  induction sites with
  | nil => exact pure fun _ _ => trivial
  | cons s sites ih =>
    have hmore := ih fun hbad s' hs' => hs hbad s' (.tail s hs')
    refine (lowerSite fun hbad => hs hbad s (.head _)).bind fun x => ?_
    cases x with
    | ok text => exact (pure fun _ hst => hst).bind fun _ => hmore.bind fun _ => pure fun _ _ => trivial
    | error e =>
      refine ((modify (Q := fun _ st => ¬ bad → Drawn [] st) fun st hst hbad => ?_).bind fun _ =>
        pure fun _ hst => hst).bind fun _ => hmore.bind fun _ => pure fun _ _ => trivial
      exact (hst hbad).congr rfl rfl

theorem lowerModule {tokens : List Token}
    (hsites : ¬ bad → ∃ sites, locateSitesOf settings.blockKeyword (.ofTokens tokens) = .ok sites ∧ ∀ s ∈ sites, s.Fit) :
    Returns bad (fun st => ¬ bad → Drawn [] st) (lowerModule settings filename code tokens) fun _ _ => True := by
  have hP (st : Lowering.State) (t : Trace) (hst : ¬ bad → Drawn [] st) : ¬ bad → Drawn [] { st with trace := t } :=
    fun hbad => (hst hbad).congr rfl rfl
  rw [Expansion.lowerModule]
  refine bind (R := fun (ss : List Site) st => (¬ bad → ∀ s ∈ ss, s.Fit) ∧ (¬ bad → Drawn [] st))
    (phase ?_ hP fun _ st t h => ⟨h.1, hP st t h.2⟩) fun ss => ?_
  · cases hlocate : locateSitesOf settings.blockKeyword (.ofTokens tokens) with
    | ok ss =>
      refine pure fun st hst => ⟨fun hbad => ?_, hst⟩
      obtain ⟨sites, heq, hfit⟩ := hsites hbad
      cases hlocate.symm.trans heq
      exact hfit
    | error e =>
      refine ⟨fun _ hy => absurd hy Yields.not_throw, fun _ hbad => ?_⟩
      obtain ⟨sites, heq, -⟩ := hsites hbad
      cases hlocate.symm.trans heq
  · refine ⟨fun _ _ => trivial, fun hst => ?_⟩
    exact (bind (phase (lowerSites settings filename code.toList hst.1) hP fun _ _ _ _ => trivial)
      fun _ => pure (Q := fun _ _ => True) fun _ _ => trivial).ends hst.2

end Returns

/-! ### Whole runs -/

/-- The states differ in their traces only. -/
def SameButTrace (st st' : Lowering.State) : Prop := ∃ trace, st' = { st with trace := trace }

theorem SameButTrace.refl (st : Lowering.State) : SameButTrace st st := ⟨st.trace, rfl⟩

theorem SameButTrace.retrace {st st' : Lowering.State} (h : SameButTrace st st') (trace : Trace) :
    SameButTrace st { st' with trace := trace } := by
  obtain ⟨t, rfl⟩ := h
  exact ⟨trace, rfl⟩

/-- Every site of the text has a result, in order, and the lowered ones are put into the text. -/
structure Processed (settings : Settings) (filename code : String) (st : Lowering.State) (results : List Result)
    (joined : String) : Prop where
  sites : locateSites settings.blockKeyword code = .ok (results.map Prod.fst)
  lowers : ∃ trace st', Lowers settings filename { st with trace := trace } results st'
  spliced : joined = String.ofList (splice code.toList 0 (results.map (patchOf code.toList)))
  replaced : (results.map fun r => r.1.start).Nodup → Replaced 0 (lowered results) code.toList joined.toList

/-- The outcome counts the sites and has one report for each that failed. If none did, the module may get
an import, and what is reported is that the import does not fit or what the check finds. -/
structure Reported (check : ModuleCheck) (filename : String) (results : List Result) (joined : String)
    (e : Expansion) : Prop where
  sites : e.sites = results.length
  failed : (∃ r ∈ results, r.failed = true) →
    e.code = joined ∧ e.diagnostics = results.filterMap (reportOf filename)
  lowered : (∀ r ∈ results, r.failed = false) →
    e.code = joined ∧ e.diagnostics = [.hostRefusal filename] ∨
      (e.code = joined ∨ ∃ callee, Prologue.insertAfterPrologue (guardImport callee) joined = .ok e.code) ∧
        ∃ m : ExpandedModule, m.code = e.code ∧ m.filename = filename ∧ e.diagnostics = (check m).diagnostics

theorem reports_eq_nil_iff {results : List Result} :
    results.filterMap (reportOf filename) = [] ↔ ∀ r ∈ results, r.failed = false := by
  refine ⟨failed_of_reportOf, fun h => List.filterMap_eq_nil_iff.2 fun r hr => ?_⟩
  have hr := h r hr
  unfold Result.failed at hr
  unfold reportOf
  split at hr
  · rfl
  · cases hr

namespace Returns

theorem conclude {check : ModuleCheck} {expanded : String} {obligations : List Obligation}
    {sites : List Site} {reports : List Diagnostic} :
    Returns bad P (conclude check filename expanded obligations sites reports) fun e _ =>
      e.code = expanded ∧ e.sites = sites.length ∧ (reports ≠ [] → e.diagnostics = reports) ∧
      (reports = [] → ∃ m : ExpandedModule, m.code = expanded ∧ m.filename = filename ∧
        e.diagnostics = (check m).diagnostics) := by
  cases reports with
  | nil =>
    refine bind (R := fun o _ => ∃ m : ExpandedModule, m.code = expanded ∧ m.filename = filename ∧ o = check m) ?_
      fun o => get_bind fun st ho => pure fun _ _ => ⟨rfl, rfl, nofun, fun _ => ?_⟩
    · exact (phase (P := fun _ => True) (get_bind fun _ _ => pure fun _ _ => ⟨_, rfl, rfl, rfl⟩)
        (fun _ _ _ => trivial) fun _ _ _ h => h).mono (fun _ _ => trivial) fun _ _ h => h
    · obtain ⟨m, hm, hname, rfl⟩ := ho
      exact ⟨m, hm, hname, rfl⟩
  | cons d reports =>
    exact (pure (Q := fun o _ => o.diagnostics = d :: reports) fun _ _ => rfl).bind fun o =>
      get_bind fun st ho => pure fun _ _ => ⟨rfl, rfl, fun _ => ho, nofun⟩

/-- The import is added, or the host cannot read the module, unless it refuses it for how it is written. -/
theorem addGuardImport (himport : ¬ bad → Host.readModule joined ≠ .error .spelling) :
    Returns bad P (addGuardImport filename joined) fun p _ =>
      p.1 = joined ∧ p.2 = [.hostRefusal filename] ∨
        (p.1 = joined ∨ ∃ callee, Prologue.insertAfterPrologue (guardImport callee) joined = .ok p.1) ∧ p.2 = [] := by
  refine get_bind fun st _ => ?_
  cases st.callee with
  | none => exact pure fun _ _ => .inr ⟨.inl rfl, rfl⟩
  | some c =>
    simp only [Option.map_some]
    cases hinsert : Prologue.insertAfterPrologue (guardImport c.render) joined with
    | ok out => exact pure fun _ _ => .inr ⟨.inr ⟨c.render, hinsert⟩, rfl⟩
    | error r =>
      cases r with
      | grammar => exact pure fun _ _ => .inl ⟨rfl, rfl⟩
      | spelling =>
        refine ⟨fun _ hy => absurd hy Yields.not_throw, fun _ hbad => absurd ?_ (himport hbad)⟩
        cases hread : Host.readModule joined with
        | error r =>
          rw [Prologue.insertAfterPrologue, hread] at hinsert
          cases hinsert
          rfl
        | ok module =>
          rw [Prologue.insertAfterPrologue, hread] at hinsert
          cases hinsert

/-- Where all sites can be written, the module is expanded; and the outcome accounts for every site. -/
theorem expandTokens (check : ModuleCheck) {st₀ : Lowering.State} (hst₀ : Drawn [] st₀)
    (hread : (Lexer.tokenize code).fault = none)
    (hsites : ¬ bad → ∃ sites, locateSitesOf settings.blockKeyword (.ofTokens (Lexer.tokenize code).tokens) = .ok sites ∧
      ∀ s ∈ sites, s.Fit)
    (himport : ¬ bad → ∀ results joined, Processed settings filename code st₀ results joined →
      (∀ r ∈ results, r.failed = false) → Host.readModule joined ≠ .error .spelling) :
    Returns bad (SameButTrace st₀) (expandTokens settings check filename code (Lexer.tokenize code).tokens) fun e _ =>
      ∃ results joined, Processed settings filename code st₀ results joined ∧
        Reported check filename results joined e := by
  have hscript : Script.ofText code = .ok (.ofTokens (Lexer.tokenize code).tokens) := by
    simp [Script.ofText, hread]
  have hdrawn {st : Lowering.State} (h : SameButTrace st₀ st) : ¬ bad → Drawn [] st := by
    obtain ⟨t, rfl⟩ := h
    exact fun _ => hst₀.congr rfl rfl
  have hlower : Returns bad (SameButTrace st₀)
      (Expansion.lowerModule settings filename code (Lexer.tokenize code).tokens) fun p _ =>
        ∃ results, Processed settings filename code st₀ results p.2.1 ∧ p.1.length = results.length ∧
          p.2.2 = results.filterMap (reportOf filename) := by
    refine ⟨fun hst hy => ?_, fun hst => (lowerModule hsites).ends (hdrawn hst)⟩
    obtain ⟨t, rfl⟩ := hst
    obtain ⟨hlocate, results, trace, st₁, hfst, hlowers, hjoined, hreports⟩ := lowerModule_spec hy
    rw [← hfst] at hlocate ⊢
    refine ⟨results, ⟨?_, ⟨trace, st₁, hlowers⟩, hjoined, fun hnodup => ?_⟩, List.length_map _, hreports⟩
    · rw [locateSites, hscript]
      exact hlocate
    · obtain ⟨line, hlocated⟩ := locateSitesOf_located hscript hlocate
      rw [hjoined, String.toList_ofList]
      refine (splice_replaced_iff hlocated).2 ?_
      rwa [List.map_map]
  refine hlower.bind fun p => ?_
  obtain ⟨sites, joined, reports⟩ := p
  refine get_bind fun st hst => ?_
  obtain ⟨results, hprocessed, hlength, hreports⟩ := hst
  dsimp only at hprocessed hlength hreports
  subst hreports
  dsimp only
  split
  · change Returns bad _ (Pure.pure (joined, results.filterMap (reportOf filename)) >>= fun p =>
      Expansion.conclude check filename p.1 st.obligations sites p.2) _
    refine bind (R := fun p _ => p = (joined, results.filterMap (reportOf filename))) (pure fun _ _ => rfl)
      fun p => each fun st₁ hp => ?_
    subst hp
    refine conclude.mono (fun _ h => h) fun e _ he => ?_
    obtain ⟨hcode, hcount, hfailed, hlowered⟩ := he
    refine ⟨results, joined, hprocessed, hcount.trans hlength, fun h => ⟨hcode, hfailed fun hnil => ?_⟩,
      fun h => .inr ⟨.inl hcode, hcode ▸ hlowered (reports_eq_nil_iff.2 h)⟩⟩
    obtain ⟨r, hr, hbad⟩ := h
    exact Bool.false_ne_true ((reports_eq_nil_iff.1 hnil r hr).symm.trans hbad)
  · rename_i hend
    change Returns bad _ (Expansion.addGuardImport filename joined >>= fun p =>
      Expansion.conclude check filename p.1 st.obligations sites p.2) _
    simp only [Bool.or_eq_true, not_or, Bool.not_eq_true, Bool.not_eq_false', List.isEmpty_iff] at hend
    have hnone := reports_eq_nil_iff.1 hend.2
    refine (addGuardImport fun hbad => himport hbad results joined hprocessed hnone).bind fun p =>
      each fun st₁ hp => conclude.mono (fun _ h => h) fun e _ he => ?_
    obtain ⟨hcode, hcount, hfailed, hlowered⟩ := he
    refine ⟨results, joined, hprocessed, hcount.trans hlength, ?_, fun _ => ?_⟩
    · rintro ⟨r, hr, hbad⟩
      exact absurd ((hnone r hr).symm.trans hbad) Bool.false_ne_true
    · obtain ⟨hsame, hrefusal⟩ | ⟨himported, hp⟩ := hp
      · exact .inl ⟨hcode.trans hsame, (hfailed (by simp [hrefusal])).trans hrefusal⟩
      · exact .inr ⟨hcode ▸ himported, hcode ▸ hlowered hp⟩

end Returns

/-- The outcome of a run: the report of a text that cannot be cut into tokens, or the account of all sites. -/
def Accounts (settings : Settings) (check : ModuleCheck) (names : Allocator) (filename code : String)
    (e : Expansion) : Prop :=
  (∃ fault, (Lexer.tokenize code).fault = some fault ∧ e.code = code ∧ e.sites = 0 ∧
    e.diagnostics = [.ofParseError fault filename]) ∨
  ∃ results joined, Processed settings filename code (.initial (names.reserve (words code))) results joined ∧
    Reported check filename results joined e

theorem Accounts.retrace {check : ModuleCheck} {names : Allocator} {e : Expansion}
    (h : Accounts settings check names filename code e) (trace : Trace) :
    Accounts settings check names filename code { e with trace := trace } := by
  obtain h | ⟨results, joined, hprocessed, hreported⟩ := h
  · exact .inl h
  · exact .inr ⟨results, joined, hprocessed, hreported.sites, hreported.failed, hreported.lowered⟩

/-- Something in the text stops the run: a range of a site is an obstacle, or all sites are lowered and the
host refuses the module for how it is written. -/
def Stopped (settings : Settings) (names : Allocator) (filename code : String) : Prop :=
  (∃ s ts, Script.ofText code = .ok s ∧ InSite settings.blockKeyword s.tokens ts ∧ Obstacle ts) ∨
  ∃ results joined, Processed settings filename code (.initial (names.reserve (words code))) results joined ∧
    (∀ r ∈ results, r.failed = false) ∧ Host.readModule joined = .error .spelling

theorem Returns.expand {check : ModuleCheck} {names : Allocator} (hstem : Text.isIdentifier names.stem = true)
    (hnext : 0 ≤ names.next) :
    Returns (Stopped settings names filename code) (SameButTrace (.initial names))
      (expand settings check filename code) fun e _ => Accounts settings check names filename code e := by
  have hst : Drawn [] (.initial (names.reserve (words code))) :=
    ⟨hstem, hnext, List.nodup_nil, nofun, nofun, nofun⟩
  unfold Expansion.expand
  refine bind (R := fun e _ => Accounts settings check names filename code e)
    (phase ?_ (fun _ _ h => h.retrace _) fun _ _ _ h => h) fun e => get_bind fun st he => pure fun _ _ =>
      he.retrace _
  dsimp only
  cases hfault : (Lexer.tokenize code).fault with
  | some fault =>
    refine bind (R := fun r _ => r = some fault) (phase (pure fun _ _ => rfl) (fun _ _ h => h.retrace _)
      fun _ _ _ h => h) fun r => each fun st hr => ?_
    subst hr
    exact pure fun _ _ => .inl ⟨fault, hfault, rfl, rfl, rfl⟩
  | none =>
    refine bind (R := fun r st => r = none ∧ SameButTrace (.initial (names.reserve (words code))) st)
      (phase ?_ (fun _ _ h => h.retrace _) fun _ _ _ h => ⟨h.1, h.2.retrace _⟩) fun r => each fun st hst' => ?_
    · refine (modify (Q := fun _ => SameButTrace (.initial (names.reserve (words code)))) fun st h => ?_).bind
        fun _ => pure fun _ h => ⟨rfl, h⟩
      obtain ⟨t, rfl⟩ := h
      exact ⟨t, rfl⟩
    · obtain ⟨rfl, hsame⟩ := hst'
      have hscript : Script.ofText code = .ok (.ofTokens (Lexer.tokenize code).tokens) := by
        simp [Script.ofText, hfault]
      refine (expandTokens check hst hfault (fun hbad => ?_) fun hbad results joined hprocessed hnone hread => ?_).mono
        (fun _ heq => heq ▸ hsame) fun e _ he => .inr he
      · exact exists_locateSitesOf hscript fun ts hin hts => hbad (.inl ⟨_, ts, hscript, hin, hts⟩)
      · exact hbad (.inr ⟨results, joined, hprocessed, hnone, hread⟩)

/-- What a run comes to is a success exactly if nothing is reported. A text that cannot be cut into tokens
stays as it is and has one report. In any other text each site that cannot be read or lowered stays in its
place and has one report, and all other sites are lowered. A run comes to an outcome unless a range of a site
is an obstacle, or all sites are lowered and the host refuses the module for how it is written. -/
theorem run_accounts_for_sites (settings : Settings) (check : ModuleCheck) (names : Allocator)
    (filename code : String) (hstem : Text.isIdentifier names.stem = true) (hnext : 0 ≤ names.next) :
    (∀ e names', run settings check names filename code = (.ok e, names') →
      (e.succeeded = true ↔ e.diagnostics = []) ∧ Accounts settings check names filename code e) ∧
    ((∃ e names', run settings check names filename code = (.ok e, names')) ∨
      Stopped settings names filename code) := by
  have hexpand : Returns (Stopped settings names filename code) _ (expand settings check filename code) _ :=
    .expand hstem hnext
  have hrun {e : Expansion} {names' : Allocator} : run settings check names filename code = (.ok e, names') ↔
      ∃ st', Yields (expand settings check filename code) (.initial names) e st' ∧ st'.names = names' := by
    rw [run, show (expand settings check filename code).run (.initial names) =
      outcome (expand settings check filename code) (.initial names) from rfl]
    unfold Yields
    cases outcome (expand settings check filename code) (.initial names) with
    | mk r st' => simp
  constructor
  · intro e names' h
    obtain ⟨st', hy, -⟩ := hrun.1 h
    exact ⟨List.isEmpty_iff, hexpand.gives (.refl _) hy⟩
  · by_cases hbad : Stopped settings names filename code
    · exact .inr hbad
    · obtain ⟨e, st', hy⟩ := hexpand.ends (.refl (.initial names)) hbad
      exact .inl ⟨e, st'.names, hrun.2 ⟨st', hy, rfl⟩⟩

/-- A site that cannot be read gets a report, and the next one is lowered. -/
theorem run_accounts_for_sites_mixed :
    Text.isIdentifier (freshNames .default).stem = true ∧ 0 ≤ (freshNames .default).next ∧
    ∃ e names', run .default .lenient (freshNames .default) "m.py" "f(do \x7b 1 \x7d)\nx = do \x7b 2 \x7d\n" =
      (.ok e, names') ∧ e.sites = 2 ∧ e.code = "f(do \x7b 1 \x7d)\nx = 2\n" ∧ e.diagnostics.length = 1 ∧
      Accounts .default .lenient (freshNames .default) "m.py" "f(do \x7b 1 \x7d)\nx = do \x7b 2 \x7d\n" e := by
  refine ⟨by decide, by decide, ?_⟩
  have htest : ((run .default .lenient (freshNames .default) "m.py"
      "f(do \x7b 1 \x7d)\nx = do \x7b 2 \x7d\n").1.toOption.map fun e => (e.sites, e.code, e.diagnostics.length)) =
      some (2, "f(do \x7b 1 \x7d)\nx = 2\n", 1) := by decide +kernel
  cases hrun : run .default .lenient (freshNames .default) "m.py" "f(do \x7b 1 \x7d)\nx = do \x7b 2 \x7d\n" with
  | mk r names' =>
    rw [hrun] at htest
    cases r with
    | error e => cases htest
    | ok e =>
      obtain ⟨hsites, hcode, hcount⟩ : e.sites = 2 ∧ e.code = _ ∧ e.diagnostics.length = 1 := by
        simpa [Except.toOption] using htest
      exact ⟨e, names', rfl, hsites, hcode, hcount,
        ((run_accounts_for_sites _ _ _ _ _ (by decide) (by decide)).1 e names' hrun).2⟩

/-- A site whose escape leaves a name next to a word stops the run, and the next site with it. -/
theorem run_stops_at_tight_return :
    (run .default .lenient (freshNames .default) "m.py"
      "do \x7b return(a or ^b) \x7d\nx = do \x7b 1 \x7d\n").1.toOption.isNone = true ∧
    (run .default .lenient (freshNames .default) "m.py" "x = do \x7b 1 \x7d\n").1.toOption.map (fun e => e.code) =
      some "x = 1\n" :=
  ⟨by decide +kernel, by decide +kernel⟩

end Expansion

end DoBlocks
