import DoBlocks.Proofs.Obstacles
import DoBlocks.Proofs.Sites

/-!
# The reader never reaches its bounds

The loops of the reader, and blocks inside one another, are bounded by the number of tokens to come. No bound is
ever reached: with any larger bounds the reader comes to the same, since every statement, arm and branch takes a
token. On its way, whatever it comes to, the reader moves past tokens of the text only and never past the end, and
it fails only with faults unless some range is unreadable.

All follow from one relation: two steps `AgreeAt` a state if they come to the same there, leave the reader inside
the text, and fail only with faults. A step in which blocks are read agrees with the same step with other bounds.
-/

namespace DoBlocks

variable {ε σ α β : Type}

namespace BlockReader

open Host (Refusal Tree)

variable {st : State} {n k : Nat}

/-! ### The region -/

/-- Where reading starts. If it is calm, no range of the tokens to come stops the reader. -/
structure Ground where
  start : State
  calm : Prop
  readable : calm → ∀ ts, ts <:+: start.rest → ¬ Unreadable ts

/-- A start of which nothing more is known. -/
def Ground.any (st : State) : Ground := ⟨st, False, False.elim⟩

/-- A start from which every range can be read. -/
def Ground.ofReadable (st : State) (h : ∀ ts, ts <:+: st.rest → ¬ Unreadable ts) : Ground := ⟨st, True, fun _ => h⟩

variable {base : Ground}

/-- From `base` the reader has moved past some tokens, and at most `n` tokens are to come. -/
structure Within (base : Ground) (n : Nat) (st : State) : Prop where
  sound : Sound st
  moved : ∃ ts, Moved base.start ts st
  few : st.rest.length ≤ n

namespace Within

theorem refl (hs : Sound base.start) : Within base base.start.rest.length base.start :=
  ⟨hs, ⟨[], .refl _⟩, Nat.le_refl _⟩

theorem mono (h : Within base n st) (hle : n ≤ k) : Within base k st := ⟨h.sound, h.moved, Nat.le_trans h.few hle⟩

/-- The same place with the number of tokens to come as bound. -/
theorem here (h : Within base n st) : Within base st.rest.length st := ⟨h.sound, h.moved, Nat.le_refl _⟩

theorem step (h : Within base n st) {ts : List SpacedToken} {st' : State} (hm : Moved st ts st')
    (hle : n ≤ k + ts.length) : Within base k st' := by
  obtain ⟨us, hm'⟩ := h.moved
  refine ⟨hm.sound h.sound, ⟨us ++ ts, hm'.trans hm⟩, ?_⟩
  have hlength := congrArg List.length hm.rest
  rw [List.length_append] at hlength
  have := h.few
  omega

/-- A change of the table does not move the reader. -/
theorem markers (h : Within base n st) (markers : List Span) : Within base n { st with markers := markers } := by
  have hm : Moved st [] { st with markers := markers } := ⟨rfl, rfl, rfl⟩
  exact h.step hm (Nat.le_refl _)

theorem isInfix (h : Within base n st) {ts : List SpacedToken} (hts : ts <+: st.rest) : ts <:+: base.start.rest := by
  obtain ⟨us, hm⟩ := h.moved
  exact hts.isInfix.trans (hm.rest ▸ (List.suffix_append us st.rest).isInfix)

end Within

/-! ### Two readings side by side -/

/-- At `st` the two steps come to the same. They leave the reader after `base` with at most `n` tokens to come, and
fail only with faults if `base` is calm. -/
structure AgreeAt (base : Ground) (n : Nat) (st : State) (m m' : Reader α) : Prop where
  same : outcome m st = outcome m' st
  stays : Within base n (outcome m st).2
  faults : base.calm → ∀ ⦃e⦄, (outcome m st).1 = .error e → ∃ p, e = .fault p

/-- The two steps come to the same wherever the reader stands after `base` with at most `n` tokens to come. -/
def Agree (base : Ground) (n : Nat) (m m' : Reader α) : Prop := ∀ ⦃st⦄, Within base n st → AgreeAt base n st m m'

namespace AgreeAt

variable {m m' : Reader α} {f f' : α → Reader β}

theorem mono (h : AgreeAt base k st m m') (hle : k ≤ n) : AgreeAt base n st m m' := ⟨h.same, h.stays.mono hle, h.faults⟩

theorem pure (a : α) (h : Within base n st) : AgreeAt base n st (pure a) (pure a) := ⟨rfl, h, fun _ _ he => nomatch he⟩

theorem throw {e : BlockFailure} (h : Within base n st) (he : base.calm → ∃ p, e = .fault p) :
    AgreeAt base n st (throw e : Reader α) (MonadExcept.throw e) := by
  refine ⟨rfl, h, fun hr e' he' => ?_⟩
  obtain rfl : e = e' := Except.error.inj he'
  exact he hr

/-- Steps that come to what others come to elsewhere. -/
theorem of_outcome {s : State} {n₁ n₂ : Reader α} (h : AgreeAt base n s n₁ n₂)
    (hm : outcome m st = outcome n₁ s) (hm' : outcome m' st = outcome n₂ s) : AgreeAt base n st m m' := by
  constructor
  · rw [hm, hm', h.same]
  · rw [hm]
    exact h.stays
  · rw [hm]
    exact h.faults

theorem bind (hm : AgreeAt base k st m m') (hle : k ≤ n)
    (hf : ∀ a s, Yields m st a s → Within base k s → AgreeAt base n s (f a) (f' a)) :
    AgreeAt base n st (m >>= f) (m' >>= f') := by
  obtain ⟨hsame, hstays, hfaults⟩ := hm
  cases ho : outcome m st with
  | mk r s =>
    rw [ho] at hsame hstays hfaults
    cases r with
    | error e =>
      have hthrow : AgreeAt base n s (MonadExcept.throw e : Reader β) (MonadExcept.throw e) :=
        .throw (hstays.mono hle) fun hr => hfaults hr rfl
      exact hthrow.of_outcome (outcome_bind_error ho) (outcome_bind_error hsame.symm)
    | ok a => exact (hf a s ho hstays).of_outcome (outcome_bind_ok ho) (outcome_bind_ok hsame.symm)

theorem left (h : AgreeAt base n st m m') : AgreeAt base n st m m := ⟨rfl, h.stays, h.faults⟩

theorem get_bind {f f' : State → Reader β} (h : AgreeAt base n st (f st) (f' st)) :
    AgreeAt base n st (get >>= f) (get >>= f') := ⟨h.same, h.stays, h.faults⟩

theorem peek_bind {f f' : Token → Reader β} (h : AgreeAt base n st (f st.next) (f' st.next)) :
    AgreeAt base n st (peek >>= f) (peek >>= f') := ⟨h.same, h.stays, h.faults⟩

theorem atName_bind {word : String} {f f' : Bool → Reader β}
    (h : AgreeAt base n st (f (st.next.isName word)) (f' (st.next.isName word))) :
    AgreeAt base n st (atName word >>= f) (atName word >>= f') := ⟨h.same, h.stays, h.faults⟩

theorem atSymbol_bind {sign : String} {f f' : Bool → Reader β}
    (h : AgreeAt base n st (f (st.next.isSymbol sign)) (f' (st.next.isSymbol sign))) :
    AgreeAt base n st (atSymbol sign >>= f) (atSymbol sign >>= f') := ⟨h.same, h.stays, h.faults⟩

theorem ite {c : Prop} [Decidable c] {m₁ m₂ : Reader α} (hm : c → AgreeAt base n st m m')
    (hn : ¬ c → AgreeAt base n st m₁ m₂) : AgreeAt base n st (if c then m else m₁) (if c then m' else m₂) := by
  by_cases hc : c
  · rw [if_pos hc, if_pos hc]
    exact hm hc
  · rw [if_neg hc, if_neg hc]
    exact hn hc

/-- A step that changes the state and no more. -/
theorem modify {g : State → State} (h : Within base n (g st)) :
    AgreeAt base n st (modify g : Reader PUnit) (modify g) := ⟨rfl, h, fun _ _ he => nomatch he⟩

theorem set {s : State} (h : Within base n s) : AgreeAt base n st (set s : Reader PUnit) (MonadStateOf.set s) :=
  ⟨rfl, h, fun _ _ he => nomatch he⟩

theorem advance {ts : List SpacedToken} (hst : Within base n st) (hts : ts <+: st.rest) :
    AgreeAt base n st (advance ts) (advance ts) := by
  have hy : Yields (BlockReader.advance ts) st () _ := rfl
  exact modify (hst.step (hy.advance_moved hts) (Nat.le_add_right n _))

/-- The next token is taken, if it is not the end of the text. -/
theorem consume (hst : Within base n st) (hn : st.next.kind ≠ .eof) : AgreeAt base (n - 1) st consume consume := by
  have hy : Yields BlockReader.consume st st.next _ := rfl
  obtain ⟨-, u, -, hm⟩ := hy.consume_moved hst.sound hn
  exact ⟨rfl, hst.step hm (by rw [List.length_singleton]; omega), fun _ _ he => nomatch he⟩

/-- A step that takes the next token goes on with one token less to come. -/
theorem consume_bind {f f' : Token → Reader α} (hst : Within base n st) (hn : st.next.kind ≠ .eof)
    (hf : ∀ t s, Yields BlockReader.consume st t s → Within base (n - 1) s → AgreeAt base (n - 1) s (f t) (f' t)) :
    AgreeAt base n st (BlockReader.consume >>= f) (BlockReader.consume >>= f') :=
  mono ((consume hst hn).bind (Nat.le_refl _) hf) (Nat.sub_le n 1)

/-- The same where it does not matter what was before. -/
theorem consume_then {f f' : Token → Reader α} (hst : Within base n st) (hn : st.next.kind ≠ .eof)
    (hf : ∀ t, Agree base (n - 1) (f t) (f' t)) :
    AgreeAt base n st (BlockReader.consume >>= f) (BlockReader.consume >>= f') :=
  consume_bind hst hn fun t _ _ hs => hf t hs

end AgreeAt

namespace Agree

variable {m m' n₁ n₂ : Reader α} {f f' : α → Reader β}

theorem bind (hm : Agree base n m m') (hf : ∀ a, Agree base n (f a) (f' a)) : Agree base n (m >>= f) (m' >>= f') :=
  fun _ hst => (hm hst).bind (Nat.le_refl n) fun a _ _ hs => hf a hs

theorem symm (h : Agree base n m m') : Agree base n m' m := by
  intro st hst
  obtain ⟨hsame, hstays, hfaults⟩ := h hst
  rw [hsame] at hstays hfaults
  exact ⟨hsame.symm, hstays, hfaults⟩

theorem pure (a : α) : Agree base n (pure a) (pure a) := fun _ hst => .pure a hst

theorem fail (fault : ParseFault) (span : Span) :
    Agree base n (fail fault span : Reader α) (BlockReader.fail fault span) := fun _ hst => .throw hst fun _ => ⟨_, rfl⟩

theorem ite {c : Prop} [Decidable c] (hm : Agree base n m m') (hn : Agree base n n₁ n₂) :
    Agree base n (if c then m else n₁) (if c then m' else n₂) := fun _ hst => .ite (fun _ => hm hst) fun _ => hn hst

/-- What would follow a fault does not matter. -/
theorem failed (fault : ParseFault) (span : Span) :
    Agree base n (BlockReader.fail fault span >>= f) (BlockReader.fail fault span >>= f') :=
  fun _ hst => (fail fault span hst).bind (Nat.le_refl n) fun _ _ hy _ => absurd hy Yields.not_throw

/-- A step that refuses what satisfies `c` and goes on otherwise. -/
theorem refuse {c : Prop} [Decidable c] {fault : ParseFault} {span : Span} {f f' : Unit → Reader β}
    (h : Agree base n (f ()) (f' ())) : Agree base n (if c then BlockReader.fail fault span >>= f else f ())
      (if c then BlockReader.fail fault span >>= f' else f' ()) := ite (failed fault span) h

theorem get_bind {f f' : State → Reader β} (h : ∀ s, Within base n s → Agree base n (f s) (f' s)) :
    Agree base n (get >>= f) (get >>= f') := fun st hst => .get_bind (h st hst hst)

end Agree

/-! ### Host fragments -/

/-- The step leaves the reader inside the text and fails only with faults. -/
abbrev Stays (base : Ground) (n : Nat) (m : Reader α) : Prop := Agree base n m m

namespace Stays

theorem peek : Stays base n peek := .get_bind fun _ _ => .pure _

theorem last : Stays base n BlockReader.last := .get_bind fun _ _ => .pure _

theorem atSymbol (sign : String) : Stays base n (atSymbol sign) := peek.bind fun _ => .pure _

theorem atStatementEnd : Stays base n atStatementEnd := peek.bind fun _ => .pure _

theorem skipWhile (p : Token → Bool) : Stays base n (skipWhile p) :=
  fun _ hst => .get_bind (.advance hst (List.takeWhile_prefix _))

theorem skipNewlines : Stays base n skipNewlines := skipWhile _

theorem skipSeparators : Stays base n skipSeparators := skipWhile _

theorem range (keyword : String) (stop : Token → Bool) : Stays base n (range keyword stop) := by
  refine fun st hst => .bind (m := scan keyword stop) (k := n) ?_ (Nat.le_refl n) fun ts s hy hs => .peek_bind ?_
  · refine .get_bind ?_
    split
    · exact .pure _ hst
    · exact .throw hst fun _ => ⟨_, rfl⟩
  · -- what was scanned comes next
    have hprefix : ts <+: s.rest := by
      rw [scan, Yields.get_bind_iff] at hy
      split at hy
      · rename_i hx
        obtain ⟨rfl, rfl⟩ := Yields.pure_iff.1 hy
        obtain ⟨more, hrest, -⟩ := extent_spec hx
        exact ⟨more, hrest.symm⟩
      · exact absurd hy Yields.not_throw
    exact (AgreeAt.advance hs hprefix).bind (Nat.le_refl n) fun _ _ _ hs => (last.bind fun _ => .pure _) hs

theorem hostTree {r : Except Refusal Tree} (fault : ParseFault) (span : Span)
    (h : base.calm → r ≠ .error .spelling) : Stays base n (hostTree r fault span) := by
  unfold BlockReader.hostTree
  split
  · exact .pure _
  · exact .fail _ _
  · exact fun st hst => .throw hst fun hr => absurd rfl (h hr)

theorem rejectMarks {marks : List EscapeMark} (fault : ParseFault) (hst : Within base n st)
    (h : base.calm → ∀ mark ∈ marks, ∃ i, markNumber mark = .ok i ∧ i < st.markers.length) :
    AgreeAt base n st (rejectMarks marks fault) (rejectMarks marks fault) := by
  unfold BlockReader.rejectMarks
  split
  · rename_i e he
    refine .throw hst fun hr => ?_
    obtain ⟨least, hleast, -⟩ := leastMark_lt (h hr)
    cases hleast.symm.trans he
  · exact .pure _ hst
  · rename_i i hi
    refine .get_bind ?_
    split
    · exact .throw hst fun _ => ⟨_, rfl⟩
    · rename_i hnone
      refine .throw hst fun hr => ?_
      obtain ⟨least, hleast, hlt⟩ := leastMark_lt (h hr)
      cases hleast.symm.trans hi
      exact absurd (hlt i rfl) (Nat.not_lt.2 (List.getElem?_eq_none_iff.1 hnone))

/-- A step that hands the text of a range to the host. -/
theorem fragment {ts : List SpacedToken} {read : String → Except Refusal Tree} {fault : ParseFault} {span : Span}
    {f : Tree → Reader α}
    (hspelled : base.calm → ∀ index, read (Fragment.text index (Fragment.ofTokens ts)) ≠ .error .spelling)
    (hf : ∀ index tree, read (Fragment.text index (Fragment.ofTokens ts)) = .ok tree →
      ∀ st, Within base n st → st.markers.length = countAfter index ts → AgreeAt base n st (f tree) (f tree)) :
    Stays base n (hostText ts >>= fun text => BlockReader.hostTree (read text) fault span >>= f) := by
  intro st hst
  obtain ⟨p, markers, h⟩ | h := hostText_cases ts st
  · have hthrow : AgreeAt base n _ (MonadExcept.throw (.fault p) : Reader α) (MonadExcept.throw (.fault p)) :=
      .throw (hst.markers markers) fun _ => ⟨p, rfl⟩
    exact hthrow.of_outcome (outcome_bind_error h) (outcome_bind_error h)
  · refine AgreeAt.of_outcome ?_ (outcome_bind_ok h) (outcome_bind_ok h)
    refine (hostTree fault span (fun hr => hspelled hr _) (hst.markers _)).bind (Nat.le_refl n) fun tree s hy hs =>
      hf _ tree (hostTree_yields hy) s hs ?_
    rw [markers_of_hostTree hy]
    simp [countAfter]

theorem hostExpression {r : Range} (role : FragmentRole) (escapes : Bool) (hr : r.tokens <:+: base.start.rest) :
    Stays base n (hostExpression r role escapes) := by
  refine fragment (fun h index hrefused => base.readable h _ hr (@Unreadable.refused _ index ?_)) fun index tree hread st hst hcount => ?_
  · rw [← hrefused]
    exact .head _
  have hmarks (h : base.calm) : ∀ mark ∈ tree.toExpr.marks, ∃ i, markNumber mark = .ok i ∧ i < st.markers.length := by
    intro mark hmark
    rw [hcount]
    exact not_uncounted fun hun => base.readable h _ hr (.expressionMark ⟨tree, hread, rfl⟩ hmark hun)
  refine .ite (fun _ => ?_) fun _ => ?_
  · refine (rejectMarks _ hst fun h mark hmark => ?_).bind (Nat.le_refl n) fun _ _ _ hs => .pure _ hs
    exact hmarks h mark (tree.toExpr.misplaced_subset_marks hmark)
  · exact (rejectMarks _ hst hmarks).bind (Nat.le_refl n) fun _ _ _ hs => .pure _ hs

theorem hostSimple {r : Range} (hr : r.tokens <:+: base.start.rest) : Stays base n (hostSimple r) := by
  refine fragment (fun h index hrefused => base.readable h _ hr (@Unreadable.refused _ index ?_)) fun index tree hread st hst hcount => ?_
  · rw [← hrefused]
    exact .tail _ (.head _)
  split
  · rename_i t hone
    refine (rejectMarks _ hst fun h mark hmark => ?_).bind (Nat.le_refl n) fun _ _ _ hs => .pure _ hs
    rw [hcount]
    exact not_uncounted fun hun =>
      base.readable h _ hr (.simpleMark ⟨tree, t, hread, hone, rfl⟩ (Simple.misplaced_subset_marks _ hmark) hun)
  · exact Agree.fail _ _ hst

theorem hostPattern {r : Range} (hr : r.tokens <:+: base.start.rest) : Stays base n (hostPattern r) := by
  refine (hostTree _ _ fun h hrefused => base.readable h _ hr (@Unreadable.refused _ 0 ?_)).bind fun tree => ?_
  · rw [← hrefused]
    exact .tail _ (.tail _ (.head _))
  · split
    · exact .pure _
    · exact .fail _ _

theorem hostTarget {r : Range} (hr : r.tokens <:+: base.start.rest) : Stays base n (hostTarget r) := by
  refine (hostTree _ _ fun h hrefused => base.readable h _ hr (@Unreadable.refused _ 0 ?_)).bind fun tree => ?_
  · rw [← hrefused]
    exact .tail _ (.tail _ (.tail _ (.head _)))
  · split
    · exact .pure _
    · exact .pure _

theorem sinkBefore (keyword : String) {before : List SpacedToken} (block : Token)
    (h : base.calm → ¬ Unreadable before) : Stays base n (sinkBefore keyword before block) := by
  unfold BlockReader.sinkBefore
  split
  · refine .ite (.pure _) (.ite ?_ (.fail _ _))
    split
    · split
      · exact .ite (.pure _) (.fail _ _)
      · exact .fail _ _
    · exact .fail _ _
    · rename_i hrefused
      refine fun st hst => .throw hst fun hr => absurd (@Unreadable.refused _ 0 ?_) (h hr)
      rw [← hrefused]
      exact .tail _ (.tail _ (.tail _ (.tail _ (.head _))))
  · exact .pure _

end Stays

/-- A step that reads a range and goes on with it. -/
theorem Agree.range_bind {keyword : String} {stop : Token → Bool} {f f' : Range → Reader α}
    (hf : ∀ r, r.tokens <:+: base.start.rest → Agree base n (f r) (f' r)) :
    Agree base n (BlockReader.range keyword stop >>= f) (BlockReader.range keyword stop >>= f') := by
  refine fun st hst => (Stays.range keyword stop hst).bind (Nat.le_refl n) fun r s hy hs => hf r ?_ hs
  obtain ⟨hm, -⟩ := hy.range_moved hst.sound
  exact hst.isInfix ⟨s.rest, hm.rest.symm⟩

/-! ### Statements -/

section Statements

variable {keyword : String}

theorem escape_stays {inArm : Bool} (hst : Within base n st) (hn : st.next.isOperator "^" = true) :
    AgreeAt base n st (escape keyword inArm) (escape keyword inArm) :=
  .consume_then hst (kind_ne_eof_of_isOperator hn) fun _ => .range_bind fun _ hr => .refuse
    ((Stays.hostExpression _ _ hr).bind fun _ => Stays.last.bind fun _ => .pure _)

theorem header_stays (role : FragmentRole) (escapes : Bool) : Stays base n (header keyword role escapes) :=
  .range_bind fun _ hr => .ite (Stays.peek.bind fun _ => .failed _ _)
    ((Stays.hostExpression _ _ hr).bind fun _ => (Stays.atSymbol _).bind fun _ =>
      .ite (Stays.peek.bind fun _ => .failed _ _) (.pure _))

theorem guard?_stays : Stays base n (guard? keyword) := by
  refine fun st hst => .atName_bind (.ite (fun hn => ?_) fun _ => .pure _ hst)
  exact .consume_then hst (kind_ne_eof_of_isName hn) fun _ => .range_bind fun _ hr => .refuse
    ((Stays.hostExpression _ _ hr).bind fun _ => .pure _)

/-- Two ways to read the blocks inside, which come to the same while at most `n` tokens are to come. -/
def BlocksAgree (base : Ground) (n : Nat) (block block' : Bool → Reader Block) : Prop :=
  ∀ j ≤ n, ∀ boundary, Agree base j (block boundary) (block' boundary)

theorem BlocksAgree.mono {block block' : Bool → Reader Block} (h : BlocksAgree base n block block') (hle : k ≤ n) :
    BlocksAgree base k block block' := fun j hj => h j (Nat.le_trans hj hle)

variable {block block' : Bool → Reader Block}

theorem armBody_agree (hb : BlocksAgree base n block block') (anchor : Token) :
    Agree base n (armBody keyword block anchor) (armBody keyword block' anchor) := by
  refine fun st hst => .peek_bind (.ite (fun _ => hb n (Nat.le_refl n) false hst) fun _ =>
    .ite (fun _ => Agree.fail _ _ hst) fun _ => .ite (fun hn => ?_) fun _ => ?_)
  · exact (escape_stays hst hn).bind (Nat.le_refl _) fun _ _ _ hs => .pure _ hs
  · refine Agree.range_bind (fun r hr => .ite ?_ ?_) hst
    · exact (Stays.hostSimple hr).bind fun _ => .pure _
    · exact (Stays.hostExpression _ _ hr).bind fun _ => .pure _

/-- What comes after the pattern of an arm. -/
def armRest (keyword : String) (block : Bool → Reader Block) (first : Token) (pattern : Pattern) : Reader Arm := do
  let guard ← guard? keyword
  if (← peek).kind != .arrow then fail .noArrow (← peek).span
  let arrow ← consume
  skipNewlines
  let body ← armBody keyword block arrow
  return .mk pattern guard body (first.span.through (← BlockReader.last).span) false

theorem armRest_agree (hb : BlocksAgree base n block block') (first : Token) (pattern : Pattern) :
    Agree base n (armRest keyword block first pattern) (armRest keyword block' first pattern) := by
  refine guard?_stays.bind fun guard st hst => .peek_bind (.ite (fun _ => ?_) fun harrow => ?_)
  · exact (Stays.peek.bind fun _ => .failed _ _) hst
  · have hn : st.next.kind ≠ .eof := by
      intro heof
      simp [heof] at harrow
    exact .consume_then hst hn fun arrow => Stays.skipNewlines.bind fun _ =>
      (armBody_agree (hb.mono (Nat.sub_le n 1)) arrow).bind fun _ => Stays.last.bind fun _ => .pure _

theorem arm_agree (hb : BlocksAgree base n block block') :
    Agree base n (arm keyword block) (arm keyword block') := by
  refine Stays.peek.bind fun first => .range_bind fun r hr => Stays.peek.bind fun next => .refuse ?_
  refine .ite (.ite ?_ (.failed _ _)) ?_
  · exact (Agree.pure _).bind fun pattern => armRest_agree hb first pattern
  · exact (Stays.hostPattern hr).bind fun pattern => armRest_agree hb first pattern

theorem next_of_within_zero (hst : Within base 0 st) : st.next = st.stop := by
  rw [State.next, List.eq_nil_of_length_eq_zero (Nat.le_zero.1 hst.few)]
  rfl

theorem outcome_moreArms_none (h : st.next.isSymbol "," = false) (fuel : Nat) :
    outcome (moreArms keyword block fuel) st = (.ok [], st) := by
  cases fuel with
  | zero => rfl
  | succ fuel =>
    change outcome (if st.next.isSymbol "," = true then _ else pure []) st = _
    rw [if_neg (by simp [h])]
    rfl

/-- Every arm after the first takes a comma, so there are no more of them than tokens. -/
theorem moreArms_agree {fuel fuel' : Nat} (hb : BlocksAgree base n block block') (hf : n ≤ fuel) (hf' : n ≤ fuel') :
    Agree base n (moreArms keyword block fuel) (moreArms keyword block' fuel') := by
  induction n generalizing fuel fuel' with
  | zero =>
    intro st hst
    have hcomma : st.next.isSymbol "," = false := by
      simp [next_of_within_zero hst, Token.isSymbol, hst.sound.stop]
    exact (AgreeAt.pure [] hst).of_outcome (outcome_moreArms_none hcomma _) (outcome_moreArms_none hcomma _)
  | succ n ih =>
    obtain ⟨f, rfl⟩ := Nat.exists_eq_add_of_le' hf
    obtain ⟨f', rfl⟩ := Nat.exists_eq_add_of_le' hf'
    have hb' := hb.mono (Nat.le_succ n)
    refine fun st hst => .atSymbol_bind (.ite (fun hn => ?_) fun _ => .pure _ hst)
    exact .consume_then hst (kind_ne_eof_of_isSymbol hn) fun _ => Stays.skipNewlines.bind fun _ =>
      Stays.atStatementEnd.bind fun _ => .refuse ((arm_agree hb').bind fun _ =>
        (ih hb' (Nat.le_add_left n f) (Nat.le_add_left n f')).bind fun _ => .pure _)

theorem arms_agree (hb : BlocksAgree base n block block') (word : Token) :
    Agree base n (arms keyword block word) (arms keyword block' word) := by
  refine Stays.skipNewlines.bind fun _ => Stays.atStatementEnd.bind fun _ => .refuse fun st hst => .get_bind ?_
  refine .ite (fun _ => ?_) fun _ => ?_
  · refine AgreeAt.mono ?_ hst.few
    have hb' := hb.mono hst.few
    exact ((arm_agree hb').bind fun _ =>
      (moreArms_agree hb' (Nat.le_refl _) (Nat.le_refl _)).bind fun _ => .pure _) hst.here
  · exact (Stays.peek.bind fun _ => (armBody_agree hb _).bind fun _ => Stays.last.bind fun _ => .pure _) hst

/-- The statement has a `match` that belongs to the `let`, so the word after the pattern is no end of the text. -/
theorem letMatch_agree (hb : BlocksAgree base n block block') (hst : Within base n st)
    (hn : st.next.isName "let" = true)
    (hfound : (before? (fun ts => ts.head?.any fun u => u.isName "match") 0 st.rest).isSome = true) :
    AgreeAt base n st (letMatch keyword block) (letMatch keyword block') := by
  have hs := hst.sound
  refine .consume_bind hst (kind_ne_eof_of_isName hn) fun word s₁ hc hw₁ => ?_
  obtain ⟨u, hu, hm₁⟩ := consume_name hc hs hn
  refine (Stays.range keyword _ hw₁).bind (Nat.le_refl _) fun r s₂ hr hw₂ => .ite (fun _ => Agree.failed _ _ hw₂)
    fun _ => ?_
  obtain ⟨hm₂, -, hx, -⟩ := hr.range_moved hw₁.sound
  refine (Stays.hostPattern (hw₁.isInfix ⟨_, hm₂.rest.symm⟩) hw₂).bind (Nat.le_refl _) fun primary s₃ hp hw₃ => ?_
  have hmatch : s₃.next.isName "match" = true := by
    rw [(still_hostPattern r hp).next_eq]
    exact next_of_letPattern hfound hu hm₁ hm₂ hx
  refine .consume_then hw₃ (kind_ne_eof_of_isName hmatch) fun _ => .range_bind fun _ hr =>
    .refuse ((Stays.hostExpression _ _ hr).bind fun _ st hst => .atName_bind (.ite (fun helse => ?_) fun _ => ?_))
  · exact .consume_then hst (kind_ne_eof_of_isName helse) fun _ =>
      (arms_agree (hb.mono (by omega)) _).bind fun _ => Stays.last.bind fun _ => .pure _
  · exact ((Agree.pure _).bind fun _ => Stays.last.bind fun _ => .pure _) hst

theorem branch_agree (hb : BlocksAgree base n block block') (role : FragmentRole) :
    Agree base n (branch keyword block role) (branch keyword block' role) :=
  (header_stays _ _).bind fun _ => (hb n (Nat.le_refl n) false).bind fun _ => .pure _

theorem outcome_moreBranches_none (h : st.rest = []) (hstop : st.stop.kind = .eof) (fuel : Nat) :
    outcome (moreBranches keyword block fuel) st = (.ok ([], none), st) := by
  have hword (w : String) : st.next.isName w = false := by simp [State.next, h, Token.isName, hstop]
  have hskip : outcome skipNewlines st = (.ok (), st) := by
    cases st
    cases h
    rfl
  cases fuel with
  | zero => rfl
  | succ fuel =>
    have hget : outcome (get : Reader State) st = (.ok st, st) := rfl
    rw [moreBranches, outcome_bind_ok hget, outcome_bind_ok hskip]
    change outcome (if st.next.isName "elif" = true then _ else _) st = _
    rw [if_neg (by simp [hword])]
    change outcome (if st.next.isName "else" = true then _ else _) st = _
    rw [if_neg (by simp [hword])]
    rfl

/-- Every branch after the first takes a word, so there are no more of them than tokens. -/
theorem moreBranches_agree {fuel fuel' : Nat} (hb : BlocksAgree base n block block') (hf : n ≤ fuel) (hf' : n ≤ fuel') :
    Agree base n (moreBranches keyword block fuel) (moreBranches keyword block' fuel') := by
  induction n generalizing fuel fuel' with
  | zero =>
    intro st hst
    have hrest := List.eq_nil_of_length_eq_zero (Nat.le_zero.1 hst.few)
    have hstop := hst.sound.stop
    exact (AgreeAt.pure ([], none) hst).of_outcome (outcome_moreBranches_none hrest hstop _)
      (outcome_moreBranches_none hrest hstop _)
  | succ n ih =>
    obtain ⟨f, rfl⟩ := Nat.exists_eq_add_of_le' hf
    obtain ⟨f', rfl⟩ := Nat.exists_eq_add_of_le' hf'
    have hb' := hb.mono (Nat.le_succ n)
    have hmore (role : FragmentRole) : Agree base n
        (do
          let b ← branch keyword block role
          let p ← moreBranches keyword block (f + n)
          return (b :: p.1, p.2))
        (do
          let b ← branch keyword block' role
          let p ← moreBranches keyword block' (f' + n)
          return (b :: p.1, p.2)) :=
      (branch_agree hb' role).bind fun _ => (ih hb' (Nat.le_add_left n f) (Nat.le_add_left n f')).bind fun _ => .pure _
    refine .get_bind fun before hbefore => Stays.skipNewlines.bind fun _ st hst => .atName_bind
      (.ite (fun hn => .consume_then hst (kind_ne_eof_of_isName hn) fun _ => hmore _) fun _ => .atName_bind
        (.ite (fun hn => ?_) fun _ => ?_))
    · refine .consume_then hst (kind_ne_eof_of_isName hn) fun _ st hst => .atName_bind
        (.ite (fun hn => ?_) fun _ => ?_)
      · exact (AgreeAt.consume hst (kind_ne_eof_of_isName hn)).bind (Nat.sub_le n 1)
          fun _ _ _ hs => hmore _ (hs.mono (Nat.sub_le n 1))
      · exact ((hb' n (Nat.le_refl n) false).bind fun _ => .pure _) hst
    · exact (AgreeAt.set hbefore).bind (Nat.le_refl _) fun _ _ _ hs => .pure _ hs

theorem conditional_agree (hb : BlocksAgree base n block block') (hst : Within base n st)
    (hn : st.next.isName "if" = true) :
    AgreeAt base n st (conditional keyword block) (conditional keyword block') := by
  have hb' := hb.mono (Nat.sub_le n 1)
  refine .consume_then hst (kind_ne_eof_of_isName hn) fun _ => (branch_agree hb' _).bind fun _ st hst =>
    .get_bind ?_
  refine AgreeAt.mono ?_ hst.few
  exact ((moreBranches_agree (hb'.mono hst.few) (Nat.le_refl _) (Nat.le_refl _)).bind fun _ =>
    Stays.last.bind fun _ => .pure _) hst.here

theorem whileLoop_agree (hb : BlocksAgree base n block block') (hst : Within base n st)
    (hn : st.next.isName "while" = true) :
    AgreeAt base n st (whileLoop keyword block) (whileLoop keyword block') :=
  .consume_then hst (kind_ne_eof_of_isName hn) fun _ => (header_stays _ _).bind fun _ =>
    (hb _ (Nat.sub_le n 1) false).bind fun _ => Stays.last.bind fun _ => .pure _

theorem forLoop_agree (hb : BlocksAgree base n block block') (hst : Within base n st)
    (hn : st.next.isName "for" = true) :
    AgreeAt base n st (forLoop keyword block) (forLoop keyword block') := by
  refine .consume_then hst (kind_ne_eof_of_isName hn) fun _ => .range_bind fun r hr st hst =>
    .atName_bind (.ite (fun _ => Agree.failed _ _ hst) fun hin => ?_)
  refine (Stays.hostTarget hr hst).bind (Nat.le_refl _) fun _ s ht hs => ?_
  have hnext : s.next.isName "in" = true := by
    rw [(still_hostTarget r ht).next_eq]
    simp only [Bool.or_eq_true, Bool.not_eq_true', not_or, Bool.not_eq_false] at hin
    exact hin.2
  exact .consume_then hs (kind_ne_eof_of_isName hnext) fun _ => (header_stays _ _).bind fun _ =>
    (hb _ (by omega) false).bind fun _ => Stays.last.bind fun _ => .pure _

theorem nestedBlock_agree {before : List SpacedToken} (hb : BlocksAgree base n block block') (hst : Within base n st)
    (hfound : before? (startsBlock keyword) 0 st.rest = some before) :
    AgreeAt base n st (nestedBlock keyword block before) (nestedBlock keyword block' before) := by
  obtain ⟨more, hrest, hstarts⟩ := before?_spec hfound
  have hbefore : before <+: st.rest := ⟨more, hrest.symm⟩
  refine .peek_bind ((AgreeAt.advance hst hbefore).bind (Nat.le_refl _) fun _ s₁ hadv hs₁ => .peek_bind ?_)
  refine (Stays.sinkBefore keyword _ (fun h => base.readable h _ (hst.isInfix hbefore)) hs₁).bind (Nat.le_refl _)
    fun sink s₂ hsink hs₂ => ?_
  have hword : s₂.next.isName keyword = true := by
    obtain ⟨k, brace, _, hmore, hk, -⟩ := startsBlock_spec hstarts
    have hm₁ := hadv.advance_moved hbefore
    have : s₁.rest = more := List.append_cancel_left (hm₁.rest.symm.trans hrest)
    rw [(still_sinkBefore _ _ _ hsink).next_eq]
    simpa [State.next, this, hmore] using hk
  exact .consume_then hs₂ (kind_ne_eof_of_isName hword) fun _ => (hb _ (Nat.sub_le n 1) true).bind fun _ =>
    Stays.atStatementEnd.bind fun _ => .ite (Stays.peek.bind fun _ => .failed _ _) (Stays.last.bind fun _ => .pure _)

theorem statement_agree (hb : BlocksAgree base n block block') :
    Agree base n (statement keyword block) (statement keyword block') := by
  refine fun st hst => .peek_bind (.get_bind (.ite (fun hn => ?_) fun _ => .ite (fun hn => ?_) fun _ =>
    .ite (fun hn => ?_) fun _ => .ite (fun hn => whileLoop_agree hb hst hn) fun _ =>
      .ite (fun hn => forLoop_agree hb hst hn) fun _ => ?_))
  · exact (escape_stays hst hn).bind (Nat.le_refl _) fun _ _ _ hs => .pure _ hs
  · rw [Bool.and_eq_true] at hn
    exact letMatch_agree hb hst hn.1 hn.2
  · exact (conditional_agree hb hst hn).bind (Nat.le_refl _) fun _ _ _ hs => .pure _ hs
  · split
    · exact nestedBlock_agree hb hst ‹_›
    · exact Agree.range_bind (fun r hr => (Stays.hostSimple hr).bind fun _ => .pure _) hst

theorem pos_of_next (hst : Within base n st) (hn : st.next.kind ≠ .eof) : 0 < n := by
  refine Nat.pos_of_ne_zero fun hzero => hn ?_
  subst hzero
  rw [next_of_within_zero hst]
  exact hst.sound.stop

end Statements

/-! ### Every statement takes a token -/

/-- The host finds no statement in an empty range. -/
theorem hostSimple_ne_nil {r : Range} {s : Simple} {st' : State} (h : Yields (hostSimple r) st s st') :
    r.tokens ≠ [] := by
  intro hnil
  obtain ⟨text, s₁, htext, hy⟩ := Yields.bind_iff.1 h
  obtain ⟨t, s₂, htree, -⟩ := Yields.bind_iff.1 hy
  obtain rfl := hostText_text htext
  refine Host.toList_ne_nil_of_readStatement (hostTree_yields htree) ?_
  simp [hnil, Fragment.text, Fragment.ofTokens, Fragment.items, Fragment.textFrom]

/-- Of all fragments, statements of the host have tokens. -/
def sized : Fragments := { Fragments.any with simple := fun _ ts => ts ≠ [] }

theorem sized_read : sized.Read :=
  { Fragments.any_read with simple := fun _ h => hostSimple_ne_nil h, tail := fun _ _ _ => trivial }

variable {keyword : String} {block block' : Bool → Reader Block}

theorem ne_nil_of_statementLayout {s : Statement} {ts : List SpacedToken} (h : StatementLayout keyword sized s ts) :
    ts ≠ [] := by
  cases h with
  | simple h => exact h
  | escape h =>
    cases h
    exact List.cons_ne_nil _ _
  | conditional h =>
    cases h
    exact List.cons_ne_nil _ _
  | letMatch => exact List.cons_ne_nil _ _
  | whileLoop => exact List.cons_ne_nil _ _
  | forLoop => exact List.cons_ne_nil _ _
  | nested => exact List.append_ne_nil_of_right_ne_nil _ (List.cons_ne_nil _ _)

theorem statement_progress {s : Statement} {st' : State} (hread : ∀ b, Reads (block b) (BlockLayout keyword sized))
    (hs : Sound st) (h : Yields (statement keyword block) st s st') : st'.rest.length < st.rest.length := by
  obtain ⟨ts, hm, hlayout⟩ := statement_moved sized_read hread hs h
  rw [hm.rest, List.length_append]
  have := List.length_pos_of_ne_nil (ne_nil_of_statementLayout hlayout)
  omega

/-! ### Blocks -/

section Blocks

/-- Every statement takes a token, so there are no more of them than tokens. -/
theorem statements_agree {fuel fuel' : Nat} (hread : ∀ b, Reads (block b) (BlockLayout keyword sized))
    (hb : BlocksAgree base n block block') (opener : Token) (hf : n < fuel) (hf' : n < fuel') :
    Agree base n (statements keyword block opener fuel) (statements keyword block' opener fuel') := by
  induction fuel generalizing fuel' n with
  | zero => omega
  | succ fuel ih =>
    obtain ⟨f', rfl⟩ := Nat.exists_eq_add_of_lt hf'
    refine Stays.skipSeparators.bind fun _ st hst => .peek_bind (.ite (fun _ => Agree.failed _ _ hst) fun _ =>
      .ite (fun _ => .pure _ hst) fun _ => (statement_agree hb hst).bind (Nat.le_refl _) fun s st' hy hst' => ?_)
    have hlt := statement_progress hread hst.sound hy
    have hfew := hst.few
    refine AgreeAt.mono (k := st'.rest.length) ?_ (by omega)
    have hmore := @ih st'.rest.length (n + f') (hb.mono (by omega)) (by omega) (by omega)
    exact (Stays.atStatementEnd.bind fun _ => .ite (Stays.peek.bind fun _ => Stays.peek.bind fun _ => .failed _ _)
      (hmore.bind fun _ => .pure _)) hst'.here

theorem blockBody_agree (hread : ∀ b, Reads (block b) (BlockLayout keyword sized))
    (hb : 0 < n → BlocksAgree base (n - 1) block block') (boundary : Bool) :
    Agree base n (blockBody keyword block boundary) (blockBody keyword block' boundary) := by
  refine fun st hst => .peek_bind (.ite (fun _ => Agree.failed _ _ hst) fun heof =>
    .ite (fun _ => Agree.failed _ _ hst) fun _ => ?_)
  have hn : st.next.kind ≠ .eof := by simpa using heof
  have hb := hb (pos_of_next hst hn)
  refine .consume_bind hst hn fun opener s₁ _ hs₁ => .get_bind ?_
  have hstatements := statements_agree hread (hb.mono hs₁.few) opener (Nat.lt_succ_self _) (Nat.lt_succ_self _)
  refine AgreeAt.mono ?_ hs₁.few
  refine (hstatements hs₁.here).bind (Nat.le_refl _) fun ss s₂ hss hs₂ => ?_
  -- the statements end before the closing brace
  obtain ⟨-, -, -, hclose⟩ := statements_moved sized_read hread _ hs₁.sound hss
  exact .consume_then hs₂ (kind_ne_eof_of_isSymbol hclose) fun _ => .pure _

/-- With any bound above the number of tokens to come, blocks inside one another are read alike. -/
theorem blockAt_agree {depth depth' : Nat} (hd : n < depth) (hd' : n < depth') (boundary : Bool) :
    Agree base n (blockAt keyword depth boundary) (blockAt keyword depth' boundary) := by
  induction depth generalizing depth' n boundary with
  | zero => omega
  | succ depth ih =>
    obtain ⟨d', rfl⟩ := Nat.exists_eq_add_of_lt hd'
    refine blockBody_agree (blockAt_moved sized_read depth) (fun hpos j hj => ?_) boundary
    exact ih (by omega) (by omega)

theorem outcome_nextBlock (boundary : Bool) :
    outcome (nextBlock keyword boundary) st = outcome (blockAt keyword (st.rest.length + 1) boundary) st := by
  have hget : outcome (get : Reader State) st = (.ok st, st) := rfl
  rw [nextBlock, outcome_bind_ok hget]

/-- What holds of the block at the depth that the number of tokens gives holds of the block that comes next. -/
theorem AgreeAt.nextBlock {m : Reader Block} {boundary : Bool} (hst : Within base n st)
    (h : AgreeAt base st.rest.length st (blockAt keyword (st.rest.length + 1) boundary) m) :
    AgreeAt base n st (nextBlock keyword boundary) m := (h.mono hst.few).of_outcome (outcome_nextBlock boundary) rfl

theorem nextBlock_agree {depth : Nat} (hd : n < depth) (boundary : Bool) :
    Agree base n (nextBlock keyword boundary) (blockAt keyword depth boundary) := by
  intro st hst
  have hlt : st.rest.length < depth := Nat.lt_of_le_of_lt hst.few hd
  exact .nextBlock hst (blockAt_agree (Nat.lt_succ_self _) hlt boundary hst.here)

theorem nextBlock_stays (boundary : Bool) : Stays base n (nextBlock keyword boundary) :=
  fun _ hst => (nextBlock_agree (Nat.lt_succ_self n) boundary hst).left

/-- A block is read as its own blocks are: the bound on blocks inside one another is not seen. -/
theorem nextBlock_unfold (boundary : Bool) : Agree base n (nextBlock keyword boundary)
    (blockBody keyword (nextBlock keyword) boundary) := by
  intro st hst
  refine .nextBlock hst (blockBody_agree (blockAt_moved sized_read _) (fun hpos j hj boundary => ?_) boundary
    hst.here)
  exact (nextBlock_agree (by omega) boundary).symm

theorem wholeText_stays : Stays base n (wholeText keyword) := by
  have hrest : Stays base n (do
      let b ← nextBlock keyword true
      skipNewlines
      let t ← peek
      if t.kind != .eof then fail (.afterBlock t.text) t.span
      return b) :=
    (nextBlock_stays true).bind fun _ => Stays.skipNewlines.bind fun _ => Stays.peek.bind fun _ =>
      .refuse (.pure _)
  refine Stays.skipNewlines.bind fun _ st hst => .atName_bind (.ite (fun hn => ?_) fun _ => hrest hst)
  exact (AgreeAt.consume hst (kind_ne_eof_of_isName hn)).bind (Nat.sub_le n 1)
    fun _ _ _ hs => hrest (hs.mono (Nat.sub_le n 1))

end Blocks

end BlockReader

/-! ### Sites -/

namespace Site

open BlockReader

variable {keyword : String} {before : List SpacedToken} {depth n : Nat} {base : Ground} {st : State}

theorem content?_stays {indent : String} (hst : Within base n st) (hstarts : startsBlock keyword st.rest = true)
    (hbefore : base.calm → ¬ Unreadable before) :
    AgreeAt base n st (content? keyword before depth indent) (content? keyword before depth indent) := by
  refine .peek_bind (.ite (fun _ => Agree.failed _ _ hst) fun _ => ?_)
  refine (Stays.sinkBefore keyword _ hbefore hst).bind (Nat.le_refl _) fun sink s hsink hs => ?_
  have hword : s.next.isName keyword = true := by
    obtain ⟨k, brace, _, hrest, hk, -⟩ := startsBlock_spec hstarts
    rw [(still_sinkBefore _ _ _ hsink).next_eq]
    simpa [State.next, hrest] using hk
  exact .consume_then hs (kind_ne_eof_of_isName hword) fun _ => (nextBlock_stays true).bind fun _ =>
    Stays.peek.bind fun _ => .refuse (.pure _)

theorem read_stays (hst : Within base n st) (hstarts : startsBlock keyword st.rest = true) (hcalm : ¬ base.calm) :
    AgreeAt base n st (read keyword before depth) (read keyword before depth) := by
  refine ⟨rfl, ?_, fun h => absurd h hcalm⟩
  change Within base n (read keyword before depth st).2
  have hcontent : Within base n
      ((content? keyword before depth (lastLine ((before ++ st.rest).headD default).gap)).run st).2 :=
    (content?_stays hst hstarts fun h => absurd h hcalm).stays
  unfold read
  dsimp only
  split
  · rename_i c s₁ hc
    rwa [hc] at hcontent
  · -- the site is left after its braces
    obtain ⟨k, hm⟩ := throughBraces_moved hstarts _
    exact hst.step hm (Nat.le_add_right n _)
  · rename_i e s₁ _ hc
    rwa [hc] at hcontent

/-- The walk takes a token with every step, so it ends by itself. -/
theorem locateFrom_agree {fuel fuel' : Nat} (hcalm : ¬ base.calm) (hf : n < fuel) (hf' : n < fuel') :
    Agree base n (locateFrom keyword fuel before depth) (locateFrom keyword fuel' before depth) := by
  induction fuel generalizing fuel' n before depth with
  | zero => omega
  | succ fuel ih =>
    obtain ⟨f', rfl⟩ := Nat.exists_eq_add_of_lt hf'
    refine fun st hst => .get_bind ?_
    have hfew := hst.few
    cases hrest : st.rest with
    | nil => exact .pure _ hst
    | cons t rest =>
      rw [hrest, List.length_cons] at hfew
      have hm : Moved st [t] { st with rest := rest, last := t.toToken } := ⟨hrest, rfl, rfl⟩
      have hset : AgreeAt base (n - 1) st (set _ : Reader PUnit) (set _) :=
        .set (hst.step hm (by rw [List.length_singleton]; omega))
      have hstep {before : List SpacedToken} {depth : Nat} : Agree base (n - 1)
          (locateFrom keyword fuel before depth) (locateFrom keyword (n + f') before depth) :=
        ih (by omega) (by omega)
      refine .ite (fun _ => ?_) fun _ => .ite (fun hstarts => ?_) fun _ => ?_
      · exact .mono (hset.bind (Nat.le_refl _) fun _ _ _ hs => hstep hs) (Nat.sub_le n 1)
      · rw [← hrest] at hstarts
        refine (read_stays hst hstarts hcalm).bind (Nat.le_refl _) fun site s hread hs => .get_bind ?_
        -- reading a site takes its keyword at least
        obtain ⟨ts, hts, htaken, -⟩ := read_spec hst.sound hstarts hread
        have hlength := congrArg List.length htaken
        have hpos := List.length_pos_of_ne_nil hts
        rw [List.length_append, hrest, List.length_cons] at hlength
        have hs' : Within base (n - 1) s := ⟨hs.sound, hs.moved, by omega⟩
        exact .mono ((hstep hs').bind (Nat.le_refl _) fun _ _ _ hs => .pure _ hs) (Nat.sub_le n 1)
      · exact .mono (hset.bind (Nat.le_refl _) fun _ _ _ hs => hstep hs) (Nat.sub_le n 1)

end Site

end DoBlocks
