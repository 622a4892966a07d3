import DoBlocks.Proofs.Adjacency
import DoBlocks.Proofs.HostReading
import DoBlocks.Proofs.Splitting

/-!
# The two lexers side by side

The host reads a text lexeme by lexeme. Between two lexemes stands a gap, and each lexeme is a token of the
block language, so a text that the host can cut splits into tokens if it is readable at all. If neighbours
fit, no name is followed by an opening brace there.
-/

namespace DoBlocks.Host.Lexer

open DoBlocks.Lexer (Readable Splits Gap Cut visible)

variable {st st' : State} {cs cs' usual : List Char}
variable {l : Lexeme} {text rest : List Char} {width count : Nat} {c : Char}

/-! ### What a step takes -/

/-- The host takes the lexeme `l` from the front of a text. -/
inductive Takes : List Char → Lexeme → List Char → Prop
  | string {cs marks quote : List Char} {fuel m : Nat} {l : Lexeme} :
    stringOpening .strict cs = some (marks, quote) →
    stringBody quote fuel (marks.length + quote.length) (cs.drop (marks.length + quote.length)) = some m →
    l.kind = .string → Takes cs l (cs.drop m)
  | number {c : Char} {rest : List Char} {n : Nat} {l : Lexeme} :
    (c.isDigit || (c == '.' && (rest.head?.map Char.isDigit).getD false)) = true →
    number (c :: rest) = some n → endsNumber ((c :: rest).drop n) = true →
    l.kind = .number → Takes (c :: rest) l ((c :: rest).drop n)
  | name {c : Char} {rest word : List Char} {l : Lexeme} :
    stringOpening .strict (c :: rest) = none → isWordLike c = true → word = (c :: rest).takeWhile isWordLike →
    Text.isIdentifier (String.ofList word) = true →
    l.kind = .name → l.text = String.ofList word → Takes (c :: rest) l ((c :: rest).drop word.length)
  | operator {c : Char} {rest o : List Char} {l : Lexeme} :
    (c == '.' && (rest.head?.map Char.isDigit).getD false) = false →
    operators.find? (fun o => o.isPrefixOf (c :: rest)) = some o →
    l.kind = .operator → l.text = String.ofList o → Takes (c :: rest) l ((c :: rest).drop o.length)

theorem Takes.kind_ne_stop (h : Takes cs l cs') : l.kind ≠ .stop := by
  cases h <;> simp_all

/-- After a lexeme the line has begun, and no string is open. -/
structure After (st : State) (l : Lexeme) (st' : State) : Prop where
  lexemes : st'.lexemes = l :: st.lexemes
  joined : st'.joined = []
  lineStart : st'.lineStart = false

theorem operator_after (hj : st.joined = []) (h : st.operator usual text = some st') :
    ∃ l, l.kind = .operator ∧ l.text = String.ofList text ∧ After st l st' := by
  have hemit : ∃ l, l.kind = .operator ∧ l.text = String.ofList text ∧ After st l (st.emit usual .operator text) :=
    ⟨_, rfl, rfl, rfl, hj, rfl⟩
  unfold State.operator at h
  split at h
  · split at h
    · cases h
      obtain ⟨l, hkind, htext, hafter⟩ := hemit
      exact ⟨l, hkind, htext, hafter.lexemes, by simp [hj], hafter.lineStart⟩
    · split at h
      · split at h
        · split at h
          · cases h
            obtain ⟨l, hkind, htext, hafter⟩ := hemit
            exact ⟨l, hkind, htext, hafter.lexemes, by simp [hj], hafter.lineStart⟩
          · cases h
        · cases h
      · cases h
        exact hemit
  · cases h
    exact hemit

theorem lexWord_takes (hj : st.joined = []) (h : lexWord .strict usual st cs = some (st', cs')) :
    ∃ l, Takes cs l cs' ∧ After st l st' := by
  unfold lexWord at h
  split at h
  · rename_i marks quote hopening
    simp only [show (Dialect.strict == Dialect.tolerant) = false from rfl, Bool.false_and, Bool.false_eq_true,
      if_false] at h
    obtain ⟨m, hm, heq⟩ := Option.map_eq_some_iff.1 h
    cases heq
    exact ⟨_, .string hopening hm rfl, rfl, hj, rfl⟩
  · rename_i hopening
    split at h
    · cases h
    · rename_i c rest
      split at h
      · rename_i hstart
        obtain ⟨n, hn, hrest⟩ := Option.bind_eq_some_iff.1 h
        split at hrest
        · cases hrest
        · rename_i hends
          cases hrest
          refine ⟨_, .number hstart hn (by simpa using hends) rfl, rfl, hj, rfl⟩
      · rename_i hstart
        split at h
        · rename_i hc
          extract_lets word at h
          split at h
          · rename_i hidentifier
            cases h
            exact ⟨_, .name hopening hc rfl hidentifier rfl rfl, rfl, hj, rfl⟩
          · cases h
        · extract_lets startsSpec at h
          have hspec : startsSpec = false := by
            simp only [startsSpec, hj]
          simp only [hspec, Bool.false_eq_true, if_false] at h
          split at h
          · rename_i o ho
            obtain ⟨st₁, hop, heq⟩ := Option.map_eq_some_iff.1 h
            cases heq
            obtain ⟨l, hkind, htext, hafter⟩ := operator_after hj hop
            refine ⟨l, .operator ?_ ho hkind htext, hafter⟩
            rw [Bool.or_eq_true, not_or] at hstart
            exact Bool.eq_false_iff.2 hstart.2
          · cases h

/-! ### What stands before it -/

theorem continuedBlanks_gap (fuel first width count : Nat) (cs : List Char) :
    (continuedBlanks fuel first width count cs).1 <+: cs ∧
      Gap cs (cs.drop (continuedBlanks fuel first width count cs).1.length) := by
  induction fuel generalizing first width count cs with
  | zero => exact ⟨List.nil_prefix, .refl cs⟩
  | succ fuel ih =>
    have hall : ∀ c ∈ cs.takeWhile isInlineBlank, isInlineBlank c = true := fun c hc =>
      List.all_eq_true.1 List.all_takeWhile c hc
    have hcs := List.prefix_iff_eq_append.1 (List.takeWhile_prefix isInlineBlank (l := cs))
    have hblanks : Gap cs (cs.drop (cs.takeWhile isInlineBlank).length) := by
      have := @Gap.blanks (cs.drop (cs.takeWhile isInlineBlank).length) _ hall
      rwa [hcs] at this
    rw [continuedBlanks]
    dsimp only
    generalize cs.drop (cs.takeWhile isInlineBlank).length = rest at hcs hblanks ⊢
    generalize cs.takeWhile isInlineBlank = blanks at hcs ⊢
    split
    · rename_i hcontinued
      simp only [Bool.and_eq_true, beq_iff_eq, bne_iff_ne] at hcontinued
      obtain ⟨⟨hslash, hbreak⟩, -⟩ := hcontinued
      obtain ⟨rest, rfl⟩ := List.head?_eq_some_iff.1 hslash
      simp only [List.drop_succ_cons, List.drop_zero] at hbreak ⊢
      generalize hfirst : (if (first == 0) = true then (measure width count blanks).1 else first) = first'
      obtain ⟨⟨after, hafter⟩, hmore⟩ :=
        ih first' (measure width count blanks).1 (measure width count blanks).2 (rest.drop (breakLength rest))
      generalize continuedBlanks fuel first' (measure width count blanks).1 (measure width count blanks).2
        (rest.drop (breakLength rest)) = leading at hafter hmore ⊢
      have hall : cs = (blanks ++ ('\\' :: rest).take (breakLength rest + 1) ++ leading.1) ++ after := by
        rw [← hcs, List.append_assoc, List.append_assoc, hafter, List.take_succ_cons, List.cons_append,
          List.take_append_drop]
      have hdrop := congrArg (List.drop leading.1.length) hafter
      rw [List.drop_left] at hdrop
      rw [← hdrop] at hmore
      refine ⟨⟨after, hall.symm⟩, ?_⟩
      have hend := congrArg (List.drop (blanks ++ ('\\' :: rest).take (breakLength rest + 1) ++ leading.1).length) hall
      rw [List.drop_left] at hend
      rw [hend]
      exact (hblanks.trans (.continued hbreak)).trans hmore
    · refine ⟨⟨rest, hcs⟩, ?_⟩
      have hdrop := congrArg (List.drop blanks.length) hcs
      rw [List.drop_left] at hdrop
      rw [← hdrop]
      exact hblanks

/-- Marks of indentation. -/
structure Indents (st st' : State) : Prop where
  lexemes : ∃ marks, st'.lexemes = marks ++ st.lexemes ∧ ∀ m ∈ marks, m.kind ≠ .stop
  joined : st'.joined = st.joined
  lineStart : st'.lineStart = st.lineStart

theorem Indents.refl (st : State) : Indents st st := ⟨⟨[], rfl, nofun⟩, rfl, rfl⟩

theorem Indents.mark {kind : LexemeKind} (hkind : kind ≠ .stop) (h : Indents (st.mark kind text) st') :
    Indents st st' := by
  obtain ⟨⟨marks, hmarks, hkinds⟩, hjoined, hline⟩ := h
  refine ⟨⟨marks ++ [⟨kind, String.ofList text, [], st.offset, st.offset⟩], ?_, fun m hm => ?_⟩, hjoined, hline⟩
  · rw [hmarks, List.append_assoc]
    rfl
  · rcases List.mem_append.1 hm with hm | hm
    · exact hkinds m hm
    · rw [List.mem_singleton.1 hm]
      exact hkind

theorem closeLevels_indents {levels : List Level} (h : closeLevels width count levels st = some st') :
    Indents st st' := by
  induction levels generalizing st with
  | nil =>
    unfold closeLevels at h
    split at h
    · cases h
      exact ⟨⟨[], rfl, List.forall_mem_nil _⟩, rfl, rfl⟩
    · cases h
  | cons l outer ih =>
    unfold closeLevels at h
    split at h
    · split at h
      · cases h
        exact ⟨⟨[], rfl, List.forall_mem_nil _⟩, rfl, rfl⟩
      · cases h
    · split at h
      · exact .mark (by decide) (ih h)
      · cases h

theorem indentTo_indents {blanks : List Char} (h : st.indentTo width count blanks = some st') :
    Indents st st' := by
  unfold State.indentTo at h
  dsimp only at h
  split at h
  · split at h
    · cases h
      exact .refl st
    · cases h
  · split at h
    · split at h
      · cases h
        exact .mark (by decide) ⟨⟨[], rfl, nofun⟩, rfl, rfl⟩
      · cases h
    · exact closeLevels_indents h

/-- What one step does: it skips a gap, ends a line, or takes a lexeme after a gap. Marks of indentation come only
at the start of a line. -/
inductive Moves : State → List Char → State → List Char → Prop
  | skip {st st' : State} {cs cs' : List Char} {marks : List Lexeme} :
    Gap cs cs' → st'.lexemes = marks ++ st.lexemes → (∀ m ∈ marks, m.kind ≠ .stop) →
    (st.lineStart = false → marks = [] ∧ st'.lineStart = false) → st'.joined = [] → Moves st cs st' cs'
  | line {st st' : State} {cs : List Char} {l : Lexeme} :
    breakLength cs ≠ 0 → l.kind = .newline → st'.lexemes = l :: st.lexemes → st'.joined = [] →
    Moves st cs st' (cs.drop (breakLength cs))
  | take {st st₁ st' : State} {cs cs₁ cs' : List Char} {marks : List Lexeme} {l : Lexeme} :
    Gap cs cs₁ → st₁.lexemes = marks ++ st.lexemes → (∀ m ∈ marks, m.kind ≠ .stop) →
    (st.lineStart = false → marks = []) → Takes cs₁ l cs' → After st₁ l st' → Moves st cs st' cs'

/-- A gap without marks. -/
theorem Moves.gap (hgap : Gap cs cs') (hlexemes : st'.lexemes = st.lexemes) (hline : st.lineStart = false → st'.lineStart = false)
    (hj : st'.joined = []) : Moves st cs st' cs' :=
  @Moves.skip st st' cs cs' [] hgap hlexemes nofun (fun h0 => ⟨rfl, hline h0⟩) hj

theorem step_moves (hj : st.joined = []) (h : step .strict usual st cs = some (st', cs')) : Moves st cs st' cs' := by
  unfold step at h
  simp only [hj] at h
  split at h
  · rename_i hline
    rw [Bool.and_eq_true] at hline
    have hstart {P : Prop} (h0 : st.lineStart = false) : P := by
      rw [hline.1] at h0
      cases h0
    obtain ⟨-, hgap⟩ := continuedBlanks_gap (cs.length + 1) 0 0 0 cs
    simp only [leadingBlanks, beq_self_eq_true, if_true] at h
    generalize continuedBlanks (cs.length + 1) 0 0 0 cs = leading at h hgap
    obtain ⟨blanks, width, count⟩ := leading
    dsimp only at h hgap
    split at h
    · rename_i hrest
      cases h
      rw [hrest] at hgap
      exact .gap hgap rfl hstart hj
    · rename_i c rest hrest
      rw [hrest] at hgap
      split at h
      · rename_i hc
        cases h
        obtain rfl := eq_of_beq hc
        exact .gap (hgap.trans (.comment rest)) rfl hstart hj
      split at h
      · obtain ⟨st₁, hindent, hrest'⟩ := Option.bind_eq_some_iff.1 h
        obtain ⟨⟨marks, hmarks, hkinds⟩, hjoined, -⟩ := indentTo_indents hindent
        split at hrest'
        · rename_i hc
          obtain rfl := eq_of_beq hc
          split at hrest'
          · cases hrest'
          · rename_i hbreak
            cases hrest'
            rw [Bool.or_eq_true, not_or] at hbreak
            exact .skip (hgap.trans (.continued (by simpa using hbreak.1))) hmarks hkinds hstart (hjoined.trans hj)
        · have hj' : (st₁.skip blanks).joined = [] := hjoined.trans hj
          obtain ⟨l, htakes, hafter⟩ := lexWord_takes hj' hrest'
          have hmarks' : (st₁.skip blanks).lexemes = marks ++ st.lexemes := hmarks
          exact .take hgap hmarks' hkinds hstart htakes hafter
      · rename_i hbreak
        cases h
        exact .gap (hgap.trans (.lineBreak (by simpa using hbreak))) rfl hstart hj
  · split at h
    · cases h
    · rename_i c rest
      split at h
      · rename_i hc
        cases h
        exact .gap (.blank hc) rfl id hj
      split at h
      · rename_i hc
        cases h
        obtain rfl := eq_of_beq hc
        exact .gap (.comment rest) rfl id hj
      split at h
      · rename_i hc
        obtain rfl := eq_of_beq hc
        split at h
        · cases h
        · rename_i hbreak
          cases h
          rw [Bool.or_eq_true, not_or] at hbreak
          exact .gap (.continued (by simpa using hbreak.1)) rfl id hj
      split at h
      · obtain ⟨l, htakes, hafter⟩ := lexWord_takes hj h
        exact @Moves.take st st st' _ _ _ [] l (.refl _) rfl nofun (fun _ => rfl) htakes hafter
      · rename_i hbreak
        have hbreak : breakLength (c :: rest) ≠ 0 := by simpa using hbreak
        split at h
        · cases h
          exact .line hbreak rfl rfl hj
        · cases h
          exact .gap (.lineBreak hbreak) rfl id hj

/-! ### What a run gives -/

variable {fuel : Nat} {ls : List Lexeme}

theorem run_cases (h : run .strict usual fuel st cs = some ls) :
    cs = [] ∧ st.finish usual = some ls ∨ ∃ fuel' st' cs', fuel = fuel' + 1 ∧
      step .strict usual st cs = some (st', cs') ∧ run .strict usual fuel' st' cs' = some ls := by
  cases cs with
  | nil =>
    rw [run] at h
    exact .inl ⟨rfl, h⟩
  | cons c rest =>
    cases fuel with
    | zero => cases h
    | succ fuel =>
      rw [run] at h
      · obtain ⟨⟨st', cs'⟩, hstep, hrun⟩ := Option.bind_eq_some_iff.1 h
        exact .inr ⟨fuel, st', cs', rfl, hstep, hrun⟩
      · exact List.cons_ne_nil c rest

/-- The lexemes `ls` go on after those of `st` and end with the only stop. -/
def Completed (st : State) (ls : List Lexeme) : Prop :=
  ∃ added stop, ls = st.lexemes.reverse ++ added ++ [stop] ∧ stop.kind = .stop ∧ ∀ l ∈ added, l.kind ≠ .stop

theorem Completed.before {added : List Lexeme} (h : Completed st' ls) (hlexemes : st'.lexemes = added ++ st.lexemes)
    (hadded : ∀ l ∈ added, l.kind ≠ .stop) : Completed st ls := by
  obtain ⟨more, stop, rfl, hstop, hmore⟩ := h
  refine ⟨added.reverse ++ more, stop, by simp [hlexemes], hstop, fun l hl => ?_⟩
  rcases List.mem_append.1 hl with hl | hl
  · exact hadded l (List.mem_reverse.1 hl)
  · exact hmore l hl

theorem stop_completed (st : State) : Completed st (st.mark .stop []).lexemes.reverse :=
  ⟨[], ⟨.stop, "", [], st.offset, st.offset⟩, by simp [State.mark], rfl, nofun⟩

theorem finish_completed (h : st.finish usual = some ls) : Completed st ls := by
  unfold State.finish at h
  split at h
  · cases h
  · dsimp only at h
    have hdedents {st₁ : State} (levels : List Level) :
        Indents st₁ (levels.foldl (fun s _ => s.mark .dedent []) st₁) := by
      induction levels generalizing st₁ with
      | nil => exact .refl st₁
      | cons l levels ih => exact .mark (by decide) ih
    generalize hline : (if st.atLineEnd = true then st else st.emit usual .newline []) = st₁ at h
    have hstart : ∃ added, st₁.lexemes = added ++ st.lexemes ∧ ∀ l ∈ added, l.kind ≠ .stop := by
      rw [← hline]
      split
      · exact ⟨[], rfl, nofun⟩
      · exact ⟨[_], rfl, by simp⟩
    obtain ⟨added, hadded, hkinds⟩ := hstart
    obtain ⟨marks, hmarks, hkinds'⟩ := (@hdedents st₁ st₁.levels).lexemes
    obtain rfl := Option.some.inj h
    exact ((stop_completed _).before hmarks hkinds').before hadded hkinds

theorem Moves.joined (h : Moves st cs st' cs') : st'.joined = [] := by
  cases h with
  | skip _ _ _ _ hj => exact hj
  | line _ _ _ hj => exact hj
  | take _ _ _ _ _ hafter => exact hafter.joined

theorem Moves.completed (h : Moves st cs st' cs') (h' : Completed st' ls) : Completed st ls := by
  cases h with
  | skip _ hlexemes hkinds => exact h'.before hlexemes hkinds
  | line hbreak hkind hlexemes hj =>
    rename_i l
    exact @Completed.before _ _ _ [l] h' hlexemes (by simp [hkind])
  | take hgap hlexemes hkinds hstart htakes hafter =>
    rename_i marks l
    refine @Completed.before _ _ _ (l :: marks) h' (by rw [hafter.lexemes, hlexemes]; rfl) fun m hm => ?_
    rcases List.mem_cons.1 hm with rfl | hm
    · exact htakes.kind_ne_stop
    · exact hkinds m hm

theorem run_completed (hj : st.joined = []) (h : run .strict usual fuel st cs = some ls) : Completed st ls := by
  induction fuel generalizing st cs with
  | zero =>
    rcases run_cases h with ⟨-, hfinish⟩ | ⟨_, _, _, hfuel, -, -⟩
    · exact finish_completed hfinish
    · cases hfuel
  | succ fuel ih =>
    rcases run_cases h with ⟨-, hfinish⟩ | ⟨fuel', st', cs', hfuel, hstep, hrun⟩
    · exact finish_completed hfinish
    · cases hfuel
      have hmoves := step_moves hj hstep
      exact hmoves.completed (ih hmoves.joined hrun)

/-- The lexeme that was taken comes next. -/
theorem After.next {l : Lexeme} (h : After st l st') (hrun : run .strict usual fuel st' cs' = some ls) :
    ∃ more, ls = st.lexemes.reverse ++ l :: more := by
  obtain ⟨added, stop, rfl, -, -⟩ := run_completed h.joined hrun
  exact ⟨added ++ [stop], by simp [h.lexemes]⟩

/-- Before a character that begins no gap the next step takes a lexeme. -/
theorem run_takes (hj : st.joined = []) (hline : st.lineStart = false) (hc : isPlain c = true)
    (h : run .strict usual fuel st (c :: rest) = some ls) :
    ∃ l cs' more, Takes (c :: rest) l cs' ∧ ls = st.lexemes.reverse ++ l :: more := by
  rcases run_cases h with ⟨hnil, -⟩ | ⟨fuel', st', cs', rfl, hstep, hrun⟩
  · cases hnil
  · have hbreak := breakLength_of_plain hc rest
    simp only [isPlain, Bool.not_eq_true', Bool.or_eq_false_iff] at hc
    have hlex : lexWord .strict usual st (c :: rest) = some (st', cs') := by
      rw [← hstep]
      unfold step
      simp [hj, hline, hbreak, hc]
    obtain ⟨l, htakes, hafter⟩ := lexWord_takes hj hlex
    obtain ⟨more, hmore⟩ := hafter.next hrun
    exact ⟨l, cs', more, htakes, hmore⟩

/-! ### What comes next -/

/-- The first character of a lexeme. -/
theorem Takes.head (h : Takes (c :: rest) l cs') :
    c.toNat < 128 ∧ (c = '>' → l.isGreater = true) ∨ c ≠ '>' ∧ Text.isIdentifierStart c = true := by
  cases h with
  | string hopening =>
    left
    obtain ⟨hmarks, q, more, hcs, hq, -⟩ := DoBlocks.Lexer.isStringMark_of_opening hopening
    rename_i marks _ _ _ _ _
    cases marks with
    | nil =>
      obtain ⟨rfl, -⟩ := List.cons.inj hcs
      rcases hq with rfl | rfl <;> exact ⟨by decide, fun h => absurd h (by decide)⟩
    | cons a marks =>
      obtain ⟨rfl, -⟩ := List.cons.inj hcs
      have hmark := hmarks c List.mem_cons_self
      refine ⟨DoBlocks.Lexer.lt_of_isAlpha (DoBlocks.Lexer.isWordLike_of_isStringMark hmark).2, ?_⟩
      rintro rfl
      exact absurd hmark (by decide)
  | number hstart =>
    left
    simp only [Bool.or_eq_true, Bool.and_eq_true, beq_iff_eq] at hstart
    rcases hstart with hdigit | ⟨rfl, -⟩
    · refine ⟨Text.lt_of_isDigit hdigit, ?_⟩
      rintro rfl
      exact absurd hdigit (by decide)
    · exact ⟨by decide, fun h => absurd h (by decide)⟩
  | name hopening hc hword hidentifier =>
    right
    refine ⟨?_, ?_⟩
    · rintro rfl
      exact absurd hc (by decide)
    · rw [hword, List.takeWhile_cons_of_pos hc] at hidentifier
      simp only [Text.isIdentifier, String.toList_ofList, Bool.and_eq_true] at hidentifier
      exact hidentifier.1
  | operator hdot hfind hkind htext =>
    left
    rename_i o
    have hall : (operators.all fun o => o.head?.any fun d => decide (d.toNat < 128) &&
        (d != '>' || [">", ">=", ">>", ">>="].contains (String.ofList o))) = true := by decide
    have ho := List.all_eq_true.1 hall o (List.mem_of_find?_eq_some hfind)
    cases o with
    | nil => cases ho
    | cons d o =>
      obtain ⟨rfl, -⟩ : d = c ∧ o <+: rest := by simpa using List.find?_some hfind
      simp only [List.head?_cons, Option.any_some, Bool.and_eq_true, decide_eq_true_eq, Bool.or_eq_true] at ho
      refine ⟨ho.1, ?_⟩
      rintro rfl
      simpa [Lexeme.isGreater, hkind, htext] using ho.2

/-- After a lexeme of the host, where the next one fits, a text that is readable stays so. -/
structure Follows (l : Lexeme) (cs : List Char) : Prop where
  decimal : ∀ d rest, cs = d :: rest → Text.isDecimal d = true → d.isDigit = true
  arrow : l.isOperator "=" = true → cs.head? ≠ some '>'

theorem Follows.lexeme? {o : List Char} (h : Follows l ((c :: rest).drop o.length))
    (hdot : (c == '.' && (rest.head?.map Char.isDigit).getD false) = false)
    (hfind : operators.find? (fun o => o.isPrefixOf (c :: rest)) = some o) (hkind : l.kind = .operator)
    (htext : l.text = String.ofList o) :
    DoBlocks.Lexer.lexeme? (c :: rest) = some (.operator, o.length) ∨
      DoBlocks.Lexer.lexeme? (c :: rest) = some (.symbol, o.length) := by
  -- only `.` may stand before a digit, and only `=` before `>`
  have hall : (operators.all fun o => match o with
    | [] => false
    | [_] => true
    | d :: e :: _ => (d != '.' || e == '.') && (d != '=' || e == '=')) = true := by decide
  have ho := List.all_eq_true.1 hall o (List.mem_of_find?_eq_some hfind)
  have hlead : o <+: c :: rest := List.isPrefixOf_iff_prefix.1 (by simpa using List.find?_some hfind)
  obtain ⟨more, hmore⟩ := hlead
  match o, ho with
  | [d], _ =>
    rw [List.singleton_append] at hmore
    obtain ⟨rfl, rfl⟩ := List.cons.inj hmore
    refine DoBlocks.Lexer.lexeme?_of_operator hfind (fun hd e rest heq => ?_) (fun hd => h.arrow ?_)
    · rw [Bool.eq_false_iff]
      intro hdecimal
      have hdigit := h.decimal e rest heq hdecimal
      simp [hd, heq, hdigit] at hdot
    · simp [Lexeme.isOperator, hkind, htext, hd]
  | d :: e :: o, ho =>
    rw [List.cons_append, List.cons_append] at hmore
    obtain ⟨rfl, rfl⟩ := List.cons.inj hmore
    simp only [Bool.and_eq_true, Bool.or_eq_true, bne_iff_ne, beq_iff_eq] at ho
    refine DoBlocks.Lexer.lexeme?_of_operator hfind (fun hd f rest heq => ?_) (fun hd => ?_)
    · obtain ⟨rfl, -⟩ := List.cons.inj heq
      rw [ho.1.resolve_left (not_not_intro hd)]
      decide
    · rw [List.head?_cons, ho.2.resolve_left (not_not_intro hd)]
      decide

theorem After.follows (hls : Fitting ls) (h : After st l st') (hrun : run .strict usual fuel st' cs' = some ls) :
    Follows l cs' where
  decimal d rest hcs hd := by
    subst hcs
    by_cases hascii : d.toNat < 128
    · rwa [Text.isDecimal_eq_isDigit hascii] at hd
    · have hplain : isPlain d = true := by
        rw [← Bool.not_eq_false]
        intro hnot
        simp only [isPlain, isInlineBlank, Bool.not_eq_false', Bool.or_eq_true, beq_iff_eq] at hnot
        rcases hnot with (((((rfl | rfl) | rfl) | rfl) | rfl) | rfl) | rfl <;> exact hascii (by decide)
      obtain ⟨m, cs'', more, htakes, -⟩ := run_takes h.joined h.lineStart hplain hrun
      rcases htakes.head with ⟨hlt, -⟩ | ⟨-, hstart⟩
      · exact absurd hlt hascii
      · rw [Text.isDecimal_of_isIdentifierStart hstart] at hd
        cases hd
  arrow heq hhead := by
    obtain ⟨rest, rfl⟩ := List.head?_eq_some_iff.1 hhead
    obtain ⟨m, cs'', more, htakes, hmore⟩ := run_takes h.joined h.lineStart (by decide) hrun
    rw [h.lexemes, List.reverse_cons, List.append_assoc] at hmore
    rcases htakes.head with ⟨-, hgreater⟩ | ⟨hne, -⟩
    · exact (hls _ l m more hmore).2 ⟨heq, hgreater rfl⟩
    · exact hne rfl

/-! ### Names before braces -/

/-- No name `keyword` stands directly before an opening brace. -/
def Clear (keyword : List Char) (ps : List Cut) : Prop :=
  ∀ before after, ps ≠ before ++ (.name, keyword) :: (.symbol, ['\x7b']) :: after

variable {keyword : List Char} {ps : List Cut} {p : Cut}

theorem Clear.cons (h : Clear keyword ps) (hp : p = (.name, keyword) → ps.head? ≠ some (.symbol, ['\x7b'])) :
    Clear keyword (p :: ps) := by
  intro before after heq
  cases before with
  | nil =>
    obtain ⟨rfl, rfl⟩ := List.cons.inj heq
    exact hp rfl rfl
  | cons b before =>
    exact h before after (List.cons.inj heq).2

theorem Clear.breaks {breaks : List Cut} (h : Clear keyword ps) (hbreaks : ∀ b ∈ breaks, b.1 = .newline) :
    Clear keyword (breaks ++ ps) := by
  induction breaks with
  | nil => exact h
  | cons b breaks ih =>
    rw [List.forall_mem_cons] at hbreaks
    refine (ih hbreaks.2).cons ?_
    rintro rfl
    cases hbreaks.1

/-- A text splits clear of braces after the keyword, and with a brace in front only if `brace` holds. -/
def SplitsClear (keyword cs : List Char) (brace : Prop) : Prop :=
  ∃ ps, Splits cs ps ∧ Clear keyword (visible ps) ∧
    ((visible ps).head? = some (.symbol, ['\x7b']) → brace)

theorem SplitsClear.push {kind : TokenKind} {n : Nat} {brace brace' : Prop} (h : SplitsClear keyword (cs.drop n) brace)
    (hlex : DoBlocks.Lexer.lexeme? cs = some (kind, n)) (htrivia : kind.isTrivia = false)
    (hname : kind = .name → cs.take n = keyword → ¬brace)
    (hsymbol : kind = .symbol → cs.take n = ['\x7b'] → brace') : SplitsClear keyword cs brace' := by
  obtain ⟨ps, hps, hclear, hhead⟩ := h
  have hsig : visible ((kind, cs.take n) :: ps) = (kind, cs.take n) :: visible ps := by
    simp [visible, htrivia]
  refine ⟨_, .push hlex hps, ?_, ?_⟩
  · rw [hsig]
    refine hclear.cons fun heq hbrace => ?_
    obtain ⟨rfl, hword⟩ := Prod.mk.inj heq
    exact hname rfl hword (hhead hbrace)
  · rw [hsig, List.head?_cons]
    intro heq
    obtain ⟨rfl, hbrace⟩ := Prod.mk.inj (Option.some.inj heq)
    exact hsymbol rfl hbrace

/-- A token that joins marks with the string after them. -/
theorem SplitsClear.join {k len : Nat} {brace brace' : Prop} (h : SplitsClear keyword (cs.drop k) brace)
    (hafter : DoBlocks.Lexer.lexeme? (cs.drop k) = some (.string, len))
    (hlex : DoBlocks.Lexer.lexeme? cs = some (.string, len + k)) : SplitsClear keyword cs brace' := by
  obtain ⟨ps, hps, hclear, -⟩ := h
  obtain ⟨ps', hps', rfl⟩ := hps.of_lexeme? hafter
  rw [List.drop_drop, Nat.add_comm] at hps'
  have hrest : SplitsClear keyword (cs.drop (len + k)) True :=
    ⟨ps', hps', fun before after heq => hclear ((.string, (cs.drop k).take len) :: before) after (by
      simpa [visible, TokenKind.isTrivia] using heq), fun _ => trivial⟩
  exact hrest.push hlex rfl (fun h => by cases h) (fun h => by cases h)

/-- What the host takes after a readable place is cut off there. -/
theorem Takes.splits {brace : Prop} (h : Takes cs l cs') (hread : Readable cs) (hfollows : Follows l cs')
    (hname : l.kind = .name → l.text = String.ofList keyword → ¬brace) : Readable cs' ∧
      (SplitsClear keyword cs' brace → SplitsClear keyword cs (l.isOperator "\x7b" = true)) := by
  cases h with
  | string hopening hbody =>
    have hlex := DoBlocks.Lexer.lexeme?_of_string hread hopening hbody
    exact ⟨hread.next hlex, fun hps => hps.push hlex rfl nofun nofun⟩
  | number hstart hn hends =>
    have hlex := DoBlocks.Lexer.lexeme?_of_number hn hstart hends
    exact ⟨hread.next hlex, fun hps => hps.push hlex rfl nofun nofun⟩
  | name hopening hc hword hidentifier hkind htext =>
    rename_i c rest word
    rcases DoBlocks.Lexer.lexeme?_of_word hread hword rfl hc hidentifier hopening with
      hlex | ⟨len, htwo, hlen, hlex⟩
    · refine ⟨hread.next hlex, fun hps => hps.push hlex rfl (fun _ htake => hname hkind ?_) nofun⟩
      have hlead : word <+: c :: rest := hword ▸ List.takeWhile_prefix _
      rw [htext, ← htake, ← List.prefix_iff_eq_take.1 hlead]
    · have hafter := DoBlocks.Lexer.lexeme?_of_quotedLength hlen
      rw [htwo] at hafter ⊢
      refine ⟨?_, fun hps => hps.join hafter hlex⟩
      rcases hread with htidy | ⟨ps, hps⟩
      · exact .inl (htidy.drop 2)
      · obtain ⟨ps', hps', -⟩ := hps.of_lexeme? hlex
        rw [Nat.add_comm, ← List.drop_drop] at hps'
        exact .inr ⟨_, .push hafter hps'⟩
  | operator hdot hfind hkind htext =>
    rename_i c rest o
    have hlead : o <+: c :: rest := List.isPrefixOf_iff_prefix.1 (by simpa using List.find?_some hfind)
    rcases hfollows.lexeme? hdot hfind hkind htext with hlex | hlex
    · exact ⟨hread.next hlex, fun hps => hps.push hlex rfl nofun nofun⟩
    · refine ⟨hread.next hlex, fun hps => hps.push hlex rfl nofun fun _ htake => ?_⟩
      rw [← List.prefix_iff_eq_take.1 hlead] at htake
      simp [Lexeme.isOperator, hkind, htext, htake]

theorem SplitsClear.mono {brace brace' : Prop} (h : SplitsClear keyword cs brace) (hbrace : brace → brace') :
    SplitsClear keyword cs brace' := by
  obtain ⟨ps, hps, hclear, hhead⟩ := h
  exact ⟨ps, hps, hclear, fun h => hbrace (hhead h)⟩

theorem SplitsClear.gap {brace : Prop} (h : SplitsClear keyword cs' brace) (hgap : Gap cs cs') (hread : Readable cs) :
    SplitsClear keyword cs brace := by
  obtain ⟨ps', hps', hclear, hhead⟩ := h
  obtain ⟨ps, breaks, hps, heq, hbreaks⟩ := hgap.splits hread hps'
  refine ⟨ps, hps, by rw [heq]; exact hclear.breaks hbreaks, fun hbrace => hhead ?_⟩
  cases breaks with
  | nil => rwa [heq] at hbrace
  | cons b breaks =>
    rw [heq, List.cons_append, List.head?_cons] at hbrace
    obtain rfl := Option.some.inj hbrace
    cases hbreaks _ List.mem_cons_self

/-- The next lexeme is an opening brace. -/
def BraceNext (st : State) (ls : List Lexeme) : Prop :=
  ∃ l more, ls = st.lexemes.reverse ++ l :: more ∧ l.isOperator "\x7b" = true

/-- A readable text that the host cuts into fitting lexemes splits, and no plain name stands before a brace in it. -/
theorem run_splits (hword : Text.isKeyword (String.ofList keyword) = false)
    (hsoft : String.ofList keyword ≠ "match" ∧ String.ofList keyword ≠ "case") (hls : Fitting ls)
    (hread : Readable cs) (hj : st.joined = []) (h : run .strict usual fuel st cs = some ls) :
    SplitsClear keyword cs (st.lineStart = false → BraceNext st ls) := by
  induction fuel generalizing st cs with
  | zero =>
    rcases run_cases h with ⟨rfl, -⟩ | ⟨_, _, _, hfuel, -, -⟩
    · exact ⟨[], .nil, by simp [Clear, visible], by simp [visible]⟩
    · cases hfuel
  | succ fuel ih =>
    rcases run_cases h with ⟨rfl, -⟩ | ⟨fuel', st', cs', hfuel, hstep, hrun⟩
    · exact ⟨[], .nil, by simp [Clear, visible], by simp [visible]⟩
    cases hfuel
    have hmoves := step_moves hj hstep
    have ih := fun hread' => ih hread' hmoves.joined hrun
    cases hmoves with
    | skip hgap hlexemes hkinds hstart hj' =>
      refine ((ih (hgap.readable hread)).gap hgap hread).mono fun hbrace hline => ?_
      obtain ⟨rfl, hline'⟩ := hstart hline
      obtain ⟨l, more, heq, hl⟩ := hbrace hline'
      exact ⟨l, more, by rw [heq, hlexemes]; rfl, hl⟩
    | line hbreak hkind hlexemes hj' =>
      have hlex := DoBlocks.Lexer.lexeme?_of_breakLength hread hbreak
      exact (ih (hread.next hlex)).push hlex rfl (fun h => by cases h) (fun h => by cases h)
    | take hgap hlexemes hkinds hstart htakes hafter =>
      rename_i st₁ cs₁ marks l
      have hname : l.kind = .name → l.text = String.ofList keyword → ¬(st'.lineStart = false → BraceNext st' ls) := by
        intro hkind htext hbrace
        obtain ⟨m, more, heq, hm⟩ := hbrace hafter.lineStart
        rw [hafter.lexemes, List.reverse_cons, List.append_assoc] at heq
        refine (hls _ l m more heq).1 ⟨?_, hm⟩
        simp [Lexeme.isPlainName, hkind, htext, hword, hsoft]
      obtain ⟨hread', hsplits⟩ := htakes.splits (hgap.readable hread) (hafter.follows hls hrun) hname
      refine ((hsplits (ih hread')).gap hgap hread).mono fun hbrace hline => ?_
      obtain ⟨more, heq⟩ := hafter.next hrun
      obtain rfl := hstart hline
      exact ⟨l, more, by rw [heq, hlexemes]; rfl, hbrace⟩

/-! ### Modules -/

/-- All neighbours in a module fit. -/
theorem fitting_of_module? {text : String} {m : Tree} (h : module? .strict text = some m) :
    ∃ ls, lexemes? .strict text = some ls ∧ Fitting ls := by
  obtain ⟨ms, stop, rest, hls, hstop, hfitting⟩ := Grammar.module?_fitting h
  obtain ⟨added, stop', hadded, -, hkinds⟩ := run_completed rfl hls
  obtain rfl : ms = added := eq_of_append_stop hadded hstop hkinds
  rw [State.initial, List.reverse_nil, List.nil_append] at hadded
  obtain ⟨rfl, rfl⟩ := List.cons.inj (List.append_cancel_left hadded)
  exact ⟨_, hls, hfitting⟩

/-- A module splits, or some of its characters are not for both lexers. No plain name stands before a brace in it. -/
theorem splits_of_module? {text : String} {m : Tree} (h : module? .strict text = some m)
    (hword : Text.isKeyword (String.ofList keyword) = false)
    (hsoft : String.ofList keyword ≠ "match" ∧ String.ofList keyword ≠ "case") (hread : Readable text.toList) :
    ∃ ps, Splits text.toList ps ∧ Clear keyword (visible ps) := by
  obtain ⟨ls, hls, hfitting⟩ := fitting_of_module? h
  obtain ⟨ps, hps, hclear, -⟩ := run_splits hword hsoft hfitting hread rfl hls
  exact ⟨ps, hps, hclear⟩

end DoBlocks.Host.Lexer
