import DoBlocks.Host.Lexeme.Lexer

/-!
# How lexemes spell a host text

The lexer loses nothing: a text is its lexemes one after another, each with a gap before it that holds
only blanks, line breaks, comments and continued lines. What is printed for a gap is the gap as it is
written, but for indentation and for how line breaks are written.
-/

namespace DoBlocks.Host.Lexer

variable {text rest : List Char} {ls ms : List Lexeme} {width count fuel : Nat} {dialect : Dialect} {c : Char}

/-- The characters are one line break. -/
def IsBreak (cs : List Char) : Prop := cs = ['\n'] ∨ cs = ['\r'] ∨ cs = ['\r', '\n']

theorem isBreak_take (cs : List Char) (h : breakLength cs ≠ 0) : IsBreak (cs.take (breakLength cs)) := by
  unfold breakLength at h ⊢
  split at h
  · exact .inr (.inr rfl)
  · exact .inr (.inl rfl)
  · exact .inl rfl
  · exact absurd rfl h

theorem breakLength_le (cs : List Char) : breakLength cs ≤ cs.length := by
  unfold breakLength
  split <;> simp

/-- Blanks, line breaks, comments and continued lines. -/
inductive Trivia : List Char → Prop
  | nil : Trivia []
  | blank {c : Char} {cs : List Char} : isInlineBlank c = true → Trivia cs → Trivia (c :: cs)
  | lineBreak {br cs : List Char} : IsBreak br → Trivia cs → Trivia (br ++ cs)
  | comment {text cs : List Char} :
    (∀ c ∈ text, c ≠ '\n' ∧ c ≠ '\r') → Trivia cs → Trivia ('#' :: text ++ cs)
  | continued {br cs : List Char} : IsBreak br → Trivia cs → Trivia ('\\' :: br ++ cs)

namespace Trivia

theorem append {cs ds : List Char} (h : Trivia cs) (h' : Trivia ds) : Trivia (cs ++ ds) := by
  induction h with
  | nil => exact h'
  | blank hc _ ih => exact .blank hc ih
  | lineBreak hbr _ ih =>
    rw [List.append_assoc]
    exact .lineBreak hbr ih
  | comment htext _ ih =>
    rw [List.append_assoc]
    exact .comment htext ih
  | continued hbr _ ih =>
    rw [List.append_assoc]
    exact .continued hbr ih

theorem blanks {cs : List Char} (h : ∀ c ∈ cs, isInlineBlank c = true) : Trivia cs := by
  induction cs with
  | nil => exact .nil
  | cons c cs ih =>
    rw [List.forall_mem_cons] at h
    exact .blank h.1 (ih h.2)

theorem ofBreak {br : List Char} (h : IsBreak br) : Trivia br := by
  have := lineBreak h .nil
  rwa [List.append_nil] at this

theorem ofContinued {br : List Char} (h : IsBreak br) : Trivia ('\\' :: br) := by
  have := continued h .nil
  rwa [List.append_nil] at this

/-- A comment runs up to the end of its line. -/
theorem ofComment (rest : List Char) :
    Trivia (('#' :: rest).takeWhile fun d => d != '\n' && d != '\r') := by
  have htext : ∀ c ∈ rest.takeWhile (fun d => d != '\n' && d != '\r'), c ≠ '\n' ∧ c ≠ '\r' := by
    intro c hc
    have hall := List.all_takeWhile (p := fun d : Char => d != '\n' && d != '\r') (l := rest)
    simpa using List.all_eq_true.1 hall c hc
  have := comment htext .nil
  rwa [List.append_nil] at this

end Trivia

/-! ### Gaps as they are printed -/

/-- `printed` is the gap `written` with some blanks left out and some line breaks written as line
feeds. -/
inductive Relined : List Char → List Char → Prop
  | nil : Relined [] []
  | same {c : Char} {written printed : List Char} :
    Relined written printed → Relined (c :: written) (c :: printed)
  | indent {blanks written printed : List Char} :
    (∀ c ∈ blanks, isInlineBlank c = true) → Relined written printed →
    Relined (blanks ++ written) printed
  | lineBreak {br written printed : List Char} :
    IsBreak br → Relined written printed → Relined (br ++ written) ('\n' :: printed)

theorem Relined.append_left {written printed : List Char} (cs : List Char)
    (h : Relined written printed) : Relined (cs ++ written) (cs ++ printed) := by
  induction cs with
  | nil => exact h
  | cons c cs ih => exact .same ih

@[simp] theorem plain_cons (p : Piece) (s : Surface) :
    Surface.plain (p :: s) = Surface.pieceText "" p ++ s.plain := by
  simp [Surface.plain, Surface.render, String.join_cons]

theorem plain_pushText (cs : List Char) (s : Surface) :
    (pushText cs s).plain.toList = cs ++ s.plain.toList := by
  unfold pushText
  split
  · rename_i h
    simp [List.isEmpty_iff.1 h]
  · simp [Surface.pieceText]

/-- The pieces of a gap are the gap relined; `fuel` is enough for two steps at each character. -/
theorem gapPieces_relined {level usual : List Char} (hlevel : ∀ c ∈ level, isInlineBlank c = true)
    {fuel : Nat} {atStart : Bool} {current cs : List Char}
    (hfuel : 2 * cs.length + (if atStart then 1 else 0) < fuel) :
    ∃ printed, (gapPieces level usual fuel atStart current cs).plain.toList =
      current.reverse ++ printed ∧ Relined cs printed := by
  induction fuel generalizing atStart current cs with
  | zero => omega
  | succ fuel ih =>
    -- what comes next is read with less fuel; what was read before it is kept as it is
    have kept {taken rest current' : List Char} {atStart' : Bool} (hcs : cs = taken ++ rest)
        (hfuel' : 2 * rest.length + (if atStart' then 1 else 0) < fuel)
        (hcurrent : current'.reverse = current.reverse ++ taken) :
        ∃ printed, (gapPieces level usual fuel atStart' current' rest).plain.toList =
          current.reverse ++ printed ∧ Relined cs printed := by
      obtain ⟨printed, heq, hrel⟩ := @ih atStart' current' rest hfuel'
      refine ⟨taken ++ printed, ?_, ?_⟩
      · rw [heq, hcurrent, List.append_assoc]
      · rw [hcs]
        exact hrel.append_left taken
    unfold gapPieces
    split
    · rename_i h
      rw [Bool.and_eq_true] at h
      obtain ⟨rest, rfl⟩ := List.isPrefixOf_iff_prefix.1 h.2
      have hrest : 2 * rest.length < fuel := by
        rw [List.length_append, h.1, if_pos rfl] at hfuel
        omega
      obtain ⟨printed, heq, hrel⟩ := @ih false [] rest (by simpa using hrest)
      refine ⟨printed, ?_, .indent hlevel hrel⟩
      rw [List.drop_left, plain_pushText, plain_cons, String.toList_append, heq]
      simp [Surface.pieceText]
    · split
      · exact ⟨[], by rw [plain_pushText]; rfl, .nil⟩
      · rename_i rest _
        have hcomment := List.prefix_iff_eq_append.1
          (List.takeWhile_prefix (fun c => c != '\r' && c != '\n') (l := '#' :: rest))
        have hlength : 0 < (('#' :: rest).takeWhile fun c => c != '\r' && c != '\n').length := by
          simp
        have hpos : 0 < ('#' :: rest).length := by simp
        refine kept hcomment.symm ?_ (by rw [List.reverse_append, List.reverse_reverse])
        rw [List.length_drop]
        simp only [Bool.false_eq_true, if_false]
        omega
      · rename_i rest _
        have hlength : ('\\' :: rest).length = rest.length + 1 := rfl
        refine @kept ('\\' :: rest.take (breakLength rest)) _ _ _ ?_ ?_ (by simp)
        · rw [List.cons_append, List.take_append_drop]
        · rw [List.length_drop]
          simp only [Bool.false_eq_true, if_false]
          omega
      · rename_i c rest _ _ _
        dsimp only
        split
        · have hlength : (c :: rest).length = rest.length + 1 := rfl
          refine @kept [c] _ _ _ rfl ?_ (by simp)
          simp only [Bool.false_eq_true, if_false]
          omega
        · rename_i hbreak
          have hbreak : breakLength (c :: rest) ≠ 0 := by simpa using hbreak
          have hle := breakLength_le (c :: rest)
          have hrest : 2 * ((c :: rest).drop (breakLength (c :: rest))).length +
              (if true then 1 else 0) < fuel := by
            rw [List.length_drop, if_pos rfl]
            omega
          split
          · obtain ⟨printed, heq, hrel⟩ := @ih true ('\n' :: current) _ hrest
            refine ⟨'\n' :: printed, by simpa using heq, ?_⟩
            have := Relined.lineBreak (isBreak_take _ hbreak) hrel
            rwa [List.take_append_drop] at this
          · exact kept (List.take_append_drop _ _).symm hrest (by simp)

/-- What is printed for a gap is the gap relined. -/
theorem gapSurface_relined {level usual gap : List Char} {atStart : Bool}
    (hlevel : ∀ c ∈ level, isInlineBlank c = true) :
    Relined gap (gapSurface level usual atStart gap).plain.toList := by
  have hfuel : 2 * gap.length + (if atStart then 1 else 0) < 2 * gap.length + 2 := by
    split <;> omega
  obtain ⟨printed, heq, hrel⟩ := @gapPieces_relined level usual hlevel _ _ [] _ hfuel
  rw [gapSurface, heq]
  exact hrel

/-! ### Lexemes in a text -/

/-- The lexeme stands for a change of indentation and takes no text. -/
def IsMark (l : Lexeme) : Prop := l.kind = .indent ∨ l.kind = .dedent

/-- A lexeme of the kind can have the text: the end of the text has none, and the end of a line is
at most a line break. -/
def CanBe (kind : LexemeKind) (text : List Char) : Prop :=
  kind ≠ .stop ∧ (kind = .newline → Trivia text)

theorem CanBe.of_ne {kind : LexemeKind} (h : kind ≠ .stop) (h' : kind ≠ .newline) :
    CanBe kind text := ⟨h, fun heq => absurd heq h'⟩

/-- The text is the lexemes one after another, each after a gap. -/
inductive Spells : List Lexeme → List Char → Prop
  | nil : Spells [] []
  | mark {l : Lexeme} {ls : List Lexeme} {cs : List Char} :
    IsMark l → Spells ls cs → Spells (l :: ls) cs
  | cons {l : Lexeme} {ls : List Lexeme} {gap cs : List Char} :
    Trivia gap → Relined gap l.gap.plain.toList → CanBe l.kind l.text.toList → Spells ls cs →
    Spells (l :: ls) (gap ++ l.text.toList ++ cs)

theorem Spells.append {cs ds : List Char} (h : Spells ls cs) (h' : Spells ms ds) :
    Spells (ls ++ ms) (cs ++ ds) := by
  induction h with
  | nil => exact h'
  | mark hl _ ih => exact .mark hl ih
  | cons hgap hrel hcan _ ih =>
    rw [List.append_assoc]
    exact .cons hgap hrel hcan ih

theorem Spells.of_append {cs : List Char} (h : Spells (ls ++ ms) cs) :
    ∃ a b, cs = a ++ b ∧ Spells ls a ∧ Spells ms b := by
  induction ls generalizing cs with
  | nil => exact ⟨[], cs, rfl, .nil, h⟩
  | cons l ls ih =>
    cases h with
    | mark hl h =>
      obtain ⟨a, b, rfl, ha, hb⟩ := ih h
      exact ⟨a, b, rfl, .mark hl ha, hb⟩
    | cons hgap hrel hcan h =>
      obtain ⟨a, b, rfl, ha, hb⟩ := ih h
      exact ⟨_, b, (List.append_assoc _ _ _).symm, .cons hgap hrel hcan ha, hb⟩

/-- The state between two steps: the gap is one, and levels are made of blanks. -/
structure Neat (st : State) : Prop where
  gap : Trivia st.gap.reverse
  levels : ∀ l ∈ st.levels, ∀ c ∈ l.text, isInlineBlank c = true

theorem Neat.levelText {st : State} (h : Neat st) : ∀ c ∈ st.levelText, isInlineBlank c = true := by
  unfold State.levelText
  split
  · rename_i l rest hlevels
    exact h.levels l (by simp [hlevels])
  · exact nofun

/-- From `st` before `cs` the lexer comes to `st'` before `cs'` with one more lexeme, which begins right
after the gap of `st`. -/
structure Emits (st : State) (cs : List Char) (st' : State) (cs' : List Char) : Prop where
  neat : Neat st'
  gap : st'.gap = []
  emitted : ∃ l, st'.lexemes = l :: st.lexemes ∧ CanBe l.kind l.text.toList ∧
    cs = l.text.toList ++ cs' ∧ Relined st.gap.reverse l.gap.plain.toList

namespace Emits

variable {st st₁ st₂ : State} {cs cs₁ usual text : List Char} {kind : LexemeKind}

theorem emit (h : Neat st) (hcan : CanBe kind text) (hcs : text ++ cs₁ = cs) :
    Emits st cs (st.emit usual kind text) cs₁ where
  neat := ⟨.nil, h.levels⟩
  gap := rfl
  emitted := ⟨_, rfl, by simpa using hcan, by simp [hcs], gapSurface_relined h.levelText⟩

/-- Only lexemes, gap and levels matter. -/
theorem congr (h : Emits st cs st₁ cs₁) (hlexemes : st₂.lexemes = st₁.lexemes)
    (hgap : st₂.gap = st₁.gap) (hlevels : st₂.levels = st₁.levels) : Emits st cs st₂ cs₁ where
  neat := ⟨hgap ▸ h.neat.gap, hlevels ▸ h.neat.levels⟩
  gap := hgap.trans h.gap
  emitted := hlexemes ▸ h.emitted

/-- A lexeme whose text stands at the start of `cs`. -/
theorem emit_leading (h : Neat st) (hcan : CanBe kind text)
    (htext : text <+: cs) : Emits st cs (st.emit usual kind text) (cs.drop text.length) :=
  emit h hcan (List.prefix_iff_eq_append.1 htext)

/-- A lexeme whose text is the first `n` characters. -/
theorem emit_take (h : Neat st) (n : Nat) (hcan : CanBe kind (cs.take n)) :
    Emits st cs (st.emit usual kind (cs.take n)) (cs.drop n) :=
  emit h hcan (List.take_append_drop n cs)

end Emits

/-- From `st` before `cs` the lexer comes to `st'` before `cs'`: the text between is spelled by the
lexemes that were added. -/
structure Advances (st : State) (cs : List Char) (st' : State) (cs' : List Char) : Prop where
  neat : Neat st'
  spelled : ∃ added text, st'.lexemes.reverse = st.lexemes.reverse ++ added ∧
    st.gap.reverse ++ cs = text ++ (st'.gap.reverse ++ cs') ∧ Spells added text ∧
    ∀ l ∈ added, l.kind ≠ .stop

namespace Advances

variable {st st₁ st₂ : State} {cs cs₁ cs₂ text : List Char} {kind : LexemeKind}

theorem refl (h : Neat st) : Advances st cs st cs :=
  ⟨h, [], [], by simp, rfl, .nil, nofun⟩

theorem trans (h : Advances st cs st₁ cs₁) (h' : Advances st₁ cs₁ st₂ cs₂) :
    Advances st cs st₂ cs₂ := by
  obtain ⟨added, text, hadded, htext, hspells, hstop⟩ := h.spelled
  obtain ⟨added', text', hadded', htext', hspells', hstop'⟩ := h'.spelled
  refine ⟨h'.neat, added ++ added', text ++ text', ?_, ?_, hspells.append hspells', ?_⟩
  · rw [hadded', hadded, List.append_assoc]
  · rw [htext, htext', List.append_assoc]
  · intro l hl
    rcases List.mem_append.1 hl with hl | hl
    · exact hstop l hl
    · exact hstop' l hl

theorem of_emits (h : Neat st) (h' : Emits st cs st₁ cs₁) : Advances st cs st₁ cs₁ := by
  obtain ⟨l, hlexemes, hcan, rfl, hrel⟩ := h'.emitted
  refine ⟨h'.neat, [l], st.gap.reverse ++ l.text.toList, by simp [hlexemes], ?_, ?_, ?_⟩
  · simp [h'.gap]
  · have := Spells.cons h.gap hrel hcan .nil
    rwa [List.append_nil] at this
  · simpa using hcan.1

theorem skip (h : Neat st) (htext : Trivia text) (hcs : text ++ cs₁ = cs) :
    Advances st cs (st.skip text) cs₁ := by
  refine ⟨⟨?_, h.levels⟩, [], [], by simp [State.skip], by simp [State.skip, ← hcs], .nil, nofun⟩
  simpa [State.skip] using h.gap.append htext

/-- Where the line starts does not matter. -/
theorem lineStart (h : Advances st cs st₁ cs₁) (b : Bool) :
    Advances st cs { st₁ with lineStart := b } cs₁ :=
  ⟨⟨h.neat.gap, h.neat.levels⟩, h.spelled⟩

theorem mark (h : Neat st) (hkind : kind = .indent ∨ kind = .dedent) :
    Advances st cs (st.mark kind text) cs := by
  refine ⟨⟨h.gap, h.levels⟩, [⟨kind, String.ofList text, [], st.offset, st.offset⟩], [],
    by simp [State.mark], rfl, .mark hkind .nil, ?_⟩
  rcases hkind with rfl | rfl <;> simp

end Advances

/-! ### The steps of the lexer -/

variable {st st' : State} {cs cs' usual : List Char}

theorem closeLevels_advances {levels : List Level} (h : Neat st)
    (hlevels : ∀ l ∈ levels, ∀ c ∈ l.text, isInlineBlank c = true)
    (hclose : closeLevels width count levels st = some st') : Advances st cs st' cs := by
  induction levels generalizing st with
  | nil =>
    unfold closeLevels at hclose
    split at hclose
    · cases hclose
      exact ⟨⟨h.gap, nofun⟩, (Advances.refl h).spelled⟩
    · cases hclose
  | cons l outer ih =>
    unfold closeLevels at hclose
    split at hclose
    · split at hclose
      · cases hclose
        exact ⟨⟨h.gap, hlevels⟩, (Advances.refl h).spelled⟩
      · cases hclose
    · split at hclose
      · have hmark : Advances st cs (st.mark .dedent []) cs := .mark h (.inr rfl)
        exact hmark.trans (ih hmark.neat (fun m hm => hlevels m (by simp [hm])) hclose)
      · cases hclose

theorem indentTo_advances {blanks : List Char} (h : Neat st) (hblanks : ∀ c ∈ blanks, isInlineBlank c = true)
    (hindent : st.indentTo width count blanks = some st') : Advances st cs st' cs := by
  unfold State.indentTo at hindent
  dsimp only at hindent
  split at hindent
  · split at hindent
    · cases hindent
      exact .refl h
    · cases hindent
  · split at hindent
    · split at hindent
      · cases hindent
        have hmark : Advances st cs (st.mark .indent (blanks.drop (st.levels.headD ⟨0, 0, []⟩).text.length))
          cs := .mark h (.inl rfl)
        refine ⟨⟨h.gap, fun l hl => ?_⟩, hmark.spelled⟩
        rcases List.mem_cons.1 hl with rfl | hl
        · exact hblanks
        · exact h.levels l hl
      · cases hindent
    · exact closeLevels_advances h h.levels hindent

theorem operator_emits (h : Neat st) (htext : text <+: cs) (hop : st.operator usual text = some st') :
    Emits st cs st' (cs.drop text.length) := by
  have hemit : Emits st cs (st.emit usual .operator text) (cs.drop text.length) :=
    .emit_leading h (.of_ne (by simp) (by simp)) htext
  unfold State.operator at hop
  split at hop
  · split at hop
    · cases hop
      exact hemit.congr rfl rfl rfl
    · split at hop
      · split at hop
        · split at hop
          · cases hop
            exact hemit.congr rfl rfl rfl
          · cases hop
        · cases hop
      · cases hop
        exact hemit
  · cases hop
    exact hemit

/-- The marks and quotes of a string stand at the start of the text. -/
theorem stringOpening_leads {marks quote : List Char} (h : stringOpening dialect cs = some (marks, quote)) :
    marks ++ quote <+: cs := by
  unfold stringOpening at h
  dsimp only at h
  split at h
  · split at h
    · rename_i q rest hdrop
      split at h
      · cases h
        have hcs := List.prefix_iff_eq_append.1 (List.takeWhile_prefix Char.isAlpha (l := cs))
        have hquote : (if [q, q].isPrefixOf rest then [q, q, q] else [q]) <+: q :: rest := by
          split
          · rename_i hq
            exact (List.prefix_cons_inj q).2 (List.isPrefixOf_iff_prefix.1 hq)
          · exact ⟨rest, rfl⟩
        obtain ⟨more, hmore⟩ := hquote
        refine ⟨more, ?_⟩
        rw [List.append_assoc, hmore, ← hdrop, hcs]
      · cases h
    · cases h
  · cases h

theorem lexWord_emits (h : Neat st) (hlex : lexWord dialect usual st cs = some (st', cs')) : Emits st cs st' cs' := by
  unfold lexWord at hlex
  split at hlex
  · rename_i marks quote hopening
    split at hlex
    · cases hlex
      exact (Emits.emit_leading h (.of_ne (by simp) (by simp)) (stringOpening_leads hopening)).congr rfl rfl rfl
    · obtain ⟨m, -, heq⟩ := Option.map_eq_some_iff.1 hlex
      cases heq
      exact .emit_take h m (.of_ne (by simp) (by simp))
  · split at hlex
    · cases hlex
    · rename_i c rest _
      split at hlex
      · obtain ⟨n, -, hn⟩ := Option.bind_eq_some_iff.1 hlex
        split at hn
        · cases hn
        · cases hn
          exact .emit_take h n (.of_ne (by simp) (by simp))
      · split at hlex
        · extract_lets word at hlex
          split at hlex
          · cases hlex
            exact .emit_leading h (.of_ne (by simp) (by simp)) (List.takeWhile_prefix _)
          · cases hlex
        · extract_lets startsSpec at hlex
          split at hlex
          · cases hlex
            exact (Emits.emit_take h 1 (.of_ne (by simp) (by simp))).congr rfl rfl rfl
          · split at hlex
            · rename_i o ho
              obtain ⟨st₁, hop, heq⟩ := Option.map_eq_some_iff.1 hlex
              cases heq
              have hprefix : o.isPrefixOf (c :: rest) = true := by simpa using List.find?_some ho
              exact operator_emits h (List.isPrefixOf_iff_prefix.1 hprefix) hop
            · cases hlex

theorem lexJoined_emits {j : Joined} (h : Neat st) (hlex : lexJoined dialect usual j st cs = some (st', cs')) :
    Emits st cs st' cs' := by
  unfold lexJoined at hlex
  split at hlex
  · cases hlex
  · split at hlex
    · rename_i hquote
      cases hlex
      exact (Emits.emit_leading h (.of_ne (by simp) (by simp)) (List.isPrefixOf_iff_prefix.1 hquote)).congr
        rfl rfl rfl
    · exact lexWord_emits h hlex
  · rename_i n _ _
    cases hlex
    exact .emit_take h n (.of_ne (by simp) (by simp))

/-- Comments end before the end of their line. -/
theorem comment_append (rest : List Char) :
    (('#' :: rest).takeWhile fun d => d != '\n' && d != '\r') ++
      ('#' :: rest).drop (('#' :: rest).takeWhile fun d => d != '\n' && d != '\r').length = '#' :: rest :=
  List.prefix_iff_eq_append.1 (List.takeWhile_prefix _)

theorem continuation_trivia (h : ¬(breakLength rest == 0 || (rest.drop (breakLength rest)).isEmpty) = true) :
    Trivia ('\\' :: rest.take (breakLength rest)) := by
  refine .ofContinued (isBreak_take rest fun h0 => h ?_)
  simp [h0]

theorem step_advances (h : Neat st)
    (hstep : step .tolerant usual st cs = some (st', cs')) : Advances st cs st' cs' := by
  unfold step at hstep
  dsimp only at hstep
  split at hstep
  · exact .of_emits h (lexJoined_emits h hstep)
  split at hstep
  · -- the start of a line: its blanks decide about indentation
    have hblanks : ∀ c ∈ cs.takeWhile isInlineBlank, isInlineBlank c = true := fun c hc =>
      List.all_eq_true.1 List.all_takeWhile c hc
    have hcs := List.prefix_iff_eq_append.1 (List.takeWhile_prefix isInlineBlank (l := cs))
    simp only [leadingBlanks, show (Dialect.tolerant == Dialect.strict) = false from rfl,
      Bool.false_eq_true, if_false] at hstep
    split at hstep
    · rename_i hrest
      cases hstep
      rw [hrest] at hcs
      exact .skip h (.blanks hblanks) hcs
    · rename_i c rest hrest
      rw [hrest] at hcs
      split at hstep
      · rename_i hc
        cases hstep
        rw [beq_iff_eq] at hc
        subst hc
        exact .skip h ((Trivia.blanks hblanks).append (.ofComment rest))
          (by rw [List.append_assoc, comment_append, hcs])
      split at hstep
      · obtain ⟨st₁, hindent, hrest'⟩ := Option.bind_eq_some_iff.1 hstep
        have hlevel : Advances st cs st₁ cs := indentTo_advances h hblanks hindent
        have hline := hlevel.trans (.skip hlevel.neat (.blanks hblanks) hcs)
        split at hrest'
        · rename_i hc
          rw [beq_iff_eq] at hc
          subst hc
          split at hrest'
          · cases hrest'
          · rename_i hbreak
            cases hrest'
            exact (hline.trans (.skip hline.neat (continuation_trivia hbreak) (by simp))).lineStart false
        · exact hline.trans (.of_emits hline.neat (lexWord_emits hline.neat hrest'))
      · rename_i hbreak
        cases hstep
        have hbreak : breakLength (c :: rest) ≠ 0 := by simpa using hbreak
        exact .skip h ((Trivia.blanks hblanks).append (.ofBreak (isBreak_take _ hbreak)))
          (by rw [List.append_assoc, List.take_append_drop, hcs])
  · split at hstep
    · cases hstep
    · rename_i c rest
      split at hstep
      · rename_i hc
        cases hstep
        exact .skip h (.blank hc .nil) rfl
      split at hstep
      · rename_i hc
        cases hstep
        rw [beq_iff_eq] at hc
        subst hc
        exact .skip h (.ofComment rest) (comment_append rest)
      split at hstep
      · rename_i hc
        rw [beq_iff_eq] at hc
        subst hc
        split at hstep
        · cases hstep
        · rename_i hbreak
          cases hstep
          exact .skip h (continuation_trivia hbreak) (by simp)
      split at hstep
      · exact .of_emits h (lexWord_emits h hstep)
      · rename_i hbreak
        have hbreak : breakLength (c :: rest) ≠ 0 := by simpa using hbreak
        split at hstep
        · cases hstep
          have hcan : CanBe .newline ((c :: rest).take (breakLength (c :: rest))) :=
            ⟨by simp, fun _ => .ofBreak (isBreak_take _ hbreak)⟩
          exact (Advances.of_emits h (.emit_take h _ hcan)).lineStart true
        · cases hstep
          exact .skip h (.ofBreak (isBreak_take _ hbreak)) (List.take_append_drop _ _)

/-! ### Whole texts -/

/-- Reading on from `st` before `cs` gives the lexemes `ls`: those added spell all that is left, up to
a last gap. -/
def Completes (st : State) (cs : List Char) (ls : List Lexeme) : Prop :=
  ∃ added stop text gap, ls = st.lexemes.reverse ++ added ++ [stop] ∧ stop.kind = .stop ∧
    (∀ l ∈ added, l.kind ≠ .stop) ∧ st.gap.reverse ++ cs = text ++ gap ∧ Spells added text ∧ Trivia gap

theorem Advances.completes (h : Advances st cs st' cs') (h' : Completes st' cs' ls) :
    Completes st cs ls := by
  obtain ⟨added, text, hadded, htext, hspells, hkinds⟩ := h.spelled
  obtain ⟨added', stop, text', gap, rfl, hstop, hkinds', htext', hspells', hgap⟩ := h'
  refine ⟨added ++ added', stop, text ++ text', gap, ?_, hstop, ?_, ?_, hspells.append hspells', hgap⟩
  · rw [hadded, List.append_assoc st.lexemes.reverse]
  · intro l hl
    rcases List.mem_append.1 hl with hl | hl
    · exact hkinds l hl
    · exact hkinds' l hl
  · rw [htext, htext', List.append_assoc]

theorem dedents_advances (h : Neat st) (levels : List Level) :
    Advances st cs (levels.foldl (fun s _ => s.mark .dedent []) st) cs := by
  induction levels generalizing st with
  | nil => exact .refl h
  | cons l levels ih =>
    have hmark : Advances st cs (st.mark .dedent []) cs := .mark h (.inr rfl)
    exact hmark.trans (ih hmark.neat)

theorem stop_completes (h : Neat st) : Completes st [] (st.mark .stop []).lexemes.reverse :=
  ⟨[], ⟨.stop, String.ofList [], [], st.offset, st.offset⟩, [], st.gap.reverse, by simp [State.mark], rfl,
    nofun, by simp, .nil, h.gap⟩

theorem finish_completes (h : Neat st) (hfinish : st.finish usual = some ls) : Completes st [] ls := by
  unfold State.finish at hfinish
  split at hfinish
  · cases hfinish
  · have hend : Advances st [] (if st.atLineEnd then st else st.emit usual .newline []) [] := by
      split
      · exact .refl h
      · exact .of_emits h (.emit h ⟨by simp, fun _ => .nil⟩ rfl)
    have hlevels : Advances _ [] _ [] := dedents_advances hend.neat
      (if st.atLineEnd then st else st.emit usual .newline []).levels
    have hadv := hend.trans hlevels
    obtain rfl := Option.some.inj hfinish
    exact hadv.completes (stop_completes hadv.neat)

theorem run_completes (h : Neat st) (hrun : run .tolerant usual fuel st cs = some ls) : Completes st cs ls := by
  induction fuel generalizing st cs with
  | zero =>
    cases cs with
    | nil => exact finish_completes h hrun
    | cons => cases hrun
  | succ fuel ih =>
    cases cs with
    | nil => exact finish_completes h hrun
    | cons c rest =>
      rw [run] at hrun
      · obtain ⟨⟨st₁, cs₁⟩, hstep, hrun⟩ := Option.bind_eq_some_iff.1 hrun
        have hadv := step_advances h hstep
        exact hadv.completes (ih hadv.neat hrun)
      · exact nofun

/-! ### Where a text begins -/

/-- The lexemes are written as the text, which begins with the first of them. -/
inductive Written : List Lexeme → List Char → Prop
  | mk {l : Lexeme} {ls : List Lexeme} {cs : List Char} :
    CanBe l.kind l.text.toList → Spells ls cs → Written (l :: ls) (l.text.toList ++ cs)

theorem Written.of_append {cs : List Char} (h : Written (ls ++ ms) cs) (hne : ls ≠ []) :
    ∃ a b, cs = a ++ b ∧ Written ls a ∧ Spells ms b := by
  cases ls with
  | nil => exact absurd rfl hne
  | cons l ls =>
    cases h with
    | mk hcan h =>
      obtain ⟨a, b, rfl, ha, hb⟩ := h.of_append
      exact ⟨_, b, (List.append_assoc _ _ _).symm, .mk hcan ha, hb⟩

/-- The character begins neither a gap nor a new line. -/
def isPlain (c : Char) : Bool :=
  !(isInlineBlank c || c == '#' || c == '\\' || c == '\n' || c == '\r')

theorem breakLength_of_plain (hc : isPlain c = true) (rest : List Char) :
    breakLength (c :: rest) = 0 := by
  unfold breakLength
  split <;> simp_all [isPlain]

/-- Before a plain character the next step takes a lexeme. -/
theorem step_of_plain (hjoined : st.joined = []) (hlevels : st.lineStart = true → st.levels = [])
    (hc : isPlain c = true) :
    step .tolerant usual st (c :: rest) = lexWord .tolerant usual st (c :: rest) := by
  have hbreak := breakLength_of_plain hc rest
  obtain ⟨hblank, hhash, hslash⟩ : isInlineBlank c = false ∧ (c == '#') = false ∧ (c == '\\') = false := by
    simp only [isPlain, Bool.not_eq_true', Bool.or_eq_false_iff] at hc
    exact ⟨hc.1.1.1.1, hc.1.1.1.2, hc.1.1.2⟩
  unfold step
  simp only [hjoined]
  split
  · rename_i hline
    rw [Bool.and_eq_true] at hline
    have hindent : st.indentTo 0 0 [] = some st := by
      simp [State.indentTo, hlevels hline.1]
    have hleading : leadingBlanks .tolerant (c :: rest) = ([], 0, 0) := by
      simp [leadingBlanks, hblank, measure]
    simp [hleading, hhash, hslash, hbreak, hindent, State.skip]
  · simp [hblank, hhash, hslash, hbreak]

/-- A text that begins with a plain character begins with a lexeme. -/
theorem run_written (h : Neat st) (hjoined : st.joined = []) (hlevels : st.lineStart = true → st.levels = [])
    (hc : isPlain c = true) (hrun : run .tolerant usual fuel st (c :: rest) = some ls) :
    ∃ added stop text gap, ls = st.lexemes.reverse ++ added ++ [stop] ∧ stop.kind = .stop ∧
      (∀ l ∈ added, l.kind ≠ .stop) ∧ c :: rest = text ++ gap ∧ Written added text ∧ Trivia gap := by
  cases fuel with
  | zero => cases hrun
  | succ fuel =>
    rw [run] at hrun
    · obtain ⟨⟨st₁, cs₁⟩, hstep, hrun⟩ := Option.bind_eq_some_iff.1 hrun
      rw [step_of_plain hjoined hlevels hc] at hstep
      have hemits := lexWord_emits h hstep
      obtain ⟨l, hlexemes, hcan, hcs, -⟩ := hemits.emitted
      obtain ⟨added, stop, text, gap, rfl, hstop, hkinds, hrest, hspells, hgap⟩ :=
        run_completes hemits.neat hrun
      rw [hemits.gap] at hrest
      refine ⟨l :: added, stop, l.text.toList ++ text, gap, ?_, hstop, ?_, ?_, .mk hcan hspells, hgap⟩
      · simp [hlexemes]
      · simpa using ⟨hcan.1, hkinds⟩
      · rw [hcs, List.append_assoc, ← hrest]
        rfl
    · exact nofun

end DoBlocks.Host.Lexer
