import DoBlocks.Host.Reading
import DoBlocks.Proofs.HostText
import DoBlocks.Proofs.Surfaces

/-!
# What the host reads of a text

A tree is read from the lexemes that its text begins with. Where a fragment is read inside a longer
text, the lexeme that ends it may be one of the fragment itself: a guard after a pattern, the word after
the target of a loop, a value after the targets of an assignment, a semicolon after a statement. All
that comes before this lexeme is kept.
-/

namespace DoBlocks.Host

open DoBlocks.Host.Lexer

variable {t tree : Tree} {d : Dialect} {text s : String} {ts : List Tree} {ls : List Lexeme} {rest cs : List Char}
  {c : Char}

/-- The text begins with the lexemes, and `rest` comes after them and a gap. -/
def SpelledUpTo (ls : List Lexeme) (cs rest : List Char) : Prop :=
  ∃ text gap, cs = text ++ gap ++ rest ∧ Written ls text ∧ Trivia gap

namespace Lexer

variable {l : Lexeme} {cs : List Char} {ls : List Lexeme} {w s : String}

/-- The end of a line takes no more than a gap. -/
theorem Spells.trivia_of_newline (h : Spells [l] cs) (hl : l.kind = .newline) : Trivia cs := by
  cases h with
  | mark hmark _ =>
    rcases hmark with hmark | hmark <;> rw [hl] at hmark <;> cases hmark
  | cons hgap _ hcan hnil =>
    cases hnil
    rw [List.append_nil]
    exact hgap.append (hcan.2 hl)

/-- A lexeme that takes text stands after a gap. -/
theorem Spells.of_cons (h : Spells (l :: ls) cs) (hl : ¬ IsMark l) :
    ∃ gap rest, cs = gap ++ (l.text.toList ++ rest) ∧ Trivia gap ∧ Spells ls rest := by
  cases h with
  | mark hmark _ => exact absurd hmark hl
  | cons hgap _ _ hrest => exact ⟨_, _, List.append_assoc _ _ _, hgap, hrest⟩

theorem not_isMark_of_isWord (h : l.isWord w = true) : ¬ IsMark l := by
  simp only [Lexeme.isWord, Bool.and_eq_true, beq_iff_eq] at h
  simp [IsMark, h.1]

theorem not_isMark_of_isOperator (h : l.isOperator s = true) : ¬ IsMark l := by
  simp only [Lexeme.isOperator, Bool.and_eq_true, beq_iff_eq] at h
  simp [IsMark, h.1]

theorem text_of_isWord (h : l.isWord w = true) : l.text = w := by
  simp only [Lexeme.isWord, Bool.and_eq_true, beq_iff_eq] at h
  exact h.2

theorem text_of_isOperator (h : l.isOperator s = true) : l.text = s := by
  simp only [Lexeme.isOperator, Bool.and_eq_true, beq_iff_eq] at h
  exact h.2

theorem neat_initial : Neat State.initial := ⟨.nil, nofun⟩

/-- The lexemes of a text that begins with a plain character. -/
theorem lexemes?_written {text : String} {c : Char} {rest : List Char} (h : lexemes? .tolerant text = some ls)
    (htext : text.toList = c :: rest) (hc : isPlain c = true) :
    ∃ added stop cs gap, ls = added ++ [stop] ∧ (∀ l ∈ added, l.kind ≠ .stop) ∧
      text.toList = cs ++ gap ∧ Written added cs ∧ Trivia gap := by
  unfold lexemes? at h
  dsimp only at h
  rw [htext] at h ⊢
  obtain ⟨added, stop, cs, gap, hls, -, hkinds, hcs, hwritten, hgap⟩ :=
    run_written neat_initial rfl (fun _ => rfl) hc h
  exact ⟨added, stop, cs, gap, by simpa [State.initial] using hls, hkinds, hcs, hwritten, hgap⟩

/-! ### Before the fragment -/

section Openings

variable {usual rest : List Char} {st : State} {fuel : Nat}

theorem run_of_step {cs cs' : List Char} {st' : State} (hne : cs ≠ [])
    (h : step .tolerant usual st cs = some (st', cs')) :
    run .tolerant usual (fuel + 1) st cs = run .tolerant usual fuel st' cs' := by
  rw [run, h]
  · rfl
  · exact hne

theorem step_blank (hjoined : st.joined = []) (hline : st.lineStart = false) :
    step .tolerant usual st (' ' :: rest) = some (st.skip [' '], rest) := by
  simp [step, hjoined, hline, isInlineBlank]

theorem lexWord_for : lexWord .tolerant usual st ('f' :: 'o' :: 'r' :: ' ' :: rest) =
    some (st.emit usual .name "for".toList, ' ' :: rest) := by
  have hword : Text.isIdentifier "for" = true := by decide
  simpa [lexWord, stringOpening, isWordLike, List.takeWhile] using hword

theorem lexWord_match : lexWord .tolerant usual st ('m' :: 'a' :: 't' :: 'c' :: 'h' :: ' ' :: rest) =
    some (st.emit usual .name "match".toList, ' ' :: rest) := by
  have hword : Text.isIdentifier "match" = true := by decide
  simpa [lexWord, stringOpening, isWordLike, List.takeWhile] using hword

theorem lexWord_rule : lexWord .tolerant usual st ('_' :: ':' :: rest) =
    some (st.emit usual .name "_".toList, ':' :: rest) := by
  have hword : Text.isIdentifier "_" = true := by decide
  simpa [lexWord, stringOpening, isWordLike, List.takeWhile, stringMarks] using hword

theorem lexWord_case : lexWord .tolerant usual st ('c' :: 'a' :: 's' :: 'e' :: ' ' :: rest) =
    some (st.emit usual .name "case".toList, ' ' :: rest) := by
  have hword : Text.isIdentifier "case" = true := by decide
  simpa [lexWord, stringOpening, isWordLike, List.takeWhile] using hword

theorem lexWord_colon (hjoined : st.joined = []) : lexWord .tolerant usual st (':' :: '\n' :: rest) =
    some (st.emit usual .operator ":".toList, '\n' :: rest) := by
  simp [lexWord, stringOpening, isWordLike, List.takeWhile, stringMarks, hjoined, operators, State.operator]

theorem step_lineFeed (hjoined : st.joined = []) (hline : st.lineStart = false)
    (hbrackets : st.brackets = []) :
    step .tolerant usual st ('\n' :: rest) =
      some ({ st.emit usual .newline ['\n'] with lineStart := true }, rest) := by
  simp [step, hjoined, hline, isInlineBlank, breakLength, hbrackets]

/-- The lexer at the first word of an indented line. -/
def indented (st : State) : State :=
  ({ st.mark .indent "    ".toList with levels := [⟨4, 4, "    ".toList⟩] }).skip "    ".toList

theorem step_indented (hjoined : st.joined = []) (hline : st.lineStart = true)
    (hbrackets : st.brackets = []) (hlevels : st.levels = []) :
    step .tolerant usual st (' ' :: ' ' :: ' ' :: ' ' :: 'c' :: 'a' :: 's' :: 'e' :: ' ' :: rest) =
      some ((indented st).emit usual .name "case".toList, ' ' :: rest) := by
  rw [← lexWord_case]
  simp [step, hjoined, hline, hbrackets, hlevels, leadingBlanks, isInlineBlank, measure, breakLength,
    State.indentTo, indented, List.takeWhile]

/-- The lexer has taken the lexemes and a blank. -/
structure Opened (st : State) (ls : List Lexeme) : Prop where
  neat : Neat st
  joined : st.joined = []
  lineStart : st.lineStart = false
  lexemes : st.lexemes.reverse = ls
  kinds : (ls.all fun l => l.kind != .stop) = true

theorem run_for (usual rest : List Char) (fuel : Nat) :
    ∃ st before,
      run .tolerant usual (fuel + 2) .initial ("for ".toList ++ rest) = run .tolerant usual fuel st rest ∧
      Opened st before ∧ ∃ l : Lexeme, before = [l] ∧ l.isWord "for" = true := by
  refine ⟨(State.initial.emit usual .name "for".toList).skip [' '], _, ?_, ⟨?_, rfl, rfl, rfl, rfl⟩, _, rfl,
    rfl⟩
  · have hfor : step .tolerant usual .initial ('f' :: 'o' :: 'r' :: ' ' :: rest) = _ :=
      (step_of_plain rfl (fun _ => rfl) rfl).trans lexWord_for
    show run .tolerant usual (fuel + 2) .initial ('f' :: 'o' :: 'r' :: ' ' :: rest) = _
    rw [run_of_step (by simp) hfor, run_of_step (by simp) (step_blank rfl rfl)]
  · exact ⟨.blank rfl .nil, nofun⟩

theorem run_case (usual rest : List Char) (fuel : Nat) :
    ∃ st before,
      run .tolerant usual (fuel + 7) .initial ("match _:\n    case ".toList ++ rest) =
        run .tolerant usual fuel st rest ∧
      Opened st before ∧ ∃ m v colon newline indent word : Lexeme,
        before = [m, v, colon, newline, indent, word] ∧ m.isWord "match" = true ∧ v.isWord "_" = true ∧
        colon.isOperator ":" = true := by
  let first := (State.initial.emit usual .name "match".toList).skip [' ']
  let second := (first.emit usual .name "_".toList).emit usual .operator ":".toList
  let third : State := { second.emit usual .newline ['\n'] with lineStart := true }
  let line := ' ' :: ' ' :: ' ' :: ' ' :: 'c' :: 'a' :: 's' :: 'e' :: ' ' :: rest
  refine ⟨((indented third).emit usual .name "case".toList).skip [' '], _, ?_,
    ⟨?_, rfl, rfl, rfl, rfl⟩, _, _, _, _, _, _, rfl, rfl, rfl, rfl⟩
  · have hmatch : step .tolerant usual .initial
        ('m' :: 'a' :: 't' :: 'c' :: 'h' :: ' ' :: '_' :: ':' :: '\n' :: line) = _ :=
      (step_of_plain rfl (fun _ => rfl) rfl).trans lexWord_match
    have hsubject : step .tolerant usual first ('_' :: ':' :: '\n' :: line) = _ :=
      (step_of_plain rfl (fun _ => rfl) rfl).trans lexWord_rule
    have hcolon : step .tolerant usual (first.emit usual .name "_".toList) (':' :: '\n' :: line) = _ :=
      (step_of_plain rfl (fun _ => rfl) rfl).trans (lexWord_colon rfl)
    show run .tolerant usual (fuel + 7) .initial
      ('m' :: 'a' :: 't' :: 'c' :: 'h' :: ' ' :: '_' :: ':' :: '\n' :: line) = _
    rw [run_of_step (by simp) hmatch, run_of_step (by simp) (step_blank rfl rfl),
      run_of_step (by simp) hsubject, run_of_step (by simp) hcolon,
      run_of_step (by simp) (step_lineFeed rfl rfl rfl),
      run_of_step (by simp) (step_indented rfl rfl rfl rfl),
      run_of_step (by simp) (step_blank rfl rfl)]
  · refine ⟨.blank rfl .nil, fun l hl => ?_⟩
    obtain rfl := List.mem_singleton.1 hl
    exact Text.forall_mem_of_all (by decide)

/-- The lexemes of a text that goes on with a plain character after an opening. -/
theorem Opened.written {c : Char} {opening ls : List Lexeme} (hst : Opened st opening)
    (hc : isPlain c = true) (h : run .tolerant usual fuel st (c :: rest) = some ls) :
    ∃ added stop cs gap, ls = opening ++ added ++ [stop] ∧ (∀ l ∈ opening ++ added, l.kind ≠ .stop) ∧
      c :: rest = cs ++ gap ∧ Written added cs ∧ Trivia gap := by
  have hline : st.lineStart = true → st.levels = [] := by
    rw [hst.lineStart]
    exact nofun
  obtain ⟨added, stop, cs, gap, hls, -, hkinds, hcs, hwritten, hgap⟩ :=
    run_written hst.neat hst.joined hline hc h
  rw [hst.lexemes] at hls
  refine ⟨added, stop, cs, gap, hls, fun l hl => ?_, hcs, hwritten, hgap⟩
  rcases List.mem_append.1 hl with hl | hl
  · simpa using List.all_eq_true.1 hst.kinds l hl
  · exact hkinds l hl

end Openings

end Lexer

/-! ### Trees -/

theorem eq_of_accepted {t? : Option Tree} (h : accepted t? = .ok t) : t? = some t := by
  unfold accepted at h
  split at h
  · cases h
  · split at h
    · cases h
      rfl
    · cases h

/-- A rule that reads a whole text takes its lexemes in order. -/
theorem read?_spec {start : (Grammar.Goal → Rule Unit) → Rule Unit} (h : read? d text start = some ts) :
    ∃ ls c, lexemes? d text = some ls ∧
      (start (Grammar.rule d (ls.length + 1))).run ⟨ls, []⟩ = some ((), c) ∧ ts = c.built.reverse ∧
      Tree.lexemesOf ts ++ c.rest = ls ∧ ∀ t ∈ ts, t.Full := by
  obtain ⟨ls, hls, h⟩ := Option.bind_eq_some_iff.1 h
  obtain ⟨⟨u, c⟩, hrun, hbuilt⟩ := Option.bind_eq_some_iff.1 h
  obtain rfl := Option.some.inj hbuilt
  have hleads := (start (Grammar.rule d (ls.length + 1))).leads hrun
  refine ⟨ls, c, hls, hrun, rfl, ?_, fun t ht => ?_⟩
  · simpa [Cursor.all, Tree.lexemesOf] using hleads.all_eq
  · exact hleads.full nofun t (List.mem_reverse.1 ht)

theorem expression?_spec (h : expression? d text = some t) :
    ∃ ls newline stop rest, lexemes? d text = some ls ∧ ls = t.lexemes ++ [newline] ++ stop :: rest ∧
      newline.kind = .newline ∧ stop.kind = .stop ∧ t.Full := by
  obtain ⟨ts, hread, hhead⟩ := Option.bind_eq_some_iff.1 h
  obtain ⟨ls, c, hls, hrun, rfl, hall, hfull⟩ := read?_spec hread
  obtain ⟨_, c₁, hexpr, hrest⟩ := Rule.bind_run_iff.1 hrun
  obtain ⟨t', -, hbuilt⟩ := Grammar.starExpressions_adds (Grammar.rule_adds d _) hexpr
  obtain ⟨_, c₂, hnewline, hend⟩ := Rule.bind_run_iff.1 hrest
  obtain ⟨newline, more, -, hkind, rfl⟩ := Rule.accept_run hnewline
  obtain ⟨stop, rest, -, hkind', rfl⟩ := Rule.accept_run hend
  obtain rfl : t' = t := by simpa [hbuilt] using hhead
  refine ⟨ls, newline, stop, rest, hls, ?_, by simpa using hkind, by simpa using hkind', ?_⟩
  · simpa [hbuilt, Tree.lexemesOf, Tree.lexemes] using hall.symm
  · exact hfull t' (by simp [hbuilt])

theorem statement?_spec (h : statement? d text = some t) :
    ∃ ls stop rest, lexemes? d text = some ls ∧ ls = t.lexemes ++ stop :: rest ∧ stop.kind = .stop ∧
      t.Full ∧
      (Grammar.statement d (Grammar.rule d ls.length)).run ⟨ls, []⟩ = some ((), ⟨stop :: rest, [t]⟩) := by
  obtain ⟨ts, hread, hhead⟩ := Option.bind_eq_some_iff.1 h
  obtain ⟨ls, c, hls, hrun, rfl, hall, hfull⟩ := read?_spec hread
  obtain ⟨_, c₁, hstatement, hend⟩ := Rule.bind_run_iff.1 hrun
  obtain ⟨t', -, hbuilt⟩ := Grammar.rule_adds d _ .statement hstatement
  obtain ⟨stop, rest, hrest, hkind, rfl⟩ := Rule.accept_run hend
  obtain rfl : t' = t := by simpa [hbuilt] using hhead
  obtain ⟨more, built⟩ := c₁
  obtain rfl : built = [t'] := hbuilt
  obtain rfl : more = stop :: rest := hrest
  refine ⟨ls, stop, rest, hls, ?_, by simpa using hkind, hfull t' (by simp), hstatement⟩
  simpa [Tree.lexemesOf, Tree.lexemes] using hall.symm

/-- A text that has a tree is not empty. -/
theorem lexemes?_empty (h : lexemes? .tolerant "" = some ls) : ls.length = 1 := by
  have hstop : lexemes? .tolerant "" = some [⟨.stop, "", [], 0, 0⟩] := rfl
  rw [hstop] at h
  cases h
  rfl

theorem toList_ne_nil_of_readExpression (h : readExpression text = .ok t) :
    text.toList ≠ [] := by
  intro hempty
  obtain rfl : text = "" := String.toList_eq_nil_iff.1 hempty
  obtain ⟨ls, newline, stop, rest, hls, rfl, -⟩ := expression?_spec (eq_of_accepted h)
  have hlength := lexemes?_empty hls
  rw [List.length_append, List.length_cons] at hlength
  have hpos : 0 < (t.lexemes ++ [newline]).length := by simp
  omega

theorem toList_ne_nil_of_readStatement (h : readStatement text = .ok t) :
    text.toList ≠ [] := by
  intro hempty
  obtain rfl : text = "" := String.toList_eq_nil_iff.1 hempty
  obtain ⟨ls, stop, rest, hls, rfl, -, hfull, -⟩ := statement?_spec (eq_of_accepted h)
  have hlength := lexemes?_empty hls
  have hpos := List.length_pos_iff.2 hfull.lexemes_ne_nil
  rw [List.length_append, List.length_cons] at hlength
  omega

/-- The lexemes before the end of the text are determined. -/
theorem eq_of_append_stop {ms rest : List Lexeme} {stop stop' : Lexeme} (h : ls ++ stop :: rest = ms ++ [stop'])
    (hstop : stop.kind = .stop) (hms : ∀ l ∈ ms, l.kind ≠ .stop) :
    ls = ms := by
  induction ls generalizing ms with
  | nil =>
    cases ms with
    | nil => rfl
    | cons m ms =>
      obtain ⟨rfl, -⟩ := List.cons.inj h
      exact absurd hstop (hms stop (by simp))
  | cons l ls ih =>
    cases ms with
    | nil => simp at h
    | cons m ms =>
      obtain ⟨rfl, htail⟩ := List.cons.inj h
      rw [ih htail fun k hk => hms k (List.mem_cons_of_mem l hk)]

/-! ### Expressions and simple statements -/

/-- An expression is all of its text. -/
theorem readExpression_spelled (h : readExpression text = .ok t) (htext : text.toList = c :: rest)
    (hc : isPlain c = true) :
    t.Full ∧ SpelledUpTo t.lexemes text.toList [] := by
  obtain ⟨ls, newline, stop, more, hls, hall, hnewline, hstop, hfull⟩ := expression?_spec (eq_of_accepted h)
  obtain ⟨added, stop', cs, gap, hadded, hkinds, hcs, hwritten, hgap⟩ := lexemes?_written hls htext hc
  obtain rfl := eq_of_append_stop (hall.symm.trans hadded) hstop hkinds
  obtain ⟨a, b, rfl, ha, hb⟩ := hwritten.of_append hfull.lexemes_ne_nil
  refine ⟨hfull, a, b ++ gap, ?_, ha, (hb.trivia_of_newline hnewline).append hgap⟩
  rw [hcs]
  simp

/-- Only a gap is left, or a semicolon that ends the line. -/
def EndsStatement (rest : List Char) : Prop := rest = [] ∨ ∃ gap, rest = ';' :: gap ∧ Trivia gap

theorem eq_of_onlySimple? (h : BlockReader.onlySimple? tree = some t) :
    tree.is .line = true ∧ tree.parts = [t] := by
  unfold BlockReader.onlySimple? at h
  split at h
  · rename_i hline
    split at h
    · rename_i hparts
      cases h
      exact ⟨hline, hparts⟩
    · cases h
  · cases h

/-- The only statement of a line comes first; a semicolon and the end of the line may follow. -/
theorem lexemes_of_onlySimple? (h : Grammar.IsStatement tree) (hone : BlockReader.onlySimple? tree = some t) :
    Grammar.IsSimple t ∧ t ∈ tree.children ∧ ∃ last newline,
      tree.lexemes = t.lexemes ++ (last ++ [newline]) ∧ newline.kind = .newline ∧
      (last = [] ∨ ∃ l : Lexeme, last = [l] ∧ l.isOperator ";" = true) := by
  obtain ⟨hline, hparts⟩ := eq_of_onlySimple? hone
  obtain ⟨k, ts, rfl, hshape⟩ := h
  obtain rfl : k = .line := by simpa [Tree.is, Tree.kind?] using hline
  obtain ⟨last, newline, rfl, hsimple, hlast, hnewline⟩ := (hshape rfl).of_parts hparts
  refine ⟨hsimple, by simp [Tree.children], ?_⟩
  rcases hlast with rfl | ⟨l, hl, rfl⟩
  · exact ⟨[], newline, by simp [Tree.lexemes, Tree.lexemesOf], hnewline, .inl rfl⟩
  · exact ⟨[l], newline, by simp [Tree.lexemes, Tree.lexemesOf], hnewline, .inr ⟨l, rfl, hl⟩⟩

theorem endsStatement_of_spells {last : List Lexeme} {newline : Lexeme} {gap : List Char}
    (h : Spells (last ++ [newline]) cs) (hnewline : newline.kind = .newline)
    (hlast : last = [] ∨ ∃ l : Lexeme, last = [l] ∧ l.isOperator ";" = true) (hgap : Trivia gap) :
    ∃ before rest, cs ++ gap = before ++ rest ∧ Trivia before ∧ EndsStatement rest := by
  rcases hlast with rfl | ⟨l, rfl, hl⟩
  · have hcs : Trivia cs := h.trivia_of_newline hnewline
    exact ⟨cs ++ gap, [], by simp, hcs.append hgap, .inl rfl⟩
  · obtain ⟨before, rest, rfl, hbefore, hrest⟩ := h.of_cons (not_isMark_of_isOperator hl)
    refine ⟨before, ';' :: (rest ++ gap), ?_, hbefore, .inr ⟨_, rfl, ?_⟩⟩
    · simp [text_of_isOperator hl]
    · exact (hrest.trivia_of_newline hnewline).append hgap

/-- The only statement of a line is all of its text but for a semicolon. -/
theorem readStatement_spelled (h : readStatement text = .ok tree) (hone : BlockReader.onlySimple? tree = some t)
    (htext : text.toList = c :: rest) (hc : isPlain c = true) :
    t.Full ∧ Grammar.IsSimple t ∧ ∃ rest, SpelledUpTo t.lexemes text.toList rest ∧ EndsStatement rest := by
  obtain ⟨ls, stop, more, hls, hall, hstop, hfull, hrun⟩ := statement?_spec (eq_of_accepted h)
  obtain ⟨tree', hstatement, hbuilt⟩ := Grammar.statement_isStatement (Grammar.rule_adds _ _) hrun
  obtain rfl := (List.cons.inj hbuilt).1
  obtain ⟨hsimple, hmem, last, newline, hlexemes, hnewline, hlast⟩ := lexemes_of_onlySimple? hstatement hone
  have htfull : t.Full := by
    cases hfull with
    | leaf => cases hmem
    | node _ hchildren => exact hchildren t hmem
  obtain ⟨added, stop', cs, gap, hadded, hkinds, hcs, hwritten, hgap⟩ := lexemes?_written hls htext hc
  obtain rfl := eq_of_append_stop (hall.symm.trans hadded) hstop hkinds
  rw [hlexemes] at hwritten
  obtain ⟨a, b, rfl, ha, hb⟩ := hwritten.of_append htfull.lexemes_ne_nil
  obtain ⟨before, rest', hbgap, hbefore, hends⟩ := endsStatement_of_spells hb hnewline hlast hgap
  refine ⟨htfull, hsimple, rest', ⟨a, before, ?_, ha, hbefore⟩, hends⟩
  rw [hcs, List.append_assoc, hbgap, List.append_assoc]

/-! ### Fragments inside a longer text -/

section Words

variable {cs before after tail : List Char}

/-- A word is found where it was put after a text, or it stands in the text before that. -/
theorem append_word_cases {d : Char} {w : List Char} (hd : d ∉ w ++ tail)
    (h : cs ++ (d :: w ++ tail) = before ++ (d :: w ++ after)) :
    ∃ lost, cs = before ++ lost ∧ (lost = [] ∨ d :: w <+: lost) := by
  rcases List.append_eq_append_iff.1 h with ⟨e, rfl, he⟩ | ⟨lost, hcs, he⟩
  · cases e with
    | nil => exact ⟨[], by simp, .inl rfl⟩
    | cons x e =>
      have htail : w ++ tail = e ++ (d :: w ++ after) := (List.cons.inj he).2
      exact absurd (htail ▸ by simp) hd
  · refine ⟨lost, hcs, ?_⟩
    cases lost with
    | nil => exact .inl rfl
    | cons x lost =>
      obtain ⟨rfl, hrest⟩ := List.cons.inj he
      rcases List.append_eq_append_iff.1 hrest with ⟨e, rfl, -⟩ | ⟨e, rfl, he⟩
      · exact .inr ⟨e, rfl⟩
      · cases e with
        | nil => exact .inr (by simp)
        | cons y e =>
          obtain ⟨rfl, -⟩ := List.cons.inj he
          exact absurd (by simp) hd

/-- A word that shares no character with what was put after a text stands in the text. -/
theorem append_other_word_cases {w : List Char} (hne : w ≠ []) (hw : ∀ c ∈ w, c ∉ tail)
    (h : cs ++ tail = before ++ (w ++ after)) : ∃ lost, cs = before ++ lost ∧ w <+: lost := by
  rcases List.append_eq_append_iff.1 h with ⟨e, rfl, he⟩ | ⟨lost, hcs, he⟩
  · obtain ⟨d, w, rfl⟩ := List.exists_cons_of_ne_nil hne
    exact absurd (he ▸ by simp) (hw d (by simp))
  · refine ⟨lost, hcs, ?_⟩
    rcases List.append_eq_append_iff.1 he with ⟨e, rfl, -⟩ | ⟨e, rfl, he'⟩
    · exact ⟨e, rfl⟩
    · cases e with
      | nil => simp
      | cons y e => exact absurd (he' ▸ by simp) (hw y (by simp))

end Words

/-- The lexemes of a text after an opening that the lexer has passed. -/
theorem lexemes?_opened {opening : String} {P : List Lexeme → Prop} (steps : Nat) (hsteps : steps ≤ opening.length)
    (hrun : ∀ usual rest fuel, ∃ st before,
      run .tolerant usual (fuel + steps) .initial (opening.toList ++ rest) =
        run .tolerant usual fuel st rest ∧
      Opened st before ∧ P before) (h : lexemes? .tolerant (opening ++ s) = some ls) (hs : s.toList = c :: rest)
    (hc : isPlain c = true) :
    ∃ before added stop cs gap, ls = before ++ added ++ [stop] ∧ P before ∧
      (∀ l ∈ before ++ added, l.kind ≠ .stop) ∧ s.toList = cs ++ gap ∧ Written added cs ∧ Trivia gap := by
  unfold lexemes? at h
  dsimp only at h
  rw [String.toList_append, hs] at h
  obtain ⟨st, before, hopen, hst, hbefore⟩ := hrun (firstBreak (opening.toList ++ c :: rest)) (c :: rest)
    ((opening.toList ++ c :: rest).length + 1 - steps)
  have hlength : steps ≤ (opening.toList ++ c :: rest).length + 1 := by
    rw [List.length_append, String.length_toList]
    omega
  rw [Nat.sub_add_cancel hlength] at hopen
  rw [hopen] at h
  obtain ⟨added, stop, cs, gap, hls, hkinds, hcs, hwritten, hgap⟩ := hst.written hc h
  exact ⟨before, added, stop, cs, gap, hls, hbefore, hkinds, hs.trans hcs, hwritten, hgap⟩

/-- The target of a loop is its text, unless the text goes on with `in` itself. -/
theorem readStatement_loop (h : readStatement ("for " ++ s ++ " in _: pass") = .ok tree) (hs : s.toList = c :: rest)
    (hc : isPlain c = true) :
    ∃ target more lost, tree.parts = target :: more ∧ target.Full ∧
      SpelledUpTo target.lexemes (s.toList ++ [' ']) lost ∧ (lost = [] ∨ "in".toList <+: lost) := by
  obtain ⟨ls, stop, more, hls, hall, hstop, hfull, hrun⟩ := statement?_spec (eq_of_accepted h)
  rw [String.append_assoc] at hls
  obtain ⟨_, added, stop', cs, gap, rfl, ⟨l, rfl, hl⟩, hkinds, hcs, hwritten, hgap⟩ :=
    lexemes?_opened 2 (by decide) run_for hls (by rw [String.toList_append, hs, List.cons_append]) hc
  obtain ⟨target, inWord, others, hbuilt, hnode, hin⟩ :=
    Grammar.statement_for (Grammar.rule_adds _ _) hl hrun
  obtain rfl := (List.cons.inj hbuilt).1
  have hlexemes := eq_of_append_stop hall.symm hstop hkinds
  obtain rfl : target.lexemes ++ inWord :: Tree.lexemesOf others = added := by
    simpa [Tree.lexemes, Tree.lexemesOf] using hlexemes
  have htarget : target.Full := by
    cases hfull with
    | node _ hchildren => exact hchildren target (by simp)
  obtain ⟨a, b, rfl, ha, hb⟩ := hwritten.of_append htarget.lexemes_ne_nil
  obtain ⟨between, after, rfl, hbetween, -⟩ := hb.of_cons (not_isMark_of_isWord hin)
  rw [text_of_isWord hin] at hcs
  have hcases : (s.toList ++ [' ']) ++ ('i' :: ['n'] ++ " _: pass".toList) =
      (a ++ between) ++ ('i' :: ['n'] ++ (after ++ gap)) := by
    have htext : s.toList ++ " in _: pass".toList = a ++ (between ++ ("in".toList ++ after)) ++ gap := by
      rw [← String.toList_append]
      exact hcs
    simpa using htext
  obtain ⟨lost, hlost, hin⟩ := append_word_cases (by decide) hcases
  obtain ⟨k, ts, rfl⟩ := hnode
  refine ⟨_, _, lost, rfl, htarget, ⟨a, between, hlost, ha, hbetween⟩, hin⟩

/-- The pattern of a case is its text, unless the text goes on with a guard or a colon itself. -/
theorem readStatement_case {clause : Tree} {more : List Tree}
    (h : readStatement ("match _:\n    case " ++ s ++ ":\n        pass\n") = .ok tree)
    (hclause : tree.partsOf .caseClause = clause :: more) (hs : s.toList = c :: rest) (hc : isPlain c = true) :
    ∃ pattern lost, clause.parts.head? = some pattern ∧ pattern.Full ∧
      SpelledUpTo pattern.lexemes s.toList lost ∧
      (lost = [] ∨ "if".toList <+: lost ∨ ":".toList <+: lost) := by
  obtain ⟨ls, stop, left, hls, hall, hstop, hfull, hrun⟩ := statement?_spec (eq_of_accepted h)
  rw [String.append_assoc] at hls
  obtain ⟨_, added, stop', cs, gap, rfl, ⟨m, v, colon, newline, indent, word, rfl, hm, hv, hcolon⟩, hkinds,
      hcs, hwritten, hgap⟩ :=
    lexemes?_opened 7 (by decide) run_case hls (by rw [String.toList_append, hs, List.cons_append]) hc
  have hrun : (Grammar.statement .tolerant (Grammar.rule .tolerant (added.length + 6 + 1))).run
      ⟨m :: v :: colon :: newline :: indent :: word :: (added ++ [stop']), []⟩ =
        some ((), ⟨stop :: left, [tree]⟩) := by
    simpa using hrun
  rcases Grammar.statement_match hm hv hcolon hrun with
    ⟨ts, hbuilt, hline⟩ | ⟨nl, ind, ts, others, hbuilt, hcase⟩
  · obtain rfl := (List.cons.inj hbuilt).1
    rw [hline.partsOf_caseClause] at hclause
    cases hclause
  obtain rfl := (List.cons.inj hbuilt).1
  obtain ⟨rfl, -⟩ : Tree.node .caseClause ts = clause ∧ _ := List.cons.inj hclause
  obtain ⟨caseWord, pattern, tail, l, after, rfl, -, hnode, htail, hends⟩ := hcase
  have hlexemes := eq_of_append_stop hall.symm hstop hkinds
  obtain rfl : pattern.lexemes ++ l :: (after ++ Tree.lexemesOf others) = added := by
    simp only [Tree.lexemes, Tree.lexemesOf, htail, List.append_assoc, List.cons_append, List.nil_append,
      List.cons.injEq, true_and] at hlexemes
    exact hlexemes.2.2.2
  have hpattern : pattern.Full := by
    cases hfull with
    | node _ hchildren =>
      cases hchildren (.node .caseClause (.leaf caseWord :: pattern :: tail)) (by simp) with
      | node _ hparts => exact hparts pattern (by simp)
  obtain ⟨a, b, rfl, ha, hb⟩ := hwritten.of_append hpattern.lexemes_ne_nil
  -- the lexeme after the pattern is a guard or a colon
  have hlost : ∃ between lost, s.toList = (a ++ between) ++ lost ∧ Trivia between ∧
      (lost = [] ∨ "if".toList <+: lost ∨ ":".toList <+: lost) := by
    rw [String.toList_append] at hcs
    rcases hends with hif | hcolon
    · obtain ⟨between, after, rfl, hbetween, -⟩ := hb.of_cons (not_isMark_of_isWord hif)
      rw [text_of_isWord hif] at hcs
      have hcases : s.toList ++ ":\n        pass\n".toList =
          (a ++ between) ++ ("if".toList ++ (after ++ gap)) := by
        simpa using hcs
      obtain ⟨lost, hlost, hprefix⟩ := append_other_word_cases (by decide) (Text.forall_mem_of_all (by decide)) hcases
      exact ⟨between, lost, hlost, hbetween, .inr (.inl hprefix)⟩
    · obtain ⟨between, after, rfl, hbetween, -⟩ := hb.of_cons (not_isMark_of_isOperator hcolon)
      rw [text_of_isOperator hcolon] at hcs
      have hcases : s.toList ++ (':' :: [] ++ "\n        pass\n".toList) =
          (a ++ between) ++ (':' :: [] ++ (after ++ gap)) := by
        simpa using hcs
      obtain ⟨lost, hlost, hprefix⟩ := append_word_cases (by decide) hcases
      exact ⟨between, lost, hlost, hbetween, hprefix.imp_right .inr⟩
  obtain ⟨between, lost, hlost, hbetween, hprefix⟩ := hlost
  obtain ⟨k, us, rfl⟩ := hnode
  exact ⟨_, lost, rfl, hpattern, ⟨a, between, hlost, ha, hbetween⟩, hprefix⟩

/-- What is written last ends the text. -/
theorem Lexer.Written.ends_with {l : Lexeme} (h : Written (ls ++ [l]) cs) (hl : l.isOperator s = true) :
    ∃ init, cs = init ++ s.toList := by
  by_cases hls : ls = []
  · subst hls
    cases h with
    | mk _ hnil =>
      cases hnil
      exact ⟨[], by simp [text_of_isOperator hl]⟩
  · obtain ⟨a, b, rfl, -, hb⟩ := h.of_append hls
    obtain ⟨gap, rest, rfl, -, hnil⟩ := hb.of_cons (not_isMark_of_isOperator hl)
    cases hnil
    exact ⟨a ++ gap, by simp [text_of_isOperator hl]⟩

/-- Targets end with an equals sign. -/
theorem Grammar.Targeted.exists_last (h : Grammar.Targeted ts) (hne : ts ≠ []) :
    ∃ us equals, ts = us ++ [.leaf equals] ∧ equals.isOperator "=" = true := by
  induction h with
  | nil => exact absurd rfl hne
  | @cons t equals rest hequals hrest ih =>
    cases hrest with
    | nil => exact ⟨[t], equals, rfl, hequals⟩
    | cons =>
      obtain ⟨us, last, hus, hlast⟩ := ih (by simp)
      exact ⟨t :: .leaf equals :: us, last, by rw [hus]; rfl, hlast⟩

/-- The targets of an assignment are its text, unless the text goes on with the value itself. -/
theorem readStatement_targets (h : readStatement (s ++ " None") = .ok tree)
    (hone : BlockReader.onlySimple? tree = some t) (hassign : t.is .assign = true) (hs : s.toList = c :: rest)
    (hc : isPlain c = true) :
    ∃ us vs text lost value gap after,
      (BlockReader.targetsOf t.children).flatMap Target.surface = surfaceOf us ++ gapOf vs ∧
      s.toList = text ++ lost ∧ Written us text ∧ vs ≠ [] ∧ Spells vs value ∧
      lost ++ " None".toList = value ++ gap ++ after ∧ Trivia gap ∧ EndsStatement after := by
  have htext : (s ++ " None").toList = c :: (rest ++ " None".toList) := by
    rw [String.toList_append, hs, List.cons_append]
  obtain ⟨hfull, hsimple, after, ⟨cs, gap, hcs, hwritten, hgap⟩, hafter⟩ :=
    readStatement_spelled h hone htext hc
  obtain ⟨k, ts, rfl, -, hshape, -⟩ := hsimple
  obtain rfl : k = .assign := by simpa [Tree.is, Tree.kind?] using hassign
  obtain ⟨us, v, rfl, hne, htargeted⟩ := hshape rfl
  have hchildren : ∀ u ∈ us ++ [v], u.Full := by
    cases hfull with
    | node _ hchildren => exact hchildren
  have hv : v.Full := hchildren v (by simp)
  have hus : ∀ u ∈ us, u.Full := fun u hu => hchildren u (by simp [hu])
  have hlexemes : (Tree.node .assign (us ++ [v])).lexemes = Tree.lexemesOf us ++ v.lexemes := by
    simp [Tree.lexemes, Tree.lexemesOf_append, Tree.lexemesOf]
  rw [hlexemes] at hwritten
  have husne : Tree.lexemesOf us ≠ [] := by
    obtain ⟨u, more, rfl⟩ := List.exists_cons_of_ne_nil hne
    have := (hus u (by simp)).lexemes_ne_nil
    simp [Tree.lexemesOf, this]
  obtain ⟨text, value, rfl, ha, hb⟩ := hwritten.of_append husne
  have hsurface := Tree.targetsOf_surface htargeted hus v
  rw [if_neg hne, Tree.gap_eq] at hsurface
  -- the text of the targets ends with an equals sign, so it is not longer than `s`
  have hend : ∃ init, text = init ++ "=".toList := by
    obtain ⟨before, equals, rfl, hequals⟩ := htargeted.exists_last hne
    have hlast : Written (Tree.lexemesOf before ++ [equals]) text := by
      simpa [Tree.lexemesOf_append, Tree.lexemesOf, Tree.lexemes] using ha
    exact hlast.ends_with hequals
  have hlost : ∃ lost, s.toList = text ++ lost := by
    obtain ⟨init, rfl⟩ := hend
    have hcs : s.toList ++ " None".toList = init ++ ("=".toList ++ (value ++ gap ++ after)) := by
      rw [← String.toList_append, hcs]
      simp
    obtain ⟨lost, hlost, more, rfl⟩ := append_other_word_cases (by decide) (Text.forall_mem_of_all (by decide)) hcs
    exact ⟨more, by rw [hlost, List.append_assoc]⟩
  obtain ⟨lost, hlost⟩ := hlost
  refine ⟨_, _, text, lost, value, gap, after, hsurface, hlost, ha, hv.lexemes_ne_nil, hb, ?_, hgap, hafter⟩
  rw [String.toList_append, hlost] at hcs
  simpa using hcs

end DoBlocks.Host
