import DoBlocks.Proofs.TokenClasses

/-!
# Texts that host and block language can both cut

A text `Splits` if its tokens can be cut off one after another. It is readable if it splits or if nothing in
it is cut differently by the host; then what the host takes next is a token here too, and what follows is
readable again. A `Gap` between two places of a text holds only blanks, comments, continued lines and line
breaks.
-/

namespace DoBlocks.Lexer

open Host.Lexer (isWordLike endsNumber breakLength isInlineBlank)

/-! ### No token is empty -/

theorem lt_of_tripleBody {q : Char} {k n : Nat} {cs : List Char} (h : tripleBody q k cs = some n) : k < n := by
  fun_induction tripleBody q k cs with
  | case1 => cases h
  | case2 k _ rest ih => exact Nat.lt_of_le_of_lt (Nat.le_add_right k 2) (ih h)
  | case3 => cases h; omega
  | case4 => cases h
  | case5 k _ rest _ _ _ ih => exact Nat.lt_of_le_of_lt (Nat.le_add_right k 1) (ih h)

theorem lt_of_lineBody {q : Char} {k n : Nat} {cs : List Char} (h : lineBody q k cs = some n) : k < n := by
  fun_induction lineBody q k cs with
  | case1 => cases h
  | case2 k _ rest ih => exact Nat.lt_of_le_of_lt (Nat.le_add_right k 2) (ih h)
  | case3 => cases h; omega
  | case4 => cases h
  | case5 k _ rest _ _ _ ih => exact Nat.lt_of_le_of_lt (Nat.le_add_right k 1) (ih h)

theorem quotedLength_pos {cs : List Char} {n : Nat} (h : quotedLength cs = some n) : 0 < n := by
  unfold quotedLength at h
  split at h
  · split at h
    · dsimp only at h
      rcases Option.or_eq_some_iff.1 h with h | ⟨-, h⟩
      · split at h
        · exact Nat.lt_trans (by decide) (lt_of_tripleBody h)
        · cases h
      · exact Nat.lt_trans (by decide) (lt_of_lineBody h)
    · cases h
  · cases h

theorem stringLength_pos {cs : List Char} {n : Nat} (h : stringLength cs = some n) : 0 < n := by
  unfold stringLength at h
  split at h
  · dsimp only at h
    rcases Option.or_eq_some_iff.1 h with h | ⟨-, h⟩
    · rcases Option.or_eq_some_iff.1 h with h | ⟨-, h⟩
      · split at h
        · obtain ⟨m, -, rfl⟩ := Option.map_eq_some_iff.1 h
          omega
        · cases h
      · split at h
        · obtain ⟨m, -, rfl⟩ := Option.map_eq_some_iff.1 h
          omega
        · cases h
    · exact quotedLength_pos h
  · cases h

theorem basedLength_pos {p : Char → Bool} {cs : List Char} {n : Nat} (h : basedLength p cs = some n) : 0 < n := by
  unfold basedLength at h
  dsimp only at h
  split at h
  · cases h
  · cases h
    omega

theorem mantissaLength_pos {cs : List Char} {n : Nat} (h : mantissaLength cs = some n) : 0 < n := by
  unfold mantissaLength at h
  grind

theorem numberLength_pos {cs : List Char} {n : Nat} (h : numberLength cs = some n) : 0 < n := by
  rcases Option.or_eq_some_iff.1 h with h | ⟨-, h⟩
  · unfold markedLength at h
    split at h
    · split at h
      · exact basedLength_pos h
      split at h
      · exact basedLength_pos h
      split at h
      · exact basedLength_pos h
      · cases h
    · cases h
  · obtain ⟨m, hm, rfl⟩ := Option.map_eq_some_iff.1 h
    exact Nat.lt_of_lt_of_le (mantissaLength_pos hm) (by dsimp only; omega)

theorem newlineLength_pos {cs : List Char} {n : Nat} (h : newlineLength cs = some n) : 0 < n := by
  unfold newlineLength at h
  split at h <;> cases h <;> decide

theorem operatorLength_pos {cs : List Char} {n : Nat} (h : operatorLength cs = some n) : 0 < n := by
  obtain ⟨o, ho, rfl⟩ := Option.map_eq_some_iff.1 h
  have hall : ∀ o ∈ operators, 0 < o.length := by decide
  exact hall o (List.mem_of_find?_eq_some ho)

theorem lexeme?_pos {cs : List Char} {kind : TokenKind} {n : Nat} (h : lexeme? cs = some (kind, n)) : 0 < n := by
  obtain ⟨c, hc, hkind⟩ := List.exists_of_findSome?_eq_some h
  obtain ⟨m, hm, heq⟩ := Option.map_eq_some_iff.1 hkind
  cases heq
  simp only [classes, List.mem_cons, List.not_mem_nil, or_false] at hc
  rcases hc with rfl | rfl | rfl | rfl | rfl | rfl | rfl | rfl | rfl | rfl
  · dsimp only [commentLength] at hm
    split at hm <;> cases hm
    omega
  · exact stringLength_pos hm
  · exact numberLength_pos hm
  · dsimp only [nameLength] at hm
    split at hm
    · split at hm <;> cases hm
      omega
    · cases hm
  · dsimp only [arrowLength] at hm
    split at hm <;> cases hm
    decide
  · exact operatorLength_pos hm
  · dsimp only [symbolLength] at hm
    split at hm
    · split at hm <;> cases hm
      decide
    · cases hm
  · dsimp only [continuationLength] at hm
    split at hm
    · obtain ⟨k, -, rfl⟩ := Option.map_eq_some_iff.1 hm
      exact Nat.succ_pos k
    · cases hm
  · exact newlineLength_pos hm
  · dsimp only [whitespaceLength] at hm
    split at hm
    · cases hm
    · rename_i hne
      cases hm
      exact Nat.pos_of_ne_zero (by simpa using hne)

/-! ### Cuts -/

/-- The kind and the characters of a token. -/
abbrev Cut := TokenKind × List Char

/-- The text is the cuts one after another. -/
inductive Splits : List Char → List Cut → Prop
  | nil : Splits [] []
  | cons {cs : List Char} {kind : TokenKind} {n : Nat} {ps : List Cut} :
    lexeme? cs = some (kind, n + 1) → Splits (cs.drop (n + 1)) ps → Splits cs ((kind, cs.take (n + 1)) :: ps)

/-- The cuts that are no trivia. -/
def visible (ps : List Cut) : List Cut := ps.filter fun p => !p.1.isTrivia

/-- The text splits, or nothing in it is cut differently by the host. -/
def Readable (cs : List Char) : Prop := Tidy cs ∨ ∃ ps, Splits cs ps

variable {cs rest : List Char} {c : Char} {kind : TokenKind} {n : Nat} {ps : List Cut}

namespace Splits

theorem of_lexeme? (h : Splits cs ps) (hlex : lexeme? cs = some (kind, n)) :
    ∃ ps', Splits (cs.drop n) ps' ∧ ps = (kind, cs.take n) :: ps' := by
  cases h with
  | nil => cases hlex
  | cons hlex' hrest =>
    obtain ⟨rfl, rfl⟩ := Prod.mk.inj (Option.some.inj (hlex.symm.trans hlex'))
    exact ⟨_, hrest, rfl⟩

/-- One more token in front. -/
theorem push (hlex : lexeme? cs = some (kind, n)) (h : Splits (cs.drop n) ps) :
    Splits cs ((kind, cs.take n) :: ps) := by
  obtain ⟨k, rfl⟩ := Nat.exists_eq_succ_of_ne_zero (Nat.pos_iff_ne_zero.1 (lexeme?_pos hlex))
  exact .cons hlex h

theorem lexeme?_ne_none (h : Splits (c :: rest) ps) : lexeme? (c :: rest) ≠ none := by
  cases h with
  | cons hlex _ =>
    rw [hlex]
    exact Option.some_ne_none _

end Splits

namespace Readable

theorem next (h : Readable cs) (hlex : lexeme? cs = some (kind, n)) : Readable (cs.drop n) := by
  rcases h with h | ⟨ps, h⟩
  · exact .inl (h.drop _)
  · obtain ⟨ps', hrest, -⟩ := h.of_lexeme? hlex
    exact .inr ⟨ps', hrest⟩

/-- Where no token can be cut off, the text is tidy. -/
theorem tidy (h : Readable (c :: rest)) (hlex : lexeme? (c :: rest) = none) : Tidy (c :: rest) :=
  h.resolve_right fun ⟨_, hps⟩ => hps.lexeme?_ne_none hlex

end Readable

/-! ### Line breaks -/

/-- A line break is one here too, but for a lone carriage return. -/
theorem newlineLength_cases (h : breakLength cs ≠ 0) : newlineLength cs = some (breakLength cs) ∨
    newlineLength cs = none ∧ ∃ rest, cs = '\r' :: rest ∧ rest.head? ≠ some '\n' := by
  unfold breakLength at h ⊢
  split at h
  · exact .inl rfl
  · rename_i rest hne
    refine .inr ⟨?_, rest, rfl, fun hfeed => ?_⟩
    · unfold newlineLength
      split
      · rename_i heq
        cases heq
      · rename_i heq
        cases heq
        exact absurd rfl (hne _)
      · rfl
    · obtain ⟨more, rfl⟩ := List.head?_eq_some_iff.1 hfeed
      exact hne more rfl
  · exact .inl rfl
  · exact absurd rfl h

theorem lexeme?_of_breakLength (h : Readable cs) (hbreak : breakLength cs ≠ 0) :
    lexeme? cs = some (.newline, breakLength cs) := by
  rcases newlineLength_cases hbreak with hnewline | ⟨hnone, rest, rfl, hhead⟩
  · exact lexeme?_newline hnewline
  · have hlex : lexeme? ('\r' :: rest) = none := by
      rw [lexeme?_of_gapStart (by decide)]
      simp [continuationLength, hnone, whitespaceLength, countWhile]
    exact absurd ((h.tidy hlex).2.1 rfl) hhead

/-- A continued line is a token. -/
theorem lexeme?_of_continued (h : Readable ('\\' :: rest)) (hbreak : breakLength rest ≠ 0) :
    lexeme? ('\\' :: rest) = some (.continuation, breakLength rest + 1) := by
  rcases newlineLength_cases hbreak with hnewline | ⟨hnone, rest, rfl, -⟩
  · exact lexeme?_continuation hnewline
  · have hlex : lexeme? ('\\' :: '\r' :: rest) = none := by
      have hslash : newlineLength ('\\' :: '\r' :: rest) = none := rfl
      rw [lexeme?_of_gapStart (by decide)]
      simp [continuationLength, hnone, hslash, whitespaceLength, countWhile]
    exact absurd rfl ((h.tidy hlex).2.2.1 rfl)

/-! ### Gaps -/

/-- From `cs` to `cs'` there are only gaps and line breaks. -/
structure Gap (cs cs' : List Char) : Prop where
  readable : Readable cs → Readable cs'
  splits : Readable cs → ∀ {ps'}, Splits cs' ps' → ∃ ps breaks, Splits cs ps ∧
    visible ps = breaks ++ visible ps' ∧ ∀ b ∈ breaks, b.1 = .newline

namespace Gap

variable {cs' cs'' : List Char}

theorem refl (cs : List Char) : Gap cs cs := ⟨id, fun _ ps' h => ⟨ps', [], h, rfl, nofun⟩⟩

theorem trans (h : Gap cs cs') (h' : Gap cs' cs'') : Gap cs cs'' where
  readable := h'.readable ∘ h.readable
  splits hread ps'' hps'' := by
    obtain ⟨ps', breaks', hps', heq', hbreaks'⟩ := h'.splits (h.readable hread) hps''
    obtain ⟨ps, breaks, hps, heq, hbreaks⟩ := h.splits hread hps'
    refine ⟨ps, breaks ++ breaks', hps, by rw [heq, heq', List.append_assoc], fun b hb => ?_⟩
    rcases List.mem_append.1 hb with hb | hb
    · exact hbreaks b hb
    · exact hbreaks' b hb

/-- A token that is trivia or a line break. -/
theorem of_lexeme? (hlex : Readable cs → lexeme? cs = some (kind, n))
    (hkind : kind.isTrivia = true ∨ kind = .newline) : Gap cs (cs.drop n) where
  readable hread := hread.next (hlex hread)
  splits hread ps' hps' := by
    refine ⟨_, if kind.isTrivia then [] else [(kind, cs.take n)], .push (hlex hread) hps', ?_, ?_⟩
    · cases htrivia : kind.isTrivia <;> simp [visible, htrivia]
    · intro b hb
      split at hb
      · cases hb
      · rename_i htrivia
        rw [List.mem_singleton.1 hb]
        exact hkind.resolve_left htrivia

theorem comment (rest : List Char) :
    Gap ('#' :: rest) (('#' :: rest).drop (('#' :: rest).takeWhile fun d => d != '\n' && d != '\r').length) := by
  have hlength : (('#' :: rest).takeWhile fun d => d != '\n' && d != '\r').length =
      1 + countWhile (fun c => c != '\r' && c != '\n') rest := by
    rw [List.takeWhile_cons_of_pos (by decide), List.length_cons, countWhile, Nat.add_comm]
    simp only [Bool.and_comm]
  rw [hlength]
  exact of_lexeme? (fun _ => lexeme?_comment rest) (.inl rfl)

theorem continued (hbreak : breakLength rest ≠ 0) : Gap ('\\' :: rest) (rest.drop (breakLength rest)) :=
  of_lexeme? (fun hread => lexeme?_of_continued hread hbreak) (.inl rfl)

theorem lineBreak (hbreak : breakLength cs ≠ 0) : Gap cs (cs.drop (breakLength cs)) :=
  of_lexeme? (fun hread => lexeme?_of_breakLength hread hbreak) (.inr rfl)

/-- Blanks in a row are one token. -/
theorem blank (hc : isInlineBlank c = true) : Gap (c :: rest) rest := by
  have hlex := @lexeme?_blank c rest hc
  rw [Nat.add_comm] at hlex
  by_cases hrest : countWhile isInlineBlank rest = 0
  · rw [hrest] at hlex
    exact of_lexeme? (fun _ => hlex) (.inl rfl)
  · cases rest with
    | nil => exact absurd rfl hrest
    | cons d more =>
      have hd : isInlineBlank d = true := Classical.byContradiction fun hd => hrest (by
        rw [countWhile_cons, if_neg hd])
      have hlex' := @lexeme?_blank d more hd
      rw [Nat.add_comm, ← if_pos (t := countWhile isInlineBlank more + 1) (e := 0) hd, ← countWhile_cons] at hlex'
      refine ⟨fun hread => ?_, fun hread ps' hps' => ?_⟩
      · rcases hread with hread | ⟨ps, hps⟩
        · exact .inl hread.tail
        · obtain ⟨ps', hps', -⟩ := hps.of_lexeme? hlex
          exact .inr ⟨_, .push hlex' hps'⟩
      · obtain ⟨ps'', hps'', rfl⟩ := hps'.of_lexeme? hlex'
        exact ⟨_, [], .push hlex hps'', rfl, nofun⟩

theorem blanks {blanks : List Char} (h : ∀ c ∈ blanks, isInlineBlank c = true) : Gap (blanks ++ cs) cs := by
  induction blanks with
  | nil => exact refl cs
  | cons c blanks ih =>
    rw [List.forall_mem_cons] at h
    exact (blank h.1).trans (ih h.2)

end Gap

/-! ### Characters that start no token -/

/-- Signs, blanks, line breaks, backslash and hash. -/
def isMarkup (c : Char) : Bool :=
  c == '#' || gapStarts.contains c || "()\x7b\x7d[],;:".toList.contains c || operators.any fun o => o.head? == some c

theorem lexeme?_eq_none (hmarkup : isMarkup c = false) (hstring : stringLength (c :: rest) = none)
    (hdecimal : Text.isDecimal c = false) (hname : Text.isNameStart c = false) : lexeme? (c :: rest) = none := by
  simp only [isMarkup, Bool.or_eq_false_iff, beq_eq_false_iff_ne] at hmarkup
  obtain ⟨⟨⟨hhash, hgap⟩, hsymbol⟩, hoperator⟩ := hmarkup
  have hnot {d : Char} (hd : (operators.any fun o => o.head? == some d) = true ∨ gapStarts.contains d = true) :
      c ≠ d := by
    rintro rfl
    rcases hd with hd | hd
    · exact Bool.false_ne_true (hoperator.symm.trans hd)
    · exact Bool.false_ne_true (hgap.symm.trans hd)
  have hnumber : numberLength (c :: rest) = none :=
    numberLength_of_not_isDecimal hdecimal fun hdot => absurd hdot (hnot (by decide))
  have hother : arrowLength (c :: rest) = none ∧ continuationLength (c :: rest) = none ∧
      newlineLength (c :: rest) = none := by
    refine ⟨?_, ?_, ?_⟩
    · unfold arrowLength
      split
      · rename_i heq
        exact absurd (List.cons.inj heq).1 (hnot (by decide))
      · rfl
    · unfold continuationLength
      split
      · rename_i heq
        exact absurd (List.cons.inj heq).1 (hnot (by decide))
      · rfl
    · unfold newlineLength
      split
      · rename_i heq
        exact absurd (List.cons.inj heq).1 (hnot (by decide))
      · rename_i heq
        exact absurd (List.cons.inj heq).1 (hnot (by decide))
      · rfl
  have hspace : whitespaceLength (c :: rest) = none := by
    have hblank : (c == ' ' || c == '\t' || c == '\x0c') = false := by
      simp only [Bool.or_eq_false_iff, beq_eq_false_iff_ne]
      exact ⟨⟨hnot (by decide), hnot (by decide)⟩, hnot (by decide)⟩
    simp [whitespaceLength, countWhile_cons, hblank]
  have hname' : nameLength (c :: rest) = none := by simp [nameLength, hname]
  have hsymbol' : symbolLength (c :: rest) = none := by simp only [symbolLength, hsymbol, Bool.false_eq_true, if_false]
  simp only [lexeme?, classes, List.findSome?_cons, commentLength_of_ne hhash, hstring, hnumber, hname', hother,
    operatorLength_of_not_head hoperator, hsymbol', hspace, Option.map_none, List.findSome?_nil]

theorem lt_of_isMarkup (h : isMarkup c = true) : c.toNat < 128 := by
  have hgap : ∀ d ∈ gapStarts, d.toNat < 128 := Text.forall_mem_of_all (by decide)
  have hsymbols : ∀ d ∈ "()\x7b\x7d[],;:".toList, d.toNat < 128 := Text.forall_mem_of_all (by decide)
  have hoperators : ∀ o ∈ operators, (o.head?.all fun d => decide (d.toNat < 128)) = true := by decide
  simp only [isMarkup, Bool.or_eq_true, beq_iff_eq, List.contains_iff_mem, List.any_eq_true] at h
  rcases h with ((rfl | h) | h) | ⟨o, ho, hc⟩
  · decide
  · exact hgap c h
  · exact hsymbols c h
  · simpa [hc] using hoperators o ho

/-- A character that is in words for the host only starts no token. -/
theorem lexeme?_of_not_isWord (hlike : isWordLike c = true) (hword : Text.isWord c = false) :
    lexeme? (c :: rest) = none := by
  have hc : ¬c.toNat < 128 := by
    intro hc
    rw [Text.isWord, if_pos hc] at hword
    rw [isWordLike, hword, Bool.false_or, decide_eq_true_eq] at hlike
    omega
  have hmarkup : isMarkup c = false := Bool.eq_false_iff.2 fun h => hc (lt_of_isMarkup h)
  have hmark : isStringMark c = false := Bool.eq_false_iff.2 fun h => hc (lt_of_isAlpha (isWordLike_of_isStringMark h).2)
  have hstring : stringLength (c :: rest) = none := by
    cases rest with
    | nil => rfl
    | cons b rest => simp [stringLength, hmark, quotedLength_of_not_isQuote (not_isQuote_of_isWordLike hlike)]
  refine lexeme?_eq_none hmarkup hstring ?_ ?_
  · rw [Bool.eq_false_iff]
    intro h
    exact Bool.false_ne_true (hword.symm.trans (Text.isWord_of_isDecimal h))
  · rw [Text.isNameStart, hword, Bool.false_and]

/-- A quote that opens no string starts no token. -/
theorem lexeme?_of_quote (hc : IsQuote c) (h : quotedLength (c :: rest) = none) : lexeme? (c :: rest) = none := by
  have hmark : isStringMark c = false := by
    rcases hc with rfl | rfl <;> decide
  have hstring : stringLength (c :: rest) = none := by
    cases rest with
    | nil => rfl
    | cons b rest => simp [stringLength, hmark, h]
  rcases hc with rfl | rfl
  · exact lexeme?_eq_none (by decide) hstring (by decide) (by decide)
  · exact lexeme?_eq_none (by decide) hstring (by decide) (by decide)

/-! ### Words and strings -/

/-- The name that a word of the host is here. -/
theorem lexeme?_of_name {word after : List Char} (hcs : c :: rest = word ++ after) (hne : word ≠ [])
    (hstart : Text.isNameStart c = true) (hall : ∀ d ∈ word, Text.isWord d = true)
    (hafter : ∀ d more, after = d :: more → Text.isWord d = false) (hstring : stringLength (c :: rest) = none) :
    lexeme? (c :: rest) = some (.name, word.length) := by
  have hc : Text.isWord c = true ∧ Text.isDecimal c = false := by
    simpa [Text.isNameStart] using hstart
  have hhash : c ≠ '#' := by
    rintro rfl
    exact absurd hc.1 (by decide)
  have hnumber : numberLength (c :: rest) = none :=
    numberLength_of_not_isDecimal hc.2 fun h => absurd hc.1 (by rw [h]; decide)
  simp [lexeme?, classes, commentLength_of_ne hhash, hstring, hnumber, nameLength_of_word hcs hne hstart hall hafter]

/-- The characters of a word of the host are word characters here. -/
theorem isWord_of_readable {word after : List Char} (hread : Readable (c :: rest)) (hcs : c :: rest = word ++ after)
    (hlike : ∀ d ∈ word, isWordLike d = true) (hstart : Text.isIdentifierStart c = true)
    (hparts : ∀ d ∈ word, Text.isIdentifierStart d = true ∨ Text.isIdentifierPart d = true) (hne : word ≠ [])
    (hstring : stringLength (c :: rest) = none) :
    Text.isNameStart c = true ∧ ∀ d ∈ word, Text.isWord d = true := by
  have hagrees {d : Char} {more : List Char} (hd : isWordLike d = true) (hmore : Readable (d :: more))
      (hpart : Text.isIdentifierStart d = true ∨ Text.isIdentifierPart d = true) : Text.isWord d = true := by
    cases hword : Text.isWord d with
    | true => rfl
    | false =>
      have htidy := (hmore.tidy (lexeme?_of_not_isWord hd hword)).1
      simp only [agrees, Bool.and_eq_true, Bool.or_eq_true, Bool.not_eq_true'] at htidy
      rcases hpart with hpart | hpart
      · rw [hpart, Text.isNameStart, hword] at htidy
        simp at htidy
      · rw [hpart, hword] at htidy
        simp at htidy
  have hc : c ∈ word := by
    cases word with
    | nil => exact absurd rfl hne
    | cons d word =>
      rw [(List.cons.inj hcs).1]
      exact List.mem_cons_self
  have hword : Text.isWord c = true := hagrees (hlike c hc) hread (.inl hstart)
  have hname : Text.isNameStart c = true := by
    rw [Text.isNameStart, hword, Text.isDecimal_of_isIdentifierStart hstart]
    rfl
  refine ⟨hname, ?_⟩
  -- a first character that is none would be where the next token starts
  have hsplit := List.takeWhile_append_dropWhile (p := Text.isWord) (l := word)
  have hgood : ∀ d ∈ word.takeWhile Text.isWord, Text.isWord d = true := fun d hd =>
    List.all_eq_true.1 List.all_takeWhile d hd
  cases hbad : word.dropWhile Text.isWord with
  | nil =>
    rw [hbad, List.append_nil] at hsplit
    rw [← hsplit]
    exact hgood
  | cons d bad =>
    exfalso
    have hd : Text.isWord d = false := by
      have := List.head?_dropWhile_not Text.isWord word
      rw [hbad] at this
      simpa using this
    rw [hbad] at hsplit
    have hgoodne : word.takeWhile Text.isWord ≠ [] := by
      intro hnil
      rw [hnil, List.nil_append] at hsplit
      rw [← hsplit, List.cons_append] at hcs
      rw [(List.cons.inj hcs).1, hd] at hword
      cases hword
    rw [← hsplit, List.append_assoc] at hcs
    have hlex := lexeme?_of_name hcs hgoodne hname hgood (fun e more heq => by
      rw [← (List.cons.inj heq).1, hd]) hstring
    have hnext := hread.next hlex
    rw [hcs, List.drop_left] at hnext
    have hmem : d ∈ word := by
      rw [← hsplit]
      simp
    have := hagrees (hlike d hmem) hnext (hparts d hmem)
    rw [hd] at this
    cases this

/-- What the host reads as a word is a name here, or it joins the string after it. -/
theorem lexeme?_of_word {word after : List Char} (hread : Readable (c :: rest))
    (hword : word = (c :: rest).takeWhile isWordLike) (hafter : after = (c :: rest).drop word.length)
    (hc : isWordLike c = true) (hidentifier : Text.isIdentifier (String.ofList word) = true)
    (hopening : Host.Lexer.stringOpening .strict (c :: rest) = none) :
    lexeme? (c :: rest) = some (.name, word.length) ∨
      ∃ len, word.length = 2 ∧ quotedLength after = some len ∧ lexeme? (c :: rest) = some (.string, len + 2) := by
  have hcs : c :: rest = word ++ after := by
    rw [hafter, hword]
    exact (List.prefix_iff_eq_append.1 (List.takeWhile_prefix _)).symm
  have hlike : ∀ d ∈ word, isWordLike d = true := by
    rw [hword]
    exact fun d hd => List.all_eq_true.1 List.all_takeWhile d hd
  have hstop : ∀ d more, after = d :: more → isWordLike d = false := by
    intro d more heq
    have hdrop : (c :: rest).dropWhile isWordLike = d :: more := by
      have hboth := List.takeWhile_append_dropWhile (p := isWordLike) (l := c :: rest)
      rw [← hword] at hboth
      rw [List.append_cancel_left (hboth.trans hcs), heq]
    have := List.head?_dropWhile_not isWordLike (c :: rest)
    rw [hdrop] at this
    simpa using this
  rcases stringLength_of_word hc hcs hlike hstop hopening with hstring | ⟨len, htwo, hlen, hstring⟩
  · left
    have hhead : word = c :: rest.takeWhile isWordLike := by rw [hword, List.takeWhile_cons_of_pos hc]
    have hne : word ≠ [] := by simp [hhead]
    have hparts : Text.isIdentifierStart c = true ∧ ∀ d ∈ rest.takeWhile isWordLike, Text.isIdentifierPart d = true := by
      simpa [Text.isIdentifier, hhead] using hidentifier
    obtain ⟨hname, hall⟩ := isWord_of_readable hread hcs hlike hparts.1 (fun d hd => by
      rw [hhead] at hd
      rcases List.mem_cons.1 hd with rfl | hd
      · exact .inl hparts.1
      · exact .inr (hparts.2 d hd)) hne hstring
    refine lexeme?_of_name hcs hne hname hall (fun d more heq => ?_) hstring
    rw [Bool.eq_false_iff]
    intro hd
    exact Bool.false_ne_true ((hstop d more heq).symm.trans (isWordLike_of_isWord hd))
  · refine .inr ⟨len, htwo, hlen, ?_⟩
    have hhash : c ≠ '#' := by
      rintro rfl
      exact absurd hc (by decide)
    simp [lexeme?, classes, commentLength_of_ne hhash, hstring]

/-- A quoted text is a string. -/
theorem lexeme?_of_quotedLength {len : Nat} (h : quotedLength cs = some len) : lexeme? cs = some (.string, len) := by
  cases cs with
  | nil => cases h
  | cons q rest =>
    have hq : IsQuote q := Classical.byContradiction fun hq => by
      rw [quotedLength_of_not_isQuote hq] at h
      cases h
    have hqmark : isStringMark q = false ∧ q ≠ '#' := by
      rcases hq with rfl | rfl <;> exact ⟨by decide, by decide⟩
    have hstring : stringLength (q :: rest) = some len := by
      cases rest with
      | nil => rcases hq with rfl | rfl <;> cases h
      | cons b rest => simpa [stringLength, hqmark.1] using h
    simp [lexeme?, classes, commentLength_of_ne hqmark.2, hstring]

/-- A string of the host is a string here. -/
theorem lexeme?_of_string {marks quote : List Char} {fuel m : Nat} (hread : Readable cs)
    (h : Host.Lexer.stringOpening .strict cs = some (marks, quote))
    (hbody : Host.Lexer.stringBody quote fuel (marks.length + quote.length)
      (cs.drop (marks.length + quote.length)) = some m) : lexeme? cs = some (.string, m) := by
  obtain ⟨hmarks, q, rest, rfl, hq, hlength, hquote⟩ := isStringMark_of_opening h
  have hqmark : isStringMark q = false := by
    rcases hq with rfl | rfl <;> decide
  have hqhash : q ≠ '#' := by
    rcases hq with rfl | rfl <;> decide
  rw [← List.drop_drop, List.drop_left] at hbody
  have hmark {a : Char} (ha : a ∈ marks) : a ≠ '#' ∧ Text.isNameStart a = true ∧ Text.isWord a = true ∧
      ∀ rest, quotedLength (a :: rest) = none := by
    have hall : ("rRbBuUfF".toList.all fun a => a != '#' && Text.isNameStart a && Text.isWord a) = true := by decide
    have := List.all_eq_true.1 hall a (List.contains_iff_mem.1 (hmarks a ha))
    simp only [Bool.and_eq_true, bne_iff_ne] at this
    exact ⟨this.1.1, this.1.2, this.2, quotedLength_of_not_isQuote
      (not_isQuote_of_isWordLike (isWordLike_of_isStringMark (hmarks a ha)).1)⟩
  have hstring : stringLength (marks ++ q :: rest) = (quotedLength (q :: rest)).map (· + marks.length) := by
    match marks, hlength, hmarks, @hmark with
    | [], _, _, _ =>
      cases rest with
      | nil => rcases hq with rfl | rfl <;> rfl
      | cons c rest =>
        simp [stringLength, hqmark]
    | [a], _, hmarks, hmark =>
      simp [stringLength, hmarks a (by simp), hqmark, (hmark (a := a) (by simp)).2.2.2]
    | [a, b], _, hmarks, hmark =>
      simp [stringLength, hmarks a (by simp), hmarks b (by simp), (hmark (a := a) (by simp)).2.2.2,
        (hmark (a := b) (by simp)).2.2.2]
  rcases quotedLength_of_stringBody hq hquote hbody with ⟨len, rfl, hlen⟩ | ⟨htidy, hnone⟩
  · rw [hlen] at hstring
    have hcomment : commentLength (marks ++ q :: rest) = none := by
      cases marks with
      | nil => exact commentLength_of_ne hqhash rest
      | cons a marks => exact commentLength_of_ne (hmark (by simp)).1 _
    simp [lexeme?, classes, hcomment, hstring, Nat.add_comm]
  · -- without a string the marks would be a name, and no token would start with the quote
    exfalso
    have hquoteRead : Readable (q :: rest) := by
      cases marks with
      | nil => exact hread
      | cons a marks =>
        rw [hnone] at hstring
        have hlex := @lexeme?_of_name (marks ++ q :: rest) a (a :: marks) (q :: rest) rfl
          (by simp) (hmark (by simp)).2.1 (fun d hd => (hmark hd).2.2.1) (fun d more heq => by
            rw [← (List.cons.inj heq).1]
            rcases hq with rfl | rfl <;> decide) hstring
        have := hread.next hlex
        simpa using this
    exact htidy (hquoteRead.tidy (lexeme?_of_quote hq hnone)).tail

/-- A number of the host is a number here. -/
theorem lexeme?_of_number (h : Host.Lexer.number (c :: rest) = some n)
    (hstart : (c.isDigit || (c == '.' && (rest.head?.map Char.isDigit).getD false)) = true)
    (hends : endsNumber ((c :: rest).drop n) = true) : lexeme? (c :: rest) = some (.number, n) := by
  have hnumber := numberLength_of_number h (fun more heq => by
    obtain ⟨rfl, rfl⟩ := List.cons.inj heq
    simpa using hstart) hends
  have hc : c = '.' ∨ c.isDigit = true := by
    simp only [Bool.or_eq_true, Bool.and_eq_true, beq_iff_eq] at hstart
    exact hstart.elim .inr fun h => .inl h.1
  have hfacts : c ≠ '#' ∧ isStringMark c = false ∧ ¬IsQuote c := by
    rcases hc with rfl | hc
    · exact ⟨by decide, by decide, by rintro (h | h) <;> cases h⟩
    · refine ⟨?_, ?_, ?_⟩
      · rintro rfl
        exact absurd hc (by decide)
      · have := Text.forall_ascii (P := fun c => c.isDigit = true → isStringMark c = false) (by decide)
          (Text.lt_of_isDigit hc)
        exact this hc
      · rintro (rfl | rfl) <;> exact absurd hc (by decide)
  have hstring : stringLength (c :: rest) = none := by
    cases rest with
    | nil => rfl
    | cons b rest => simp [stringLength, hfacts.2.1, quotedLength_of_not_isQuote hfacts.2.2]
  simp [lexeme?, classes, commentLength_of_ne hfacts.1, hstring, hnumber]

end DoBlocks.Lexer
