import Mathlib
import DoBlocks.Host.Lexeme.Lexer
import DoBlocks.Token.Lexer

/-!
# Tokens and host lexemes

The lexer of the host and that of the block language cut off numbers, strings, words and operators alike,
where the host goes on reading: each section compares one class. They differ on characters that only the host
takes into identifiers, on lone carriage returns, on `=>`, and on marks before a quote that the host does not
know.
-/

namespace DoBlocks

namespace Text

variable {c : Char}

/-- What holds of the ASCII characters one by one. -/
theorem forall_ascii {P : Char → Prop} (h : ∀ n < 128, P (Char.ofNat n)) (hc : c.toNat < 128) : P c := by
  have := h c.toNat hc
  rwa [Char.ofNat_toNat] at this

theorem isDecimal_eq_isDigit (hc : c.toNat < 128) : isDecimal c = c.isDigit :=
  forall_ascii (P := fun c => isDecimal c = c.isDigit) (by decide) hc

theorem lt_of_isDigit (h : c.isDigit = true) : c.toNat < 128 := by
  simp only [Char.isDigit, Bool.and_eq_true, decide_eq_true_eq] at h
  have hle := UInt32.le_iff_toNat_le.1 h.2
  have hnine : '9'.val.toNat = 57 := rfl
  have hval : c.toNat = c.val.toNat := rfl
  omega

theorem isDecimal_of_isDigit (h : c.isDigit = true) : isDecimal c = true := by
  rw [isDecimal_eq_isDigit (lt_of_isDigit h), h]

/-- No character that starts an identifier is a decimal digit. -/
theorem isDecimal_of_isIdentifierStart (h : isIdentifierStart c = true) : isDecimal c = false := by
  by_cases hc : c.toNat < 128
  · revert h
    exact forall_ascii (P := fun c => isIdentifierStart c = true → isDecimal c = false) (by decide) hc
  · rw [isIdentifierStart, if_neg hc, inRanges_iff] at h
    obtain ⟨r, hr, hle, hge⟩ := h
    have htable : (identifierStartRanges.all fun r => digitZeros.all fun z =>
        Nat.blt r.2 z || Nat.ble (z + 10) r.1) = true := by decide +kernel
    simp only [isDecimal, digitValue?, if_neg hc, Option.isSome_map, Bool.eq_false_iff]
    intro hsome
    obtain ⟨z, hz⟩ := Option.isSome_iff_exists.1 hsome
    have hin := List.find?_some hz
    have hapart := List.all_eq_true.1 (List.all_eq_true.1 htable r hr) z (List.mem_of_find?_eq_some hz)
    simp only [Bool.and_eq_true, Bool.or_eq_true, decide_eq_true_eq, Nat.blt_eq, Nat.ble_eq] at hin hapart
    omega

/-- Decimal digits are word characters. -/
theorem isWord_of_isDecimal (h : isDecimal c = true) : isWord c = true := by
  by_cases hc : c.toNat < 128
  · revert h
    exact forall_ascii (P := fun c => isDecimal c = true → isWord c = true) (by decide) hc
  · simp only [isDecimal, digitValue?, if_neg hc, Option.isSome_map] at h
    obtain ⟨z, hz⟩ := Option.isSome_iff_exists.1 h
    have hin := List.find?_some hz
    have htable : (digitZeros.all fun z => letterRanges.any fun r => Nat.ble r.1 z && Nat.ble (z + 9) r.2) = true := by
      decide +kernel
    obtain ⟨r, hr, hcovers⟩ := List.any_eq_true.1 (List.all_eq_true.1 htable z (List.mem_of_find?_eq_some hz))
    simp only [Bool.and_eq_true, decide_eq_true_eq, Nat.ble_eq] at hin hcovers
    rw [isWord, if_neg hc, inRanges_iff]
    exact ⟨r, hr, by omega, by omega⟩

end Text

namespace Lexer

open Host.Lexer (isWordLike endsNumber groups digits based exponent numberTail zeroLed number)

variable {c q a : Char} {p : Char → Bool} {rest cs quote word after o : List Char} {n m t k fuel : Nat}

theorem isWordLike_of_isWord (h : Text.isWord c = true) : isWordLike c = true := by
  by_cases hc : c.toNat < 128
  · simp only [Text.isWord, if_pos hc] at h
    simp [isWordLike, h]
  · simp only [isWordLike, Bool.or_eq_true, decide_eq_true_eq]
    omega

theorem isWordLike_of_isDecimal (h : Text.isDecimal c = true) : isWordLike c = true := by
  by_cases hc : c.toNat < 128
  · rw [Text.isDecimal_eq_isDigit hc] at h
    simp [isWordLike, Char.isAlphanum, h]
  · simp only [isWordLike, Bool.or_eq_true, decide_eq_true_eq]
    omega

/-! ### Numbers -/

theorem countWhile_cons :
    countWhile p (c :: rest) = if p c then countWhile p rest + 1 else 0 := by
  unfold countWhile
  rw [List.takeWhile_cons]
  split <;> simp

/-- Groups of digits are digits and underscores, as many as there are. -/
theorem countWhile_of_groups {q : Char → Bool} (hq : ∀ c, q c = (p c || c == '_')) (h : groups p n cs = some m) :
    m = n + countWhile q cs := by
  fun_induction groups p n cs with
  | case1 n => cases h; rfl
  | case2 n d rest hd ih =>
    have hrule : q '_' = true := by simp [hq]
    have hdigit : q d = true := by simp [hq, hd]
    rw [ih h, countWhile_cons, countWhile_cons, if_pos hrule, if_pos hdigit]
    omega
  | case3 => cases h
  | case4 => cases h
  | case5 n c rest _ _ hc ih =>
    have hdigit : q c = true := by simp [hq, hc]
    rw [ih h, countWhile_cons, if_pos hdigit]
    omega
  | case6 n c rest hpair hlast hc =>
    cases h
    have hrule : c ≠ '_' := by
      rintro rfl
      cases rest with
      | nil => exact hlast rfl rfl
      | cons d rest => exact hpair d rest rfl rfl
    have hdigit : q c = false := by simpa [hq, hrule] using hc
    rw [countWhile_cons, hdigit]
    rfl

theorem countWhile_of_digits {q : Char → Bool} (hq : ∀ c, q c = (p c || c == '_')) (h : digits p cs = some n) :
    n = countWhile q cs ∧ 0 < n := by
  unfold digits at h
  split at h
  · rename_i c rest
    split at h
    · rename_i hc
      have hdigit : q c = true := by simp [hq, hc]
      have hn := countWhile_of_groups hq h
      rw [countWhile_cons, if_pos hdigit]
      omega
    · cases h
  · cases h

/-- Digits after a base mark, where an underscore may come first. -/
theorem countWhile_of_ruled {q : Char → Bool} (hq : ∀ c, q c = (p c || c == '_')) (h : (match cs with
      | '_' :: more => (digits p more).map (· + 1)
      | _ => digits p cs) = some n) : n = countWhile q cs ∧ 0 < n := by
  split at h
  · obtain ⟨m, hm, rfl⟩ := Option.map_eq_some_iff.1 h
    have hrule : q '_' = true := by simp [hq]
    rw [countWhile_cons, if_pos hrule, (countWhile_of_digits hq hm).1]
    omega
  · exact countWhile_of_digits hq h

theorem countWhile_eq_of_stops {q : Char → Bool} (hpq : ∀ c, p c = true → q c = true)
    (hstop : ∀ c rest, cs.drop (countWhile p cs) = c :: rest → q c = false) : countWhile q cs = countWhile p cs := by
  induction cs with
  | nil => rfl
  | cons c rest ih =>
    rw [countWhile_cons, countWhile_cons] at *
    by_cases hc : p c = true
    · rw [if_pos hc] at hstop ⊢
      rw [if_pos (hpq c hc), ih hstop]
    · rw [if_neg hc] at hstop ⊢
      rw [hstop c rest rfl]
      rfl

/-- No digit and no underscore comes next. -/
def Halts (cs : List Char) : Prop := ∀ c rest, cs = c :: rest → isDigitOrRule c = false

theorem Halts.cons {c : Char} {rest : List Char} (h : isDigitOrRule c = false) : Halts (c :: rest) := by
  intro d more heq
  cases heq
  exact h

theorem Halts.countWhile_eq (h : Halts cs) : countWhile isDigitOrRule cs = 0 := by
  cases cs with
  | nil => rfl
  | cons c rest => rw [countWhile_cons, h c rest rfl]; rfl

theorem isDigitOrRule_of_isDigit (h : (Host.Lexer.isDigit c || c == '_') = true) :
    isDigitOrRule c = true := by
  rw [Bool.or_eq_true] at h
  rcases h with h | h
  · simp [isDigitOrRule, Text.isDecimal_of_isDigit h]
  · simp [isDigitOrRule, h]

/-- Digits that nothing continues are the digits of any script. -/
theorem countWhile_of_halts (h : digits Host.Lexer.isDigit cs = some n) (hhalts : Halts (cs.drop n)) :
    n = countWhile isDigitOrRule cs := by
  have hn := (countWhile_of_digits (q := fun c => Host.Lexer.isDigit c || c == '_') (fun _ => rfl) h).1
  rw [countWhile_eq_of_stops (fun _ => isDigitOrRule_of_isDigit) (hn ▸ hhalts)]
  exact hn

theorem exists_of_digits (h : digits Host.Lexer.isDigit cs = some n) :
    ∃ c rest, cs = c :: rest ∧ c.isDigit = true := by
  unfold digits at h
  split at h
  · split at h
    · exact ⟨_, _, rfl, ‹_›⟩
    · cases h
  · cases h

/-- What follows a number is no digit. -/
theorem halts_of_endsNumber (h : endsNumber cs = true) : Halts cs := by
  rintro c rest rfl
  simp only [endsNumber, Bool.or_eq_true, Bool.not_eq_true'] at h
  rcases h with h | h
  · have hrule : c ≠ '_' := by
      rintro rfl
      simp [isWordLike] at h
    have hdecimal : Text.isDecimal c = false := by
      rw [Bool.eq_false_iff]
      intro hc
      rw [isWordLike_of_isDecimal hc] at h
      cases h
    simp [isDigitOrRule, hrule, hdecimal]
  · obtain ⟨w, hw, hlead⟩ := List.any_eq_true.1 h
    obtain ⟨more, hmore⟩ := List.isPrefixOf_iff_prefix.1 hlead
    have hall : (Host.Lexer.wordsAfterNumber.all fun w => w.head?.any fun d => !isDigitOrRule d) = true := by decide
    have := List.all_eq_true.1 hall w hw
    cases w with
    | nil => simp at this
    | cons d w =>
      cases hmore
      simpa using this

/-- An `e` after a number that is no exponent begins `else`. -/
theorem eq_of_endsNumber {e s : Char} (he : (e == 'e' || e == 'E') = true) (h : endsNumber (e :: s :: rest) = true) :
    s = 'l' := by
  have hword : isWordLike e = true := by
    simp only [Bool.or_eq_true, beq_iff_eq] at he
    rcases he with rfl | rfl <;> decide
  simp only [endsNumber, hword, Bool.not_true, Bool.false_or] at h
  obtain ⟨w, hw, hlead⟩ := List.any_eq_true.1 h
  obtain ⟨more, hmore⟩ := List.isPrefixOf_iff_prefix.1 hlead
  have hall : (Host.Lexer.wordsAfterNumber.all fun w => w.head?.any fun c =>
      w.tail.head?.any fun d => !(c == 'e' || c == 'E') || d == 'l') = true := by decide
  have := List.all_eq_true.1 hall w hw
  cases w with
  | nil => cases this
  | cons c w =>
    cases w with
    | nil => cases this
    | cons d w =>
      cases hmore
      simpa only [List.head?_cons, List.tail_cons, Option.any_some, he, Bool.not_true, Bool.false_or,
        beq_iff_eq] using this

theorem halts_of_imaginary (h : endsNumber (cs.drop (imaginaryLength cs)) = true) : Halts cs := by
  rintro c rest rfl
  rw [imaginaryLength] at h
  split at h
  · rename_i hc
    simp only [Bool.or_eq_true, beq_iff_eq] at hc
    rcases hc with rfl | rfl <;> decide
  · exact halts_of_endsNumber h c rest rfl

theorem exponentLength_of_exponent {e : Nat} (h : exponent cs = some e)
    (hends : endsNumber ((cs.drop e).drop (imaginaryLength (cs.drop e))) = true) :
    exponentLength cs = e ∧ Halts cs := by
  have hrest := halts_of_imaginary hends
  unfold exponent at h
  split at h
  · rename_i c rest
    split at h
    · rename_i hc
      have hletter : Halts (c :: rest) := by
        simp only [Bool.or_eq_true, beq_iff_eq] at hc
        refine .cons ?_
        rcases hc with rfl | rfl <;> decide
      refine ⟨?_, hletter⟩
      simp only [exponentLength, if_pos hc]
      split at h
      · rename_i s more
        split at h
        · rename_i hs
          obtain ⟨n, hn, rfl⟩ := Option.map_eq_some_iff.1 h
          have hcount := countWhile_of_halts hn (by simpa [Nat.add_comm] using hrest)
          obtain ⟨d, more', rfl, hd⟩ := exists_of_digits hn
          have hdigit := isDigitOrRule_of_isDigit (c := d) (by simp [Host.Lexer.isDigit, hd])
          rw [countWhile_cons, if_pos hdigit] at hcount
          simp only [if_pos hs, List.drop_one, List.tail_cons, Text.isDecimal_of_isDigit hd, if_true]
          omega
        · split at h
          · rename_i hs hd
            obtain ⟨n, hn, rfl⟩ := Option.map_eq_some_iff.1 h
            have hcount := countWhile_of_halts hn (by simpa [Nat.add_comm] using hrest)
            have hdigit := isDigitOrRule_of_isDigit (c := s) (by simp [Host.Lexer.isDigit, hd])
            rw [countWhile_cons, if_pos hdigit] at hcount
            simp only [if_neg hs, List.drop_zero, Text.isDecimal_of_isDigit hd, if_true]
            omega
          · rename_i hs hd
            cases h
            have himaginary : imaginaryLength (c :: s :: more) = 0 := by
              simp only [Bool.or_eq_true, beq_iff_eq] at hc
              rcases hc with rfl | rfl <;> rfl
            rw [List.drop_zero, himaginary] at hends
            obtain rfl := eq_of_endsNumber hc hends
            rfl
      · cases h
        rfl
    · rename_i hc
      cases h
      exact ⟨by simp only [exponentLength, if_neg hc], hrest⟩
  · cases h
    exact ⟨rfl, hrest⟩

/-- The length of a fraction. -/
def fractionLength : List Char → Nat
  | '.' :: more => 1 + countWhile isDigitOrRule more
  | _ => 0

/-- The length of what follows the digits of a number. -/
def tailLength (cs : List Char) : Nat :=
  let e := exponentLength (cs.drop (fractionLength cs))
  fractionLength cs + e + imaginaryLength (cs.drop (fractionLength cs + e))

/-- What follows a fraction of known length. -/
theorem tailLength_of_fraction {f t : Nat} {cs : List Char}
    (h : ((exponent (cs.drop f)).bind fun e => some (f + e + imaginaryLength (cs.drop (f + e)))) = some t)
    (hends : endsNumber (cs.drop t) = true) (hf : Halts (cs.drop f) → fractionLength cs = f) :
    tailLength cs = t ∧ Halts (cs.drop f) := by
  obtain ⟨e, he, heq⟩ := Option.bind_eq_some_iff.1 h
  obtain rfl := Option.some.inj heq
  rw [← List.drop_drop, ← List.drop_drop] at hends
  obtain ⟨hexponent, hhalts⟩ := exponentLength_of_exponent he hends
  refine ⟨?_, hhalts⟩
  rw [tailLength, hf hhalts, hexponent]

theorem tailLength_of_numberTail (h : numberTail cs = some t) (hends : endsNumber (cs.drop t) = true) :
    tailLength cs = t ∧ Halts cs := by
  unfold numberTail at h
  dsimp only at h
  split at h
  · rename_i rest
    have hdot : Halts ('.' :: rest) := .cons (by decide)
    split at h
    · rename_i d more
      split at h
      · obtain ⟨f, hf, h⟩ := Option.bind_eq_some_iff.1 h
        obtain ⟨n, hn, rfl⟩ := Option.map_eq_some_iff.1 hf
        refine ⟨(tailLength_of_fraction h hends fun hhalts => ?_).1, hdot⟩
        rw [fractionLength, ← countWhile_of_halts hn hhalts, Nat.add_comm]
      · refine ⟨(@tailLength_of_fraction 1 _ _ h hends fun hhalts => ?_).1, hdot⟩
        exact congrArg (1 + ·) hhalts.countWhile_eq
    · exact ⟨(@tailLength_of_fraction 1 t ['.'] h hends fun _ => rfl).1, hdot⟩
  · rename_i hdot
    refine @tailLength_of_fraction 0 _ _ h hends fun _ => ?_
    unfold fractionLength
    split
    · exact absurd rfl (hdot _)
    · rfl

theorem mantissaLength_of_digit (hc : Text.isDecimal c = true) :
    mantissaLength (c :: rest) = some (countWhile isDigitOrRule (c :: rest) +
      fractionLength ((c :: rest).drop (countWhile isDigitOrRule (c :: rest)))) := by
  have hcount : countWhile isDigitOrRule (c :: rest) = 1 + countWhile isDigitOrRule rest := by
    rw [countWhile_cons, if_pos (by simp [isDigitOrRule, hc]), Nat.add_comm]
  simp only [mantissaLength, if_pos hc, hcount]
  split
  · rename_i d more hmore
    rw [hmore]
    split
    · rename_i hd
      obtain rfl := eq_of_beq hd
      rw [fractionLength]
      congr 1
      omega
    · rename_i hd
      unfold fractionLength
      split
      · rename_i heq
        cases heq
        simp at hd
      · rfl
  · rename_i hmore
    rw [hmore]
    rfl

theorem decimalLength_of_digit (hc : Text.isDecimal c = true) :
    decimalLength (c :: rest) = some (countWhile isDigitOrRule (c :: rest) +
      tailLength ((c :: rest).drop (countWhile isDigitOrRule (c :: rest)))) := by
  rw [decimalLength, mantissaLength_of_digit hc, Option.map_some]
  simp only [tailLength, List.drop_drop, Nat.add_assoc]

/-- A number may begin with its fraction. -/
theorem decimalLength_of_dot (h : (rest.head?.map Char.isDigit).getD false = true) :
    decimalLength ('.' :: rest) = some (tailLength ('.' :: rest)) := by
  cases rest with
  | nil => simp at h
  | cons d more =>
    have hd : d.isDigit = true := by simpa using h
    have hdecimal := Text.isDecimal_of_isDigit hd
    have hmantissa : mantissaLength ('.' :: d :: more) = some (fractionLength ('.' :: d :: more)) := by
      have hdot : Text.isDecimal '.' = false := by decide
      simp only [mantissaLength, hdot, Bool.false_eq_true, if_false, beq_self_eq_true, if_true, hdecimal,
        fractionLength, countWhile_cons, isDigitOrRule, Bool.true_or]
      congr 1
      omega
    rw [decimalLength, hmantissa]
    rfl

/-- Digits with a fraction, an exponent and an imaginary mark are cut off alike. -/
theorem decimalLength_of_digits {whole : Nat} (h : digits Host.Lexer.isDigit cs = some whole)
    (htail : numberTail (cs.drop whole) = some t) (hends : endsNumber (cs.drop (whole + t)) = true) :
    decimalLength cs = some (whole + t) := by
  rw [← List.drop_drop] at hends
  obtain ⟨hlength, hhalts⟩ := tailLength_of_numberTail htail hends
  have hcount := countWhile_of_halts h hhalts
  obtain ⟨c, rest, rfl, hc⟩ := exists_of_digits h
  rw [decimalLength_of_digit (Text.isDecimal_of_isDigit hc), ← hcount, hlength]

theorem basedLength_of_count {q : Char → Bool} (h : n = countWhile q rest ∧ 0 < n) :
    basedLength q rest = some (n + 2) := by
  obtain ⟨rfl, hpos⟩ := h
  simp [basedLength, Nat.pos_iff_ne_zero.1 hpos]

theorem based_steps (h : based p cs = some n) :
    ∃ m, (match cs with
      | '_' :: more => (digits p more).map (· + 1)
      | _ => digits p cs) = some m ∧ n = m + 2 := by
  obtain ⟨m, hm, h⟩ := Option.bind_eq_some_iff.1 h
  refine ⟨m, hm, ?_⟩
  split at h
  · split at h
    · cases h
    · exact (Option.some.inj h).symm
  · exact (Option.some.inj h).symm

/-- A number that ends as the host asks is cut off alike. -/
theorem numberLength_of_number (h : number cs = some n)
    (hdot : ∀ rest, cs = '.' :: rest → (rest.head?.map Char.isDigit).getD false = true)
    (hends : endsNumber (cs.drop n) = true) : numberLength cs = some n := by
  have hdecimal {whole t : Nat} (hmarked : markedLength cs = none) (hwhole : digits Host.Lexer.isDigit cs = some whole)
      (htail : numberTail (cs.drop whole) = some t) (hn : n = whole + t) : numberLength cs = some n := by
    rw [numberLength, hmarked, Option.none_or, hn]
    exact decimalLength_of_digits hwhole htail (hn ▸ hends)
  unfold number at h
  split at h
  · rename_i b rest
    split at h
    · rename_i hx
      obtain ⟨m, hm, rfl⟩ := Option.map_eq_some_iff.1 h
      rw [numberLength, markedLength, if_pos hx,
        basedLength_of_count (countWhile_of_ruled (q := isHexDigit) (fun _ => rfl) hm)]
      rfl
    rename_i hx
    split at h
    · rename_i ho
      obtain ⟨m, hm, heq⟩ := based_steps h
      rw [numberLength, markedLength, if_neg hx, if_pos ho,
        basedLength_of_count (countWhile_of_ruled (q := isOctalDigit) (fun _ => rfl) hm), heq]
      rfl
    rename_i ho
    split at h
    · rename_i hb
      obtain ⟨m, hm, heq⟩ := based_steps h
      rw [numberLength, markedLength, if_neg hx, if_neg ho, if_pos hb,
        basedLength_of_count (countWhile_of_ruled (q := isBinaryDigit) (fun _ => rfl) hm), heq]
      rfl
    · rename_i hb
      unfold zeroLed at h
      obtain ⟨whole, hwhole, h⟩ := Option.bind_eq_some_iff.1 h
      obtain ⟨t, htail, h⟩ := Option.bind_eq_some_iff.1 h
      have hn : n = whole + t := by
        dsimp only at h
        split at h
        · cases h
        · exact (Option.some.inj h).symm
      exact hdecimal (by rw [markedLength, if_neg hx, if_neg ho, if_neg hb]) hwhole htail hn
  · rename_i rest
    rw [numberLength, decimalLength_of_dot (hdot rest rfl), (tailLength_of_numberTail h hends).1]
    rfl
  · rename_i hzero _
    obtain ⟨whole, hwhole, h⟩ := Option.bind_eq_some_iff.1 h
    obtain ⟨t, htail, h⟩ := Option.bind_eq_some_iff.1 h
    refine hdecimal ?_ hwhole htail (Option.some.inj h).symm
    unfold markedLength
    split
    · exact absurd rfl (hzero _ _)
    · rfl

/-! ### Strings -/

/-- A backslash in a string takes one character with it, or a line break of two. -/
theorem escaped_cases (c : Char) (rest : List Char) :
    max (Host.Lexer.breakLength (c :: rest)) 1 = 1 ∨
      ∃ more, c = '\r' ∧ rest = '\n' :: more ∧ max (Host.Lexer.breakLength (c :: rest)) 1 = 2 := by
  unfold Host.Lexer.breakLength
  split
  · rename_i more heq
    cases heq
    exact .inr ⟨more, rfl, rfl, rfl⟩
  · exact .inl rfl
  · exact .inl rfl
  · exact .inl rfl

/-- Host and block language agree on the character: what starts an identifier starts a name, and what can
stand in an identifier is a word character. -/
def agrees (c : Char) : Bool :=
  (!Text.isIdentifierStart c || Text.isNameStart c) && (!Text.isIdentifierPart c || Text.isWord c)

/-- Host and block language cut the text alike: they agree on its characters, and carriage returns stand only
before line feeds, never behind a backslash. -/
def Tidy : List Char → Prop
  | [] => True
  | c :: rest =>
    agrees c = true ∧ (c = '\r' → rest.head? = some '\n') ∧ (c = '\\' → rest.head? ≠ some '\r') ∧ Tidy rest

theorem Tidy.tail {c : Char} {rest : List Char} (h : Tidy (c :: rest)) : Tidy rest := h.2.2.2

theorem Tidy.drop (h : Tidy cs) (n : Nat) : Tidy (cs.drop n) := by
  induction n generalizing cs with
  | zero => exact h
  | succ n ih =>
    cases cs with
    | nil => exact h
    | cons c rest => exact ih h.tail

theorem tripleBody_cons (hc : c ≠ '\\') :
    tripleBody q k (c :: rest) =
      if [q, q, q].isPrefixOf (c :: rest) then some (k + 3) else tripleBody q (k + 1) rest := by
  rw [tripleBody]
  · simp [hc]
  · intro _ _ h
    exact absurd h hc

theorem lineBody_cons (hc : c ≠ '\\') :
    lineBody q k (c :: rest) =
      if c == q then some (k + 1) else if c == '\n' then none else lineBody q (k + 1) rest := by
  rw [lineBody]
  · simp [hc]
  · intro _ _ h
    exact absurd h hc

theorem tripleBody_of_stringBody (hq : q ≠ '\\' ∧ q ≠ '\n') (h : Host.Lexer.stringBody [q, q, q] fuel n cs = some m) :
    ∃ len, m = n + len ∧ ∀ k, tripleBody q k cs = some (k + len) := by
  induction fuel generalizing n cs with
  | zero => cases h
  | succ fuel ih =>
    unfold Host.Lexer.stringBody at h
    split at h
    · rename_i hquotes
      cases h
      refine ⟨3, rfl, fun k => ?_⟩
      obtain ⟨rest, rfl⟩ := List.isPrefixOf_iff_prefix.1 hquotes
      rw [List.cons_append, tripleBody_cons hq.1, ← List.cons_append, if_pos hquotes]
    · rename_i hquotes
      split at h
      · cases h
      · rename_i rest
        dsimp only at h
        split at h
        · cases h
        · rename_i hne
          obtain ⟨len, rfl, hlen⟩ := ih h
          cases rest with
          | nil => exact absurd rfl hne
          | cons c rest =>
            rcases escaped_cases c rest with hone | ⟨more, rfl, rfl, htwo⟩
            · rw [hone] at hlen ⊢
              refine ⟨2 + len, by omega, fun k => ?_⟩
              rw [tripleBody, show rest = (c :: rest).drop 1 from rfl, hlen]
              congr 1
              omega
            · -- the line feed after a carriage return is an ordinary character of the body
              rw [htwo] at hlen ⊢
              refine ⟨3 + len, by omega, fun k => ?_⟩
              have hfeed : [q, q, q].isPrefixOf ('\n' :: more) = false := by
                rw [List.isPrefixOf, beq_false_of_ne hq.2, Bool.false_and]
              rw [tripleBody, tripleBody_cons (by decide), hfeed, if_neg Bool.false_ne_true,
                show more = ('\r' :: '\n' :: more).drop 2 from rfl, hlen]
              congr 1
              omega
      · rename_i c rest hslash
        have hc : c ≠ '\\' := fun heq => hslash heq
        simp only [List.length_cons, List.length_nil, Nat.reduceAdd, Nat.reduceBEq, Bool.and_false,
          Bool.false_eq_true, if_false] at h
        obtain ⟨len, rfl, hlen⟩ := ih h
        refine ⟨1 + len, by omega, fun k => ?_⟩
        rw [tripleBody_cons hc, if_neg hquotes, hlen]
        congr 1
        omega

/-- A one-line string is cut off alike, unless a backslash in it takes a carriage return and a line feed. -/
theorem lineBody_of_stringBody (hq : q ≠ '\\' ∧ q ≠ '\n') (h : Host.Lexer.stringBody [q] fuel n cs = some m) :
    (∃ len, m = n + len ∧ ∀ k, lineBody q k cs = some (k + len)) ∨ ¬Tidy cs ∧ ∀ k, lineBody q k cs = none := by
  induction fuel generalizing n cs with
  | zero => cases h
  | succ fuel ih =>
    unfold Host.Lexer.stringBody at h
    split at h
    · rename_i hquotes
      cases h
      refine .inl ⟨1, rfl, fun k => ?_⟩
      obtain ⟨rest, rfl⟩ := List.isPrefixOf_iff_prefix.1 hquotes
      rw [List.cons_append, lineBody_cons hq.1, if_pos (beq_self_eq_true q)]
    · rename_i hquotes
      split at h
      · cases h
      · rename_i rest
        dsimp only at h
        split at h
        · cases h
        · rename_i hne
          cases rest with
          | nil => exact absurd rfl hne
          | cons c rest =>
            rcases escaped_cases c rest with hone | ⟨more, rfl, rfl, -⟩
            · rw [hone] at h
              rcases ih h with ⟨len, rfl, hlen⟩ | ⟨htidy, hnone⟩
              · refine .inl ⟨2 + len, by omega, fun k => ?_⟩
                rw [lineBody, show rest = (c :: rest).drop 1 from rfl, hlen]
                congr 1
                omega
              · exact .inr ⟨fun hcs => htidy hcs.tail.tail, fun k => by rw [lineBody]; exact hnone _⟩
            · refine .inr ⟨fun hcs => hcs.2.2.1 rfl rfl, fun k => ?_⟩
              rw [lineBody, lineBody_cons (by decide), beq_false_of_ne hq.2.symm]
              rfl
      · rename_i c rest hslash
        have hc : c ≠ '\\' := fun heq => hslash heq
        split at h
        · cases h
        · rename_i hbreak
          have hclose : (c == q) = false := by
            rw [beq_eq_false_iff_ne]
            rintro rfl
            exact hquotes (by rw [List.isPrefixOf, beq_self_eq_true, List.isPrefixOf, Bool.and_self])
          have hfeed : (c == '\n') = false := by
            simp only [List.length_singleton, beq_self_eq_true, Bool.and_true, Bool.or_eq_true, not_or] at hbreak
            simpa using hbreak.1
          have hstep (k : Nat) : lineBody q k (c :: rest) = lineBody q (k + 1) rest := by
            rw [lineBody_cons hc, hclose, hfeed, if_neg Bool.false_ne_true, if_neg Bool.false_ne_true]
          rcases ih h with ⟨len, rfl, hlen⟩ | ⟨htidy, hnone⟩
          · refine .inl ⟨1 + len, by omega, fun k => ?_⟩
            rw [hstep, hlen]
            congr 1
            omega
          · exact .inr ⟨fun hcs => htidy hcs.tail, fun k => by rw [hstep, hnone]⟩

/-- The quotes of the language. -/
def IsQuote (q : Char) : Prop := q = '\x27' ∨ q = '\x22'

theorem IsQuote.ne (h : IsQuote q) : q ≠ '\\' ∧ q ≠ '\n' := by
  rcases h with rfl | rfl <;> decide

/-- A string without marks is cut off alike, or it is none here. -/
theorem quotedLength_of_stringBody (hq : IsQuote q)
    (hquote : quote = if [q, q].isPrefixOf rest then [q, q, q] else [q])
    (h : Host.Lexer.stringBody quote fuel (n + quote.length) ((q :: rest).drop quote.length) = some m) :
    (∃ len, m = n + len ∧ quotedLength (q :: rest) = some len) ∨ ¬Tidy rest ∧ quotedLength (q :: rest) = none := by
  have hcase : (q == '\x27' || q == '\x22') = true := by
    rcases hq with rfl | rfl <;> rfl
  split at hquote
  · rename_i htriple
    subst hquote
    obtain ⟨len, rfl, hlen⟩ := tripleBody_of_stringBody hq.ne h
    refine .inl ⟨3 + len, by simp; omega, ?_⟩
    simp only [quotedLength, if_pos hcase, if_pos htriple]
    rw [show rest.drop 2 = (q :: rest).drop [q, q, q].length from rfl, hlen]
    rfl
  · rename_i hline
    subst hquote
    have hlength : quotedLength (q :: rest) = lineBody q 1 rest := by
      simp only [quotedLength, if_pos hcase, if_neg hline, Option.none_or]
    rcases lineBody_of_stringBody hq.ne h with ⟨len, rfl, hlen⟩ | ⟨htidy, hnone⟩
    · exact .inl ⟨1 + len, by simp; omega, hlength.trans (hlen 1)⟩
    · exact .inr ⟨htidy, hlength.trans (hnone 1)⟩

theorem quotedLength_of_not_isQuote (hq : ¬IsQuote q) (rest : List Char) :
    quotedLength (q :: rest) = none := by
  have hcase : ¬(q == '\x27' || q == '\x22') = true := by
    rw [Bool.or_eq_true, beq_iff_eq, beq_iff_eq]
    exact hq
  simp only [quotedLength, if_neg hcase]

theorem stringMarks_strict : Host.Lexer.stringMarks .strict =
    [[], ['r'], ['u'], ['b'], ['f'], ['b', 'r'], ['r', 'b'], ['f', 'r'], ['r', 'f']].map String.ofList := by
  decide

theorem lt_of_isAlpha (h : c.isAlpha = true) : c.toNat < 128 := by
  simp only [Char.isAlpha, Char.isUpper, Char.isLower, Bool.or_eq_true, Bool.and_eq_true, decide_eq_true_eq] at h
  have hval : c.toNat = c.val.toNat := rfl
  have hupper : 'Z'.val.toNat = 90 := rfl
  have hlower : 'z'.val.toNat = 122 := rfl
  rcases h with h | h
  · have := UInt32.le_iff_toNat_le.1 h.2
    omega
  · have := UInt32.le_iff_toNat_le.1 h.2
    omega

/-- The marks of a host string are marks here too. -/
theorem isStringMark_of_opening {marks : List Char} (h : Host.Lexer.stringOpening .strict cs = some (marks, quote)) :
    (∀ a ∈ marks, isStringMark a = true) ∧ ∃ q rest, cs = marks ++ q :: rest ∧ IsQuote q ∧ marks.length ≤ 2 ∧
      quote = if [q, q].isPrefixOf rest then [q, q, q] else [q] := by
  unfold Host.Lexer.stringOpening at h
  dsimp only at h
  split at h
  · rename_i hmarks
    split at h
    · rename_i q rest hdrop
      split at h
      · rename_i hq
        cases h
        rw [Bool.and_eq_true, stringMarks_strict, List.contains_iff_mem, List.mem_map] at hmarks
        obtain ⟨hlength, w, hw, heq⟩ := hmarks
        obtain rfl := String.ofList_injective heq
        refine ⟨fun a ha => ?_, q, rest, ?_, by simpa [IsQuote] using hq, by simpa using hlength, rfl⟩
        · have hletters : ([[], ['r'], ['u'], ['b'], ['f'], ['b', 'r'], ['r', 'b'], ['f', 'r'], ['r', 'f']].all
            fun v => v.all fun x => "rubf".toList.contains x) = true := by decide
          have hlower := List.all_eq_true.1 (List.all_eq_true.1 hletters _ hw) _ (List.mem_map_of_mem ha)
          have halpha : a.isAlpha = true := List.all_eq_true.1 List.all_takeWhile a ha
          revert hlower
          exact Text.forall_ascii (P := fun a => "rubf".toList.contains a.toLower = true → isStringMark a = true)
            (by decide) (lt_of_isAlpha halpha)
        · rw [← hdrop]
          exact (List.prefix_iff_eq_append.1 (List.takeWhile_prefix _)).symm
      · cases h
    · cases h
  · cases h

/-! ### Words -/

theorem isWordLike_of_isStringMark (h : isStringMark a = true) : isWordLike a = true ∧ a.isAlpha = true := by
  have hall : ("rRbBuUfF".toList.all fun a => isWordLike a && a.isAlpha) = true := by decide
  simpa using List.all_eq_true.1 hall a (List.contains_iff_mem.1 h)

theorem not_isQuote_of_isWordLike (h : isWordLike c = true) : ¬IsQuote c := by
  rintro (rfl | rfl) <;> exact absurd h (by decide)

/-- One mark before a quote opens a host string. -/
theorem stringOpening_of_mark (ha : isStringMark a = true) (hq : IsQuote q) :
    Host.Lexer.stringOpening .strict (a :: q :: rest) ≠ none := by
  have hmark : (Host.Lexer.stringMarks .strict).contains (String.ofList [a.toLower]) = true := by
    have hall : ("rRbBuUfF".toList.all fun a =>
      (Host.Lexer.stringMarks .strict).contains (String.ofList [a.toLower])) = true := by decide
    exact List.all_eq_true.1 hall a (List.contains_iff_mem.1 ha)
  have hqalpha : q.isAlpha = false := by
    rcases hq with rfl | rfl <;> decide
  have hqcase : (q == '\x27' || q == '\x22') = true := by
    rcases hq with rfl | rfl <;> rfl
  have hmarks : (a :: q :: rest).takeWhile Char.isAlpha = [a] := by
    simp [(isWordLike_of_isStringMark ha).2, hqalpha]
  simp only [Host.Lexer.stringOpening, hmarks, List.length_singleton, List.map_cons, List.map_nil, hmark,
    List.drop_one, List.tail_cons, hqcase, if_true]
  simp

/-- What is a word for the host is a string here only if it is two marks before a quote. -/
theorem stringLength_of_word (hc : isWordLike c = true) (hword : c :: rest = word ++ after)
    (hall : ∀ d ∈ word, isWordLike d = true) (hafter : ∀ d more, after = d :: more → isWordLike d = false)
    (hopening : Host.Lexer.stringOpening .strict (c :: rest) = none) :
    stringLength (c :: rest) = none ∨
      ∃ len, word.length = 2 ∧ quotedLength after = some len ∧ stringLength (c :: rest) = some (len + 2) := by
  have hstart : quotedLength (c :: rest) = none := quotedLength_of_not_isQuote (not_isQuote_of_isWordLike hc) rest
  cases rest with
  | nil => exact .inl rfl
  | cons b rest =>
    -- a quote cannot be part of the word
    have hone : (if isStringMark c then (quotedLength (b :: rest)).map (· + 1) else none) = none := by
      split
      · rename_i hmark
        have hb : ¬IsQuote b := fun hb => stringOpening_of_mark hmark hb hopening
        rw [quotedLength_of_not_isQuote hb]
        rfl
      · rfl
    simp only [stringLength, hone, hstart, Option.or_none]
    split
    · rename_i hmarks
      rw [Bool.and_eq_true] at hmarks
      cases hlength : quotedLength rest with
      | none => exact .inl rfl
      | some len =>
        refine .inr ⟨len, ?_⟩
        cases rest with
        | nil => cases hlength
        | cons q more =>
          have hq : IsQuote q := Classical.byContradiction fun hq => by
            rw [quotedLength_of_not_isQuote hq] at hlength
            cases hlength
          have htwo : word = [c, b] := by
            match word, hword, hall with
            | [], hword, _ =>
              rw [List.nil_append] at hword
              exact absurd hc (by rw [hafter c _ hword.symm]; exact Bool.false_ne_true)
            | [x], hword, _ =>
              obtain ⟨rfl, hrest⟩ := List.cons.inj hword
              have := hafter b _ hrest.symm
              rw [(isWordLike_of_isStringMark hmarks.2).1] at this
              cases this
            | [x, y], hword, _ =>
              obtain ⟨rfl, hrest⟩ := List.cons.inj hword
              obtain ⟨rfl, -⟩ := List.cons.inj hrest
              rfl
            | x :: y :: z :: w, hword, hall =>
              obtain ⟨-, hrest⟩ := List.cons.inj hword
              obtain ⟨-, hrest⟩ := List.cons.inj hrest
              obtain ⟨rfl, -⟩ := List.cons.inj hrest
              exact absurd hq (not_isQuote_of_isWordLike (hall q (by simp)))
          subst htwo
          obtain rfl : after = q :: more := by
            have := hword.symm
            simpa using this
          exact ⟨rfl, hlength, rfl⟩
    · exact .inl rfl

theorem nameLength_of_word (hword : c :: rest = word ++ after) (hne : word ≠ []) (hstart : Text.isNameStart c = true)
    (hall : ∀ d ∈ word, Text.isWord d = true) (hafter : ∀ d more, after = d :: more → Text.isWord d = false) :
    nameLength (c :: rest) = some word.length := by
  have hstop {x : List Char} (hx : ∀ d ∈ x, Text.isWord d = true) : countWhile Text.isWord (x ++ after) = x.length := by
    induction x with
    | nil =>
      cases after with
      | nil => rfl
      | cons d more =>
        rw [List.nil_append, countWhile_cons, hafter d more rfl]
        rfl
    | cons d x ih =>
      rw [List.forall_mem_cons] at hx
      rw [List.cons_append, countWhile_cons, if_pos hx.1, ih hx.2]
      rfl
  cases word with
  | nil => exact absurd rfl hne
  | cons d word =>
    obtain ⟨rfl, rfl⟩ := List.cons.inj hword
    rw [List.forall_mem_cons] at hall
    show (if _ then some (1 + countWhile Text.isWord (word ++ after)) else none) = _
    rw [if_pos hstart, hstop hall.2, List.length_cons, Nat.add_comm]

theorem numberLength_of_not_isDecimal (hc : Text.isDecimal c = false)
    (hdot : c = '.' → ∀ d more, rest = d :: more → Text.isDecimal d = false) : numberLength (c :: rest) = none := by
  have hmarked : markedLength (c :: rest) = none := by
    unfold markedLength
    split
    · rename_i heq
      cases heq
      exact absurd hc (by decide)
    · rfl
  have hmantissa : mantissaLength (c :: rest) = none := by
    simp only [mantissaLength, hc, Bool.false_eq_true, if_false]
    split
    · rename_i h
      cases rest with
      | nil => rfl
      | cons d more => simp [hdot (eq_of_beq h) d more rfl]
    · rfl
  rw [numberLength, hmarked, decimalLength, hmantissa]
  rfl

theorem commentLength_of_ne (hc : c ≠ '#') (rest : List Char) : commentLength (c :: rest) = none := by
  unfold commentLength
  split
  · rename_i heq
    cases heq
    exact absurd rfl hc
  · rfl

/-! ### Signs -/

/-- The character begins neither a word nor a string nor a comment. -/
def isSign (c : Char) : Bool := !isWordLike c && c != '#' && c != '\x27' && c != '\x22'

/-- The classes that may begin with a sign. -/
theorem lexeme?_of_isSign (hc : isSign c = true)
    (hdot : c = '.' → ∀ d more, rest = d :: more → Text.isDecimal d = false) :
    lexeme? (c :: rest) = [(.arrow, arrowLength), (.operator, operatorLength), (.symbol, symbolLength),
      (.continuation, continuationLength), (.newline, newlineLength), (.whitespace, whitespaceLength)].findSome?
        fun k : TokenKind × (List Char → Option Nat) => (k.2 (c :: rest)).map fun n => (k.1, n) := by
  simp only [isSign, Bool.and_eq_true, Bool.not_eq_true', bne_iff_ne, ne_eq] at hc
  obtain ⟨⟨⟨hword, hcomment⟩, hquote⟩, hquote'⟩ := hc
  have hq : ¬IsQuote c := fun h => h.elim hquote hquote'
  have hmark : isStringMark c = false := by
    rw [Bool.eq_false_iff]
    intro h
    rw [(isWordLike_of_isStringMark h).1] at hword
    cases hword
  have hstring : stringLength (c :: rest) = none := by
    cases rest with
    | nil => rfl
    | cons b rest => simp [stringLength, hmark, quotedLength_of_not_isQuote hq]
  have hdecimal : Text.isDecimal c = false := by
    rw [Bool.eq_false_iff]
    intro h
    rw [isWordLike_of_isDecimal h] at hword
    cases hword
  have hname : nameLength (c :: rest) = none := by
    have hstart : Text.isNameStart c = false := by
      rw [Bool.eq_false_iff]
      intro h
      simp only [Text.isNameStart, Bool.and_eq_true] at h
      rw [isWordLike_of_isWord h.1] at hword
      cases hword
    simp [nameLength, hstart]
  rw [lexeme?, classes]
  simp only [List.findSome?_cons, commentLength_of_ne hcomment, hstring, numberLength_of_not_isDecimal hdecimal hdot,
    hname, Option.map_none]

/-- Of operators ordered by length, the first that fits is the longest. -/
theorem length_le_of_find? {ops : List (List Char)} {o' : List Char}
    (hops : ops.Pairwise fun a b => b.length ≤ a.length) (h : ops.find? (fun o => o.isPrefixOf cs) = some o)
    (ho' : o' ∈ ops) (hlead : o'.isPrefixOf cs = true) : o'.length ≤ o.length := by
  induction ops with
  | nil => cases ho'
  | cons p ops ih =>
    rw [List.pairwise_cons] at hops
    by_cases hp : p.isPrefixOf cs = true
    · simp only [List.find?_cons, hp] at h
      cases h
      rcases List.mem_cons.1 ho' with rfl | ho'
      · exact Nat.le_refl _
      · exact hops.1 o' ho'
    · simp only [List.find?_cons, hp] at h
      rcases List.mem_cons.1 ho' with rfl | ho'
      · exact absurd hlead hp
      · exact ih hops.2 h ho'

/-- What is an operator for the host is an operator or a symbol here. -/
theorem operator_or_symbol (h : Host.Lexer.operators.find? (fun o => o.isPrefixOf cs) = some o) :
    operatorLength cs = some o.length ∨
      operatorLength cs = none ∧ ∃ c, o = [c] ∧ "()\x7b\x7d[],;:".toList.contains c = true := by
  have hhost : Host.Lexer.operators.Pairwise fun a b => b.length ≤ a.length := by decide
  have hops : operators.Pairwise fun a b => b.length ≤ a.length := by decide
  have hsub : ∀ o ∈ operators, o ∈ Host.Lexer.operators ∧ o ≠ [] := by decide
  have hlead : o <+: cs := List.isPrefixOf_iff_prefix.1 (by simpa using List.find?_some h)
  have hmem := List.mem_of_find?_eq_some h
  have hcases : o ∈ operators ∨ ∃ c, o = [c] ∧ "()\x7b\x7d[],;:".toList.contains c = true := by
    have hall : (Host.Lexer.operators.all fun o => operators.contains o ||
        (o.length == 1 && o.all fun c => "()\x7b\x7d[],;:".toList.contains c)) = true := by decide
    have ho := List.all_eq_true.1 hall o hmem
    rw [Bool.or_eq_true, Bool.and_eq_true, beq_iff_eq] at ho
    rcases ho with ho | ⟨hone, ho⟩
    · exact .inl (List.contains_iff_mem.1 ho)
    · obtain ⟨c, rfl⟩ := List.length_eq_one_iff.1 hone
      exact .inr ⟨c, rfl, List.all_eq_true.1 ho c (by simp)⟩
  unfold operatorLength
  cases hfind : operators.find? (fun o => o.isPrefixOf cs) with
  | none =>
    refine .inr ⟨rfl, hcases.resolve_left fun ho => ?_⟩
    exact absurd (List.isPrefixOf_iff_prefix.2 hlead) (by simpa using List.find?_eq_none.1 hfind o ho)
  | some o' =>
    left
    have hlead' : o'.isPrefixOf cs = true := by simpa using List.find?_some hfind
    have hmem' := List.mem_of_find?_eq_some hfind
    have hle := length_le_of_find? hhost h (hsub o' hmem').1 hlead'
    rcases hcases with ho | ⟨c, rfl, -⟩
    · have hge := length_le_of_find? hops hfind ho (List.isPrefixOf_iff_prefix.2 hlead)
      rw [Option.map_some, Nat.le_antisymm hle hge]
    · have hpos := List.length_pos_iff.2 (hsub o' hmem').2
      simp only [List.length_singleton] at hle ⊢
      rw [Option.map_some]
      congr 1
      omega

/-- A sign that the host takes as an operator is a token of the same length. -/
theorem lexeme?_of_operator (h : Host.Lexer.operators.find? (fun o => o.isPrefixOf (c :: rest)) = some o)
    (hdot : c = '.' → ∀ d more, rest = d :: more → Text.isDecimal d = false)
    (harrow : c = '=' → rest.head? ≠ some '>') :
    lexeme? (c :: rest) = some (.operator, o.length) ∨ lexeme? (c :: rest) = some (.symbol, o.length) := by
  have hlead : o <+: c :: rest := List.isPrefixOf_iff_prefix.1 (by simpa using List.find?_some h)
  have hsign : isSign c = true := by
    have hall : (Host.Lexer.operators.all fun o => o.head?.any isSign) = true := by decide
    have ho := List.all_eq_true.1 hall o (List.mem_of_find?_eq_some h)
    cases o with
    | nil => cases ho
    | cons d o =>
      obtain ⟨more, hmore⟩ := hlead
      cases hmore
      exact ho
  have hnoArrow : arrowLength (c :: rest) = none := by
    unfold arrowLength
    split
    · rename_i heq
      cases heq
      exact absurd rfl (harrow rfl)
    · rfl
  rw [lexeme?_of_isSign hsign hdot]
  rcases operator_or_symbol h with hop | ⟨hop, d, rfl, hd⟩
  · left
    simp [hnoArrow, hop]
  · right
    obtain ⟨more, hmore⟩ := hlead
    obtain ⟨rfl, -⟩ := List.cons.inj hmore
    have hsymbol : symbolLength (d :: rest) = some 1 := by
      simp only [symbolLength, hd, if_true]
    simp [hnoArrow, hop, hsymbol]

/-- No operator begins with the character. -/
theorem operatorLength_of_not_head (h : (operators.any fun o => o.head? == some c) = false) :
    operatorLength (c :: rest) = none := by
  have hnone : operators.find? (fun o => o.isPrefixOf (c :: rest)) = none := by
    rw [List.find?_eq_none]
    intro o ho hlead
    have hne : ∀ o ∈ operators, o ≠ [] := by decide
    cases o with
    | nil => exact hne _ ho rfl
    | cons d o =>
      obtain ⟨more, hmore⟩ := List.isPrefixOf_iff_prefix.1 hlead
      cases hmore
      have := List.any_eq_false.1 h _ ho
      simp at this
  rw [operatorLength, hnone]
  rfl

/-! ### Gaps -/

/-- The characters that begin a gap, comments apart. -/
def gapStarts : List Char := [' ', '\t', '\x0c', '\n', '\r', '\\']

theorem lexeme?_of_gapStart (hc : c ∈ gapStarts) :
    lexeme? (c :: rest) = [(.continuation, continuationLength), (.newline, newlineLength),
      (.whitespace, whitespaceLength)].findSome?
        fun k : TokenKind × (List Char → Option Nat) => (k.2 (c :: rest)).map fun n => (k.1, n) := by
  have hall : ∀ c ∈ gapStarts, isSign c = true ∧ c ≠ '.' ∧ c ≠ '=' ∧ "()\x7b\x7d[],;:".toList.contains c = false ∧
      (operators.any fun o => o.head? == some c) = false := Text.forall_mem_of_all (by decide)
  obtain ⟨hsign, hdot, hequals, hsymbol, hop⟩ := hall c hc
  have harrow : arrowLength (c :: rest) = none := by
    unfold arrowLength
    split
    · rename_i heq
      cases heq
      exact absurd rfl hequals
    · rfl
  rw [lexeme?_of_isSign hsign fun h => absurd h hdot, List.findSome?_cons, List.findSome?_cons, List.findSome?_cons]
  simp only [harrow, operatorLength_of_not_head hop, symbolLength, hsymbol, Option.map_none, Bool.false_eq_true, if_false]

theorem lexeme?_newline (h : newlineLength cs = some n) :
    lexeme? cs = some (.newline, n) := by
  unfold newlineLength at h
  split at h
  · cases h
    exact lexeme?_of_gapStart (by decide)
  · cases h
    exact lexeme?_of_gapStart (by decide)
  · cases h

theorem lexeme?_continuation (h : newlineLength rest = some n) :
    lexeme? ('\\' :: rest) = some (.continuation, n + 1) := by
  rw [lexeme?_of_gapStart (by decide)]
  simp [continuationLength, h]

theorem lexeme?_comment (rest : List Char) :
    lexeme? ('#' :: rest) = some (.comment, 1 + countWhile (fun c => c != '\r' && c != '\n') rest) := rfl

theorem lexeme?_blank {c : Char} {rest : List Char} (hc : Host.Lexer.isInlineBlank c = true) :
    lexeme? (c :: rest) = some (.whitespace, 1 + countWhile Host.Lexer.isInlineBlank rest) := by
  have hcases : c = ' ' ∨ c = '\t' ∨ c = '\x0c' := by
    simpa [Host.Lexer.isInlineBlank, or_assoc] using hc
  have hspace : whitespaceLength (c :: rest) = some (1 + countWhile Host.Lexer.isInlineBlank rest) := by
    have hcount : countWhile (fun c => c == ' ' || c == '\t' || c == '\x0c') (c :: rest) =
        1 + countWhile Host.Lexer.isInlineBlank rest := by
      show countWhile Host.Lexer.isInlineBlank (c :: rest) = _
      rw [countWhile_cons, if_pos hc, Nat.add_comm]
    simp [whitespaceLength, hcount]
  have hother : c ∈ gapStarts ∧ continuationLength (c :: rest) = none ∧ newlineLength (c :: rest) = none := by
    rcases hcases with rfl | rfl | rfl <;> exact ⟨by decide, rfl, rfl⟩
  rw [lexeme?_of_gapStart hother.1]
  simp [hspace, hother.2]

end Lexer
end DoBlocks
