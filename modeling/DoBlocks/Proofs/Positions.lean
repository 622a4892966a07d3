import DoBlocks.Proofs.Splitting
import DoBlocks.Proofs.TokenStream

/-!
# Positions of tokens

The lexer counts lines and columns while it cuts. What it counts is what the text says: the line of a place
is one more than the number of line feeds before it, and its column is the distance back to the last of
them. So the tokens tile the text, each at its place, up to the end of the text or up to the first character
that starts no token.
-/

namespace DoBlocks

/-! ### Places -/

/-- The line of the place after `cs`. -/
def lineAfter (cs : List Char) : Nat := 1 + cs.count '\n'

/-- The column of the place after `cs`: the number of characters after its last line feed. -/
def columnAfter (cs : List Char) : Nat := (cs.reverse.takeWhile (· != '\n')).length

/-- The place after `cs`. -/
def placeAfter (cs : List Char) : Position := ⟨lineAfter cs, columnAfter cs⟩

theorem lineAfter_concat (cs : List Char) (c : Char) :
    lineAfter (cs ++ [c]) = if c == '\n' then lineAfter cs + 1 else lineAfter cs := by
  unfold lineAfter
  rw [List.count_append, List.count_singleton]
  split <;> omega

theorem columnAfter_concat (cs : List Char) (c : Char) :
    columnAfter (cs ++ [c]) = if c == '\n' then 0 else columnAfter cs + 1 := by
  unfold columnAfter
  rw [List.reverse_append, List.reverse_singleton, List.singleton_append, List.takeWhile_cons]
  by_cases hc : c = '\n' <;> simp [hc]

/-- Walking over a piece of the text keeps the count right. -/
theorem advance_after (before piece : List Char) :
    advance (lineAfter before) (columnAfter before) piece =
      (lineAfter (before ++ piece), columnAfter (before ++ piece)) := by
  induction piece generalizing before with
  | nil => rw [List.append_nil, advance]
  | cons c rest ih =>
    have hstep : before ++ c :: rest = (before ++ [c]) ++ rest := by simp
    rw [advance, hstep, ← ih, lineAfter_concat, columnAfter_concat]
    split <;> rfl

/-! ### Tokens in their places -/

/-- The token has the text and the position that the stretch from its offset to its end has in `text`. -/
structure Token.StandsIn (t : Token) (text : List Char) : Prop where
  inside : t.stop ≤ text.length
  slice : t.text.toList = (text.drop t.offset).take (t.stop - t.offset)
  line : t.line = lineAfter (text.take t.offset)
  column : t.column = columnAfter (text.take t.offset)
  spanStop : t.span.stop = placeAfter (text.take t.stop)

/-- The token is what the first class of tokens that fits at its offset takes there. -/
def Token.Fits (t : Token) (text : List Char) : Prop :=
  ∃ n, Lexer.lexeme? (text.drop t.offset) = some (t.kind, n) ∧ t.text.toList = (text.drop t.offset).take n

/-- The tokens cover the text from the place `start` to the place `stop`, one after another. -/
inductive Tiles (text : List Char) : Nat → List Token → Nat → Prop
  | nil {start : Nat} : Tiles text start [] start
  | cons {t : Token} {ts : List Token} {stop : Nat} : t.StandsIn text → t.offset < t.stop → t.Fits text →
    Tiles text t.stop ts stop → Tiles text t.offset (t :: ts) stop

/-- The end of a text as a token. -/
structure Token.IsEndOf (t : Token) (text : List Char) : Prop where
  kind : t.kind = .eof
  empty : t.text = ""
  offset : t.offset = text.length
  stop : t.stop = text.length
  standsIn : t.StandsIn text

/-- A token that covers the characters `piece` after `before`, and counts from where they begin. -/
theorem Token.standsIn_of_append {t : Token} {before piece after : List Char} (htext : t.text.toList = piece)
    (hline : t.line = lineAfter before) (hcolumn : t.column = columnAfter before)
    (hoffset : t.offset = before.length) (hstop : t.stop = before.length + piece.length) :
    t.StandsIn (before ++ piece ++ after) where
  inside := by
    rw [hstop]
    simp only [List.length_append]
    omega
  slice := by
    rw [htext, hoffset, hstop, Nat.add_sub_cancel_left, List.append_assoc, List.drop_left, List.take_left]
  line := by rw [hline, hoffset, List.append_assoc, List.take_left]
  column := by rw [hcolumn, hoffset, List.append_assoc, List.take_left]
  spanStop := by
    rw [hstop, ← List.length_append, List.take_left, Token.span, Token.after, htext, hline, hcolumn, advance_after]
    rfl

/-! ### The whole stream -/

/-- What the lexer gives for the rest `cs` of a text after `before`: tiles up to the end of the text and that
end, or tiles up to a character that starts no token. -/
inductive Streamed (before cs : List Char) : Lexer.Stream → Prop
  | whole {ts : List Token} {e : Token} : Tiles (before ++ cs) before.length ts (before ++ cs).length →
    e.IsEndOf (before ++ cs) → Streamed before cs ⟨ts ++ [e], none⟩
  | cut {ts : List Token} {piece after : List Char} {c : Char} {e : ParseError} :
    cs = piece ++ c :: after → Lexer.lexeme? (c :: after) = none → e.fault = .strayCharacter c →
    e.span.start = placeAfter (before ++ piece) →
    Tiles (before ++ cs) before.length ts (before ++ piece).length → Streamed before cs ⟨ts, some e⟩

namespace Streamed

variable {before cs : List Char} {s : Lexer.Stream}

/-- The stream of a text from one token on gives the stream from that token's own offset on. -/
theorem push {t : Token} {piece rest : List Char} {n : Nat} (hlex : Lexer.lexeme? (piece ++ rest) = some (t.kind, n))
    (htext : t.text.toList = (piece ++ rest).take n) (ht : t.StandsIn (before ++ piece ++ rest)) (hpiece : piece ≠ [])
    (hoffset : t.offset = before.length) (hstop : t.stop = (before ++ piece).length)
    (h : Streamed (before ++ piece) rest s) : Streamed before (piece ++ rest) ⟨t :: s.tokens, s.fault⟩ := by
  have hpos : t.offset < t.stop := by
    have := List.length_pos_iff.2 hpiece
    rw [hoffset, hstop, List.length_append]
    omega
  have hfits : t.Fits (before ++ piece ++ rest) := by
    refine ⟨n, ?_, ?_⟩ <;> rwa [hoffset, List.append_assoc, List.drop_left]
  cases h with
  | whole htiles hend =>
    rw [List.append_assoc] at ht hfits htiles hend
    rw [← List.cons_append]
    refine .whole ?_ hend
    rw [← hoffset]
    refine .cons ht hpos hfits ?_
    rwa [hstop]
  | @cut ts piece' after c e hcs hnone hfault hspan htiles =>
    rw [List.append_assoc] at ht hfits hspan
    rw [List.append_assoc before piece rest, List.append_assoc before piece piece'] at htiles
    have hcs' : piece ++ rest = (piece ++ piece') ++ c :: after := by rw [hcs, List.append_assoc]
    refine .cut hcs' hnone hfault hspan ?_
    rw [← hoffset]
    refine .cons ht hpos hfits ?_
    rwa [hstop]

end Streamed

/-- Scanning the rest of a text from the right line and column. -/
theorem scan_streamed {line column offset : Nat} {before cs : List Char} (hline : line = lineAfter before)
    (hcolumn : column = columnAfter before) (hoffset : offset = before.length) :
    Streamed before cs (Lexer.scan line column offset cs) := by
  -- the induction is on the text that is left; what was read moves to `before`
  fun_induction Lexer.scan line column offset cs generalizing before with
  | case1 line column offset =>
    subst hline hcolumn hoffset
    refine @Streamed.whole before [] [] _ ?_ ⟨rfl, rfl, by simp, by simp, ?_⟩
    · rw [List.append_nil]
      exact .nil
    · have := @Token.standsIn_of_append ⟨.eof, "", lineAfter before, columnAfter before, before.length, before.length⟩
        before [] [] rfl rfl rfl rfl rfl
      simpa using this
  | case2 line column offset c rest kind n hlex text place token more =>
    rename_i ih
    subst hline hcolumn hoffset
    have hsplit : c :: rest = text ++ rest.drop n := by simp [text]
    have hstop : token.stop = (before ++ text).length := by simp [token]
    have hplace : place = (lineAfter (before ++ text), columnAfter (before ++ text)) := advance_after before text
    have htext : token.text.toList = (c :: rest).take (n + 1) := by simp [token, text]
    rw [hsplit] at hlex htext ⊢
    refine .push hlex htext (Token.standsIn_of_append (by simp [token]) rfl rfl rfl rfl) (by simp [text]) rfl hstop ?_
    exact ih (by rw [hplace]) (by rw [hplace]) (by simp)
  | case3 line column offset c rest hnone =>
    subst hline hcolumn hoffset
    refine @Streamed.cut before (c :: rest) [] [] rest c _ rfl ?_ rfl ?_ ?_
    · cases hlex : Lexer.lexeme? (c :: rest) with
      | none => rfl
      | some found =>
        obtain ⟨kind, n⟩ := found
        obtain ⟨m, rfl⟩ := Nat.exists_eq_succ_of_ne_zero (Nat.ne_of_gt (Lexer.lexeme?_pos hlex))
        exact absurd hlex (hnone kind m)
    · rw [List.append_nil]
      rfl
    · rw [List.append_nil]
      exact .nil

/-- The tokens of a text tile it, with exact positions, and end with an empty token at its end; or some
character starts no token, and then they tile the text before the first such character, where the fault
stands. -/
theorem tokenize_tiles (text : String) :
    (∃ ts e, Lexer.tokenize text = ⟨ts ++ [e], none⟩ ∧ Tiles text.toList 0 ts text.length ∧ e.IsEndOf text.toList) ∨
    ∃ ts e before c after, Lexer.tokenize text = ⟨ts, some e⟩ ∧ text.toList = before ++ c :: after ∧
      Lexer.lexeme? (c :: after) = none ∧ e.fault = .strayCharacter c ∧ e.span.start = placeAfter before ∧
      Tiles text.toList 0 ts before.length := by
  have h : Streamed [] text.toList (Lexer.tokenize text) := scan_streamed rfl rfl rfl
  generalize Lexer.tokenize text = s at h
  cases h with
  | @whole ts e htiles hend =>
    rw [List.nil_append, String.length_toList] at htiles
    exact .inl ⟨ts, e, rfl, htiles, hend⟩
  | @cut ts piece after c e hcs hnone hfault hspan htiles =>
    exact .inr ⟨ts, e, piece, c, after, rfl, hcs, hnone, hfault, hspan, htiles⟩

/-- A line break of two characters is one line, and so is one inside a string or after a backslash. -/
example : ((Lexer.tokenize "a\r\n\x27\x27\x27b\nc\x27\x27\x27 \\\n?").tokens.map fun t => (t.offset, t.line, t.column)) =
    [(0, 1, 0), (1, 1, 1), (3, 2, 0), (12, 3, 4), (13, 3, 5)] ∧
    (Lexer.tokenize "a\r\n\x27\x27\x27b\nc\x27\x27\x27 \\\n?").fault.map (fun e => e.span.start) = some ⟨4, 0⟩ := by
  decide +kernel

end DoBlocks
