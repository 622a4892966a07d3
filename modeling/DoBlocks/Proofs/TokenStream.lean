import DoBlocks.Token.Script

/-!
# Where tokens stand in a text

The tokens of a text that can be cut are contiguous: their texts, one after another, are the text, and
offsets count characters. The significant tokens stand in the text with their gaps between them.
-/

namespace DoBlocks

namespace Lexer

/-- The tokens of a text `cs` that starts at `offset`, up to its end. -/
inductive Cuts : Nat → List Char → List Token → Prop
  | stop {offset : Nat} {t : Token} : t.kind = .eof → Cuts offset [] [t]
  | token {offset n : Nat} {cs after : List Char} {t : Token} {ts : List Token} :
    lexeme? cs = some (t.kind, n + 1) → t.text.toList = cs.take (n + 1) →
    cs = t.text.toList ++ after → t.offset = offset → t.stop = offset + t.text.length →
    Cuts t.stop after ts → Cuts offset cs (t :: ts)

theorem scan_cuts {line column offset : Nat} {cs : List Char}
    (h : (scan line column offset cs).fault = none) :
    Cuts offset cs (scan line column offset cs).tokens := by
  fun_induction scan line column offset cs with
  | case1 => exact .stop rfl
  | case2 line column offset c rest kind n hlex text place token more ih =>
    have hafter : c :: rest = text ++ rest.drop n := by
      simp [text]
    exact .token hlex (by simp [token, text]) (by simpa [token] using hafter) rfl
      (by simp [token]) (ih h)
  | case3 => cases h

/-- No class of tokens is the end of the text. -/
theorem kind_ne_eof_of_lexeme? {cs : List Char} {kind : TokenKind} {n : Nat}
    (h : lexeme? cs = some (kind, n)) : kind ≠ .eof := by
  obtain ⟨c, hc, hkind⟩ := List.exists_of_findSome?_eq_some h
  obtain ⟨_, -, heq⟩ := Option.map_eq_some_iff.1 hkind
  obtain rfl : c.1 = kind := congrArg Prod.fst heq
  have hall : ∀ c ∈ classes, c.1 ≠ .eof := by simp [classes]
  exact hall c hc

end Lexer

/-- The token is a significant one that the lexer can cut. -/
def SpacedToken.Genuine (t : SpacedToken) : Prop :=
  t.kind.isTrivia = false ∧
    ∃ cs n, Lexer.lexeme? cs = some (t.kind, n + 1) ∧ t.text.toList = cs.take (n + 1)

theorem SpacedToken.Genuine.kind_ne_eof {t : SpacedToken} (h : t.Genuine) : t.kind ≠ .eof := by
  obtain ⟨-, cs, n, hlex, -⟩ := h
  exact Lexer.kind_ne_eof_of_lexeme? hlex

theorem SpacedToken.Genuine.length_pos {t : SpacedToken} (h : t.Genuine) : 0 < t.text.length := by
  obtain ⟨-, cs, n, hlex, htext⟩ := h
  rw [← String.length_toList, htext, List.length_take]
  have hcs : cs ≠ [] := by
    rintro rfl
    cases hlex
  have := List.length_pos_iff.2 hcs
  omega

/-- The tokens stand in a text that starts at `offset`, each after its gap. -/
inductive Placed : Nat → List Char → List SpacedToken → Prop
  | nil {offset : Nat} {cs : List Char} : Placed offset cs []
  | cons {offset : Nat} {cs after : List Char} {t : SpacedToken} {ts : List SpacedToken} :
    cs = t.gap.toList ++ t.text.toList ++ after → t.offset = offset + t.gap.length →
    t.stop = t.offset + t.text.length → Placed t.stop after ts → Placed offset cs (t :: ts)

namespace Script

open Lexer

variable {offset : Nat} {gap : String} {cs : List Char} {ts : List Token}

theorem collect_placed (h : Cuts (offset + gap.length) cs ts) :
    Placed offset (gap.toList ++ cs) (collect gap ts) := by
  generalize ho : offset + gap.length = start at h
  induction h generalizing offset gap with
  | stop ht =>
    rw [collect, ht]
    exact .nil
  | @token start n cs after t ts hlex htext hcs hoffset hstop _ ih =>
    rw [collect]
    split
    · -- trivia joins the gap of the next token
      have hlength : offset + (gap ++ t.text).length = t.stop := by
        rw [String.length_append, hstop]
        omega
      have := @ih offset (gap ++ t.text) hlength
      rwa [String.toList_append, List.append_assoc, ← hcs] at this
    · rw [if_neg (by simp [kind_ne_eof_of_lexeme? hlex])]
      refine .cons (by rw [hcs, List.append_assoc]) (by rw [hoffset, ho]) (by rw [hstop, hoffset]) ?_
      have := @ih t.stop "" rfl
      rwa [String.toList_empty, List.nil_append] at this

theorem collect_genuine (h : Cuts offset cs ts) : ∀ t ∈ collect gap ts, t.Genuine := by
  induction h generalizing gap with
  | stop ht => simp [collect, ht, TokenKind.isTrivia]
  | token hlex htext hcs hoffset hstop _ ih =>
    rw [collect]
    split
    · exact ih
    · rename_i htrivia
      split
      · exact nofun
      · intro u hu
        rcases List.mem_cons.1 hu with rfl | hu
        · exact ⟨by simpa using htrivia, _, _, hlex, htext⟩
        · exact ih u hu

theorem stop_of_cuts (h : Cuts offset cs ts) :
    ((ts.find? fun t => t.kind == .eof).getD default).kind = .eof := by
  induction h with
  | stop ht => simp [ht]
  | token hlex _ _ _ _ _ ih => simpa [kind_ne_eof_of_lexeme? hlex] using ih

variable {text : String} {s : Script}

/-- The significant tokens of a text and where they stand. -/
theorem ofText_spec (h : ofText text = .ok s) :
    Placed 0 text.toList s.tokens ∧ (∀ t ∈ s.tokens, t.Genuine) ∧ s.stop.kind = .eof := by
  rw [ofText] at h
  split at h
  · cases h
  · rename_i hfault
    cases h
    have hcuts : Cuts 0 text.toList (tokenize text).tokens := scan_cuts hfault
    refine ⟨?_, collect_genuine hcuts, stop_of_cuts hcuts⟩
    have := @collect_placed 0 "" _ _ hcuts
    rwa [String.toList_empty, List.nil_append] at this

end Script

end DoBlocks
