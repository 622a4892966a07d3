import DoBlocks.Lowering
import DoBlocks.Proofs.Accepted
import DoBlocks.Proofs.Steps

/-!
# Code at an indentation

What lowered code is made of does not depend on where it is written: it is a sequence of rows, each at its level
of nested suites. At an indentation every row gets that indentation and a unit for each of its levels. A simple
statement or a header is a row, and where its text goes on after a line break inside brackets, it is one more row
at the same level. Lines within strings and after a backslash are not rows: they stay as they are.
-/

namespace DoBlocks

namespace Host

namespace Surface

/-- The text up to the first margin, and the texts after each margin. -/
def stretches : Surface → String × List String
  | [] => ("", [])
  | .text s :: rest => (s ++ (stretches rest).1, (stretches rest).2)
  | .margin :: rest => ("", (stretches rest).1 :: (stretches rest).2)

theorem render_eq_stretches (margin : String) (s : Surface) :
    s.render margin = s.stretches.1 ++ String.join (s.stretches.2.map (margin ++ ·)) := by
  induction s with
  | nil => rfl
  | cons p rest ih =>
    have hcons : Surface.render margin (p :: rest) = pieceText margin p ++ Surface.render margin rest := by
      simp [Surface.render, String.join_cons]
    cases p with
    | text s => rw [hcons, ih, stretches, pieceText, String.append_assoc]
    | margin => rw [hcons, ih, stretches, pieceText, List.map_cons, String.join_cons, String.empty_append,
        String.append_assoc]

def isLineEnd (c : Char) : Bool := c == '\n' || c == '\r'

/-- A line ends with the text. `after` tells whether one ends before it, which counts where the text is empty. -/
def endsLine (after : Bool) (s : String) : Bool := s.toList.getLast?.elim after isLineEnd

theorem endsLine_append (after : Bool) (s t : String) :
    endsLine after (s ++ t) = endsLine (endsLine after s) t := by
  rw [endsLine, String.toList_append, List.getLast?_append]
  cases h : t.toList.getLast? <;> simp [endsLine, h]

/-- Every margin comes right after the end of a line. -/
def EndsLines (after : Bool) : Surface → Prop
  | [] => True
  | .text s :: rest => EndsLines (endsLine after s) rest
  | .margin :: rest => after = true ∧ EndsLines false rest

/-- Margins cut such a surface where lines end. -/
theorem EndsLines.stretches {after : Bool} {s : Surface} (h : s.EndsLines after) :
    endsLine after (s ++ ofString "\n").stretches.1 = true ∧
      ∀ t ∈ (s ++ ofString "\n").stretches.2, endsLine false t = true := by
  induction s generalizing after with
  | nil => exact ⟨rfl, nofun⟩
  | cons p rest ih =>
    cases p with
    | text s =>
      obtain ⟨hfirst, hrest⟩ := ih h
      exact ⟨(endsLine_append after s _).trans hfirst, hrest⟩
    | margin =>
      obtain ⟨hfirst, hrest⟩ := ih h.2
      exact ⟨h.1, List.forall_mem_cons.mpr ⟨hfirst, hrest⟩⟩

end Surface

namespace Lexer

theorem endsLines_pushText {after : Bool} {current : List Char} {s : Surface} :
    (pushText current.reverse s).EndsLines after ↔ s.EndsLines (current.head?.elim after Surface.isLineEnd) := by
  cases current with
  | nil => rfl
  | cons c current => simp [pushText, Surface.EndsLines, Surface.endsLine]

theorem elim_isLineEnd_break {after : Bool} {cs current : List Char} (h : breakLength cs ≠ 0) :
    ((cs.take (breakLength cs)).reverse ++ current).head?.elim after Surface.isLineEnd = true := by
  unfold breakLength at h ⊢
  split at h <;> simp_all [Surface.isLineEnd]

/-- `current` is what was read since the last margin, backwards. -/
theorem gapPieces_endsLines {level usual : List Char} {fuel : Nat} {atStart after : Bool} {current cs : List Char}
    (h : atStart = true → current.head?.elim after Surface.isLineEnd = true) :
    (gapPieces level usual fuel atStart current cs).EndsLines after := by
  induction fuel generalizing atStart after current cs with
  | zero => exact endsLines_pushText.mpr trivial
  | succ fuel ih =>
    unfold gapPieces
    split
    · rename_i hstart
      exact endsLines_pushText.mpr ⟨h (Bool.and_eq_true_iff.mp hstart).1, ih nofun⟩
    · split
      · exact endsLines_pushText.mpr trivial
      · exact ih nofun
      · exact ih nofun
      · dsimp only
        split
        · exact ih nofun
        · rename_i hbreak
          refine ih fun _ => ?_
          split
          · rfl
          · exact elim_isLineEnd_break (by simpa using hbreak)

end Lexer

end Host

/-- A piece of a simple statement or of a header that gets the indentation of its level: its beginning, or what
comes after a margin. -/
structure Row where
  level : Nat
  text : String

/-- The row with a unit for each level. -/
def Row.render (unit : String) (r : Row) : String := String.join (List.replicate r.level unit) ++ r.text

namespace Lowered

def rowsOf (level : Nat) (text : Host.Surface) : List Row :=
  let parts := (text ++ .ofString "\n").stretches
  (parts.1 :: parts.2).map (⟨level, ·⟩)

def catchAllRows (level : Nat) : Option CatchAll → List Row
  | some c =>
    rowsOf level (caseHeader (.ofString c.subject.render) none) ++
      rowsOf (level + 1) (.ofString (c.callee.render ++ "(" ++ c.subject.render ++ ")"))
  | none => []

mutual

/-- The rows of a statement at a level of nested suites. -/
def rows (level : Nat) : Lowered → List Row
  | simple s => rowsOf level s.surface
  | assign targets value => rowsOf level (targets.flatMap Target.surface ++ value.surface)
  | set name value => rowsOf level (.ofString (name.render ++ " = ") ++ value.surface)
  | .return value =>
    rowsOf level (match value with
      | some e => .ofString "return " ++ e.surface
      | none => .ofString "return")
  | evaluate e => rowsOf level e.surface
  | .break => rowsOf level (.ofString "break")
  | pass => rowsOf level (.ofString "pass")
  | branch arms orelse =>
    armRows level true arms ++
      match orelse with
      | some body => rowsOf level (.ofString "else:") ++ allRows (level + 1) body
      | none => []
  | whileLoop test body =>
    rowsOf level (.ofString "while " ++ test.surface ++ .ofString ":") ++ allRows (level + 1) body
  | forLoop target iterable body =>
    rowsOf level (.ofString "for " ++ target ++ .ofString " in " ++ iterable.surface ++ .ofString ":") ++
      allRows (level + 1) body
  | matchOn subject cases catchAll =>
    rowsOf level (.ofString "match " ++ subject.surface ++ .ofString ":") ++
      caseRows (level + 1) cases ++ catchAllRows (level + 1) catchAll

def allRows (level : Nat) : List Lowered → List Row
  | [] => []
  | s :: rest => s.rows level ++ allRows level rest

def armRows (level : Nat) (first : Bool) : List LoweredArm → List Row
  | [] => []
  | .mk test body :: rest =>
    rowsOf level (armWord first ++ test.surface ++ .ofString ":") ++ allRows (level + 1) body ++
      armRows level false rest

def caseRows (level : Nat) : List LoweredCase → List Row
  | [] => []
  | .mk pattern guard body :: rest =>
    rowsOf level (caseHeader pattern.text guard) ++ allRows (level + 1) body ++ caseRows level rest

end

section

variable (base unit : String)

/-- Rows one after another at the indentation `base`. -/
def written (rs : List Row) : String := String.join (rs.map fun r => base ++ r.render unit)

@[simp] theorem written_append (rs rs' : List Row) :
    written base unit (rs ++ rs') = written base unit rs ++ written base unit rs' := by
  simp [written, String.join_append]

/-- The indentation of a level. -/
def marginAt (level : Nat) : String := base ++ String.join (List.replicate level unit)

theorem marginAt_succ (level : Nat) : marginAt base unit level ++ unit = marginAt base unit (level + 1) := by
  rw [marginAt, marginAt, List.replicate_succ', String.join_append, String.append_assoc]
  simp [String.join_cons]

theorem line_eq_written (level : Nat) (text : Host.Surface) :
    line (marginAt base unit level) text = written base unit (rowsOf level text) := by
  have hrender : text.render (marginAt base unit level) ++ "\n" =
      (text ++ Host.Surface.ofString "\n").render (marginAt base unit level) := by
    simp [Host.Surface.render, Host.Surface.ofString, Host.Surface.pieceText, String.join_append, String.join_cons]
  rw [line, String.append_assoc, hrender, Host.Surface.render_eq_stretches]
  simp [written, rowsOf, Row.render, marginAt, String.join_cons, String.append_assoc, Function.comp_def]

theorem catchAllText_eq_written (level : Nat) (catchAll : Option CatchAll) :
    catchAllText unit (marginAt base unit level) catchAll = written base unit (catchAllRows level catchAll) := by
  cases catchAll with
  | none => rfl
  | some c => rw [catchAllText, marginAt_succ, line_eq_written, line_eq_written, catchAllRows, written_append]

mutual

/-- By the recursion of rendering: what a level adds to the margin is one unit. -/
theorem render_eq_written (level : Nat) :
    ∀ s : Lowered, s.render unit (marginAt base unit level) = written base unit (s.rows level)
  | simple _ | assign _ _ | set _ _ | .return (some _) | .return none | evaluate _ | .break | pass => by
    rw [render, rows, line_eq_written]
  | branch arms (some body) => by
    rw [render, rows, renderArms_eq_written level true arms, marginAt_succ, renderAll_eq_written (level + 1) body]
    simp [line_eq_written]
  | branch arms none => by
    rw [render, rows, renderArms_eq_written level true arms]
    simp [written]
  | whileLoop _ body | forLoop _ _ body => by
    rw [render, rows, marginAt_succ, renderAll_eq_written (level + 1) body, line_eq_written, written_append]
  | matchOn subject cases catchAll => by
    rw [render, rows, marginAt_succ, renderCases_eq_written (level + 1) cases, catchAllText_eq_written,
      line_eq_written, written_append, written_append]

theorem renderAll_eq_written (level : Nat) :
    ∀ stmts, renderAll unit (marginAt base unit level) stmts = written base unit (allRows level stmts)
  | [] => by rw [renderAll, allRows]; rfl
  | s :: rest => by
    rw [renderAll, allRows, render_eq_written level s, renderAll_eq_written level rest, written_append]

theorem renderArms_eq_written (level : Nat) (first : Bool) :
    ∀ arms, renderArms unit (marginAt base unit level) first arms = written base unit (armRows level first arms)
  | [] => by rw [renderArms, armRows]; rfl
  | .mk test body :: rest => by
    rw [renderArms, armRows, marginAt_succ, renderAll_eq_written (level + 1) body,
      renderArms_eq_written level false rest, line_eq_written, written_append, written_append]

theorem renderCases_eq_written (level : Nat) :
    ∀ cases, renderCases unit (marginAt base unit level) cases = written base unit (caseRows level cases)
  | [] => by rw [renderCases, caseRows]; rfl
  | .mk pattern guard body :: rest => by
    rw [renderCases, caseRows, marginAt_succ, renderAll_eq_written (level + 1) body,
      renderCases_eq_written level rest, line_eq_written, written_append, written_append]

end

end

end Lowered

end DoBlocks
