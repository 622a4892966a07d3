import DoBlocks.Proofs.Expressible
import DoBlocks.Proofs.Spacing
import DoBlocks.Site

/-!
# What can stop the reader

A fault is reported and reading goes on after the site. Three things are no faults and stop everything:
the host refuses a range for how it is written, an escape call in a range has a number that no marker of
the text has, or lowering would put a generated name next to a word. Such a range is an `Obstacle`. The first
two make a range `Unreadable`.
-/

namespace DoBlocks

open BlockReader
open Host (Refusal Tree)

/-! ### Obstacles -/

/-- What the host makes of a range in each of the places where it can stand; its markers count from
`index`. -/
def readings (index : Nat) (ts : List SpacedToken) : List (Except Refusal Tree) :=
  let text := Fragment.text index (Fragment.ofTokens ts)
  let plain := SpacedToken.textOf ts
  [Host.readExpression text, Host.readStatement text,
    Host.readStatement ("match _:\n    case " ++ plain ++ ":\n        pass\n"),
    Host.readStatement ("for " ++ plain ++ " in _: pass"), Host.readStatement (plain ++ " None")]

/-- The host reads the range as the expression `e`; its markers count from `index`. -/
def ExpressionOf (index : Nat) (ts : List SpacedToken) (e : Expr) : Prop :=
  ∃ t, Host.readExpression (Fragment.text index (Fragment.ofTokens ts)) = .ok t ∧ e = t.toExpr

/-- The host reads the range as the simple statement `s`; its markers count from `index`. -/
def SimpleOf (index : Nat) (ts : List SpacedToken) (s : Simple) : Prop :=
  ∃ tree t, Host.readStatement (Fragment.text index (Fragment.ofTokens ts)) = .ok tree ∧
    onlySimple? tree = some t ∧ s = t.toSimple

/-- None of `count` markers has the number of the mark. -/
def Uncounted (count : Nat) (mark : EscapeMark) : Prop := ∀ n, markNumber mark = .ok n → count ≤ n

/-- The number of markers up to the end of a range, if its own count from `index`. -/
def countAfter (index : Nat) (ts : List SpacedToken) : Nat :=
  index + (Fragment.markers (Fragment.ofTokens ts)).length

/-- The range stops the reader, and not with a fault. -/
inductive Unreadable (ts : List SpacedToken) : Prop
  /-- The host refuses the range for how it is written. -/
  | refused {index : Nat} : .error .spelling ∈ readings index ts → Unreadable ts
  /-- An escape call in the range has a number that no marker has. -/
  | expressionMark {index : Nat} {e : Expr} {mark : EscapeMark} :
    ExpressionOf index ts e → mark ∈ e.marks → Uncounted (countAfter index ts) mark → Unreadable ts
  | simpleMark {index : Nat} {s : Simple} {mark : EscapeMark} :
    SimpleOf index ts s → mark ∈ s.marks → Uncounted (countAfter index ts) mark → Unreadable ts

/-- The range stops the expansion of the module that it stands in. -/
inductive Obstacle (ts : List SpacedToken) : Prop
  /-- The host refuses the range for how it is written. -/
  | refused {index : Nat} : .error .spelling ∈ readings index ts → Obstacle ts
  /-- An escape call in the range has a number that no marker has. -/
  | expressionMark {index : Nat} {e : Expr} {mark : EscapeMark} :
    ExpressionOf index ts e → mark ∈ e.marks → Uncounted (countAfter index ts) mark → Obstacle ts
  | simpleMark {index : Nat} {s : Simple} {mark : EscapeMark} :
    SimpleOf index ts s → mark ∈ s.marks → Uncounted (countAfter index ts) mark → Obstacle ts
  /-- Without its escapes the range would have a generated name next to a word. -/
  | tightExpression {index : Nat} {e : Expr} : ExpressionOf index ts e → e.isSpaced = false → Obstacle ts
  | tightSimple {index : Nat} {s : Simple} : SimpleOf index ts s → s.isSpaced = false → Obstacle ts

theorem Unreadable.obstacle {ts : List SpacedToken} (h : Unreadable ts) : Obstacle ts := by
  cases h with
  | refused h => exact .refused h
  | expressionMark he hmark hun => exact .expressionMark he hmark hun
  | simpleMark hs hmark hun => exact .simpleMark hs hmark hun

theorem not_uncounted {count : Nat} {mark : EscapeMark} (h : ¬ Uncounted count mark) :
    ∃ n, markNumber mark = .ok n ∧ n < count := by
  simpa [Uncounted] using h

theorem Simple.misplaced_subset_marks (s : Simple) : s.misplaced ⊆ s.marks := by
  unfold misplaced marks
  refine List.append_subset.2 ⟨List.subset_append_left _ _, List.subset_append_of_subset_right _ ?_⟩
  cases s.value with
  | none => exact List.Subset.refl _
  | some e => exact e.misplaced_subset_marks

namespace BlockReader

variable {st st' : State}

/-! ### The text of a range -/

/-- The host text of a range, with its markers in the table; or a marker has no operand. -/
theorem hostText_cases (ts : List SpacedToken) (st : State) :
    (∃ p markers, outcome (hostText ts) st = (.error (.fault p), { st with markers := markers })) ∨
      outcome (hostText ts) st = (.ok (Fragment.text st.markers.length (Fragment.ofTokens ts)),
        { st with markers := st.markers ++ (Fragment.markers (Fragment.ofTokens ts)).map fun m => m.span }) := by
  have hget : outcome (get : Reader State) st = (.ok st, st) := rfl
  rw [hostText, outcome_bind, hget]
  dsimp only
  split
  · exact .inl ⟨_, _, rfl⟩
  · exact .inr rfl

theorem hostText_text {ts : List SpacedToken} {text : String} (h : Yields (hostText ts) st text st') :
    text = Fragment.text st.markers.length (Fragment.ofTokens ts) := by
  obtain ⟨p, t, hout⟩ | hout := hostText_cases ts st
  · rw [Yields, hout] at h
    cases h
  · rw [Yields, hout] at h
    cases h
    rfl

/-- The host does not touch the table. -/
theorem markers_of_hostTree {r : Except Refusal Tree} {fault : ParseFault} {span : Span} {t : Tree}
    (h : Yields (hostTree r fault span) st t st') : st'.markers = st.markers := by
  rw [hostTree_yields h] at h
  obtain ⟨-, rfl⟩ := Yields.pure_iff.1 h
  rfl

theorem leastMark_lt {marks : List EscapeMark} {count : Nat}
    (h : ∀ mark ∈ marks, ∃ n, markNumber mark = .ok n ∧ n < count) :
    ∃ least, leastMark marks = .ok least ∧ ∀ n ∈ least, n < count := by
  suffices hfold : ∀ least : Option Nat, (∀ n ∈ least, n < count) →
      ∃ least', marks.foldlM (fun least mark => do
        let n ← markNumber mark
        return some (least.elim n (min n))) least = Except.ok (ε := BlockFailure) least' ∧
        ∀ n ∈ least', n < count from hfold none nofun
  induction marks with
  | nil => exact fun least hleast => ⟨least, rfl, hleast⟩
  | cons mark marks ih =>
    intro least hleast
    obtain ⟨n, hn, hlt⟩ := h mark (.head _)
    rw [List.foldlM_cons, hn]
    refine ih (fun m hm => h m (.tail _ hm)) (some (least.elim n (min n))) fun k hk => ?_
    cases hk
    cases least with
    | none => exact hlt
    | some m => exact Nat.lt_of_le_of_lt (Nat.min_le_left n m) hlt

end BlockReader

end DoBlocks
