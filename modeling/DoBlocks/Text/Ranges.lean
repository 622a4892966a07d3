/-!
# Character classes as range tables

A class of characters outside ASCII is a list of inclusive code point ranges. The class functions
of the sibling modules decide ASCII characters directly and look only the rest up here. A table is
written as the lengths of its runs.
-/

namespace DoBlocks.Text

/-- The ranges of a class, given by turns how many code points are outside and how many are in it, from
`start` on. -/
def runs (start : Nat) : List Nat → List (Nat × Nat)
  | out :: inside :: rest => (start + out, start + out + inside - 1) :: runs (start + out + inside) rest
  | _ => []

/-- Some inclusive range of `table` holds the code point `n`. -/
def inRanges (table : List (Nat × Nat)) (n : Nat) : Bool :=
  table.any fun r => decide (r.1 ≤ n) && decide (n ≤ r.2)

theorem inRanges_iff {table : List (Nat × Nat)} {n : Nat} :
    inRanges table n = true ↔ ∃ r ∈ table, r.1 ≤ n ∧ n ≤ r.2 := by
  simp [inRanges]

/-- What a test finds of all members of a list is true of each of them. A class of characters is
tested along the list of its members; the type of all characters is too large for that. -/
theorem forall_mem_of_all {α : Type} {P : α → Prop} [DecidablePred P] {l : List α}
    (h : (l.all fun a => decide (P a)) = true) : ∀ a ∈ l, P a := fun a ha =>
  of_decide_eq_true (List.all_eq_true.1 h a ha)

end DoBlocks.Text
