import DoBlocks.Proofs.Counterparts
import DoBlocks.Proofs.Provenance

/-!
# Generated names next to words

Lifting leaves a generated name where an operand stood. In parentheses an operand may touch the word next
to it, a name may not: `(a and ^b)or c` and `return(a or ^b)` cannot be written without their escapes.
An expression is spaced if that never happens in it. Lowering a block of spaced fragments fails only for
faults of the block, never because the lowered code cannot be written.
-/

namespace DoBlocks

namespace Expr

/-- What lifting leaves of the expression is a generated name. -/
def leavesName : Expr → Bool
  | logical _ _ left _ _ right _ => right.hasEscape && !left.alwaysEscapes
  | conditional opening body ifText test elseText orelse closing =>
    (conditional opening body ifText test elseText orelse closing).hasEscape
  | _ => false

/-- What lifting leaves of the expression begins with a generated name. -/
def beginsWithName : Expr → Bool
  | logical _ opening left _ _ right _ => right.hasEscape || (opening.isEmpty && left.beginsWithName)
  | conditional opening body ifText test elseText orelse closing =>
    (conditional opening body ifText test elseText orelse closing).hasEscape
  | _ => false

/-- No generated name that lifting leaves as a left operand touches the connective after it. -/
def isSpaced : Expr → Bool
  | plain _ _ => true
  | hidden _ => true
  | escape _ _ operand => operand.isSpaced
  | logical _ _ left before _ right _ =>
    left.isSpaced && right.isSpaced && !(before.isEmpty && left.leavesName && !right.hasEscape)
  | conditional _ body _ test _ orelse _ => body.isSpaced && test.isSpaced && orelse.isSpaced

theorem isHidden_eq_false_of_written {e : Expr} (h : e.written = true) : e.isHidden = false := by
  cases e with
  | hidden name => cases h
  | plain text buried => rfl
  | escape text mark operand => rfl
  | logical c opening left before after right closing => rfl
  | conditional opening body ifText test elseText orelse closing => rfl

theorem fitsAfterWord_of_written {e : Expr} (h : e.written = true) : e.fitsAfterWord = true := by
  induction e with
  | plain text buried => rfl
  | hidden name => cases h
  | escape text mark operand ih => rfl
  | logical c opening left before after right closing ihl ihr =>
    rw [written, Bool.and_eq_true] at h
    rw [fitsAfterWord, ihl h.1, Bool.or_true]
  | conditional opening body ifText test elseText orelse closing ihb iht iho => rfl

end Expr

/-- The fragment of a simple statement is spaced, and no generated name touches `return`. -/
def Simple.isSpaced (s : Simple) : Bool :=
  s.value.all Expr.isSpaced &&
    !(Lowering.isTightReturn s && s.value.any fun e => e.beginsWithName && !e.alwaysEscapes)

/-- Fragments that can be written without their escapes. -/
def Sources.spaced : Sources where
  expr e := e.written = true ∧ e.isSpaced = true
  simple s := s.isSpaced = true
  pattern _ := True
  target _ := True
  targets ts := ts ≠ []

/-- Known fragments can be written without their escapes. -/
structure Sources.IsSpaced (F : Sources) : Prop where
  expr {e : Expr} : F.expr e → e.isSpaced = true
  simple {s : Simple} : F.simple s → s.isSpaced = true
  targets {ts : List Target} : F.targets ts → ts ≠ []

theorem Sources.isSpaced_spaced : Sources.spaced.IsSpaced := ⟨And.right, id, id⟩

/-- The sink has a target if it assigns, and its flag is a name. -/
structure Sink.Writable (s : Sink) : Prop where
  targets : ∀ targets, s.destination = .assign targets → targets ≠ []
  flag : ∀ flag ∈ s.exitFlag, flag.isValid = true

theorem Sink.writable_discard : Sink.discard.Writable := ⟨nofun, nofun⟩

theorem Sink.writable_of_known {F : Sources} {s : Sink} (hF : F.IsSpaced) (h : s.Known F) (hw : s.isWritten = true) :
    s.Writable := by
  rw [Sink.isWritten, Bool.and_eq_true, Option.isNone_iff_eq_none] at hw
  refine ⟨fun targets ht => ?_, fun flag hflag => ?_⟩
  · rw [Known, ht] at h
    obtain ⟨name, rfl⟩ | h := h
    · exact List.cons_ne_nil _ _
    · exact hF.targets h
  · rw [hw.1] at hflag
    cases hflag

namespace Lowering

theorem Drawn.forget {ns : List HiddenName} {st : State} (h : Drawn ns st) : Drawn [] st :=
  ⟨h.stem, h.next, List.nodup_nil, nofun, nofun, h.callee⟩

/-- A value cannot be handed to a sink only if the sink cannot be written. -/
theorem deliver_error {sink : Sink} {value : Option Expr} {e : LoweringFailure}
    (h : deliver sink value = .error e) : e = .spelling ∧ ¬ sink.Writable := by
  rw [deliver_eq] at h
  cases hp : placed sink value with
  | error e' =>
    rw [hp] at h
    cases h
    unfold placed at hp
    split at hp
    · rename_i targets htargets
      split at hp
      · cases hp
      · split at hp
        · rename_i hempty
          cases hp
          exact ⟨rfl, fun hs => hs.targets targets htargets (List.isEmpty_iff.1 hempty)⟩
        · cases hp
    · cases hp
    · cases hp
  | ok main =>
    rw [hp] at h
    have h : flagged sink.exitFlag main = .error e := h
    unfold flagged at h
    split at h
    · cases h
    · rename_i name hflag
      split at h
      · cases h
      · split at h
        · cases h
        · rename_i hvalid
          cases h
          exact ⟨rfl, fun hs => hvalid (hs.flag name hflag)⟩

end Lowering

end DoBlocks
