import DoBlocks.Proofs.Accepted
import DoBlocks.Proofs.LoopNests
import DoBlocks.Proofs.Refusals

/-!
# Loop control keeps its target

A `break` or `continue` of a block acts on the same loop in the lowered code. Where that cannot be, because the
loop of a wrapper would come in between, the block is refused, and it is refused over loop control for no other
reason.
-/

namespace DoBlocks

namespace Lowering

/-- The innermost loop around loop control in the code of a block is the lowering of its innermost host loop in
the block, and there is none if the block has none; it is never that of a wrapper. A block is refused over loop
control only if some of it has no host loop between it and the nearest boundary block that owns an escape. -/
theorem loop_control_keeps_its_target (guards : Bool) (sink : Sink) (b : Block) {st : State}
    (hst : st.wrapper = none) :
    (∀ r st', Yields (lower guards sink b) st r st' →
      Follows guards b.nests (Lowered.nestsOf r.statements) ∧
      List.Forall₂ (Follows.SameTarget guards) (Nest.targetsOf none b.nests)
        (Nest.targetsOf none (Lowered.nestsOf r.statements))) ∧
    ∀ word span st', outcome (lower guards sink b) st = (.error (.error ⟨.loopControl word, span⟩), st') →
      ∃ c ∈ b.ownersFrom, ⟨word, span⟩ ∈ c.openControls := by
  refine ⟨fun r st' h => ?_, fun word span st' h => ?_⟩
  · have hplaced := placed_boundary (fun s => placed_lowerBlock guards s b) h
    rw [Result.statements, Lowered.nestsOf_suite]
    exact ⟨hplaced.follows, hplaced.follows.targets .none⟩
  · cases explain_of_lower guards h with
    | control _ hrefused =>
      refine hrefused.resolve_right fun hrefused => hrefused.1 fun hw => ?_
      rw [hst] at hw
      cases hw

/-- Lowering has failed because of the loop control `word`. -/
def refusedAt (word : String) : Except LoweringFailure Result × State → Bool
  | (.error (.error ⟨.loopControl w, _⟩), _) => w == word
  | _ => false

/-- The code of a block with `break` in a loop of an inner block and `continue` in the loop around that block, where
both blocks have escapes; and a block that is refused, because its `break` is in an inner block with an escape. -/
theorem loop_control_keeps_its_target_nested :
    (State.initial ⟨"_lm", 0, []⟩).wrapper = none ∧
    (∃ b r st', Block.parse "do"
        "do \x7b for x in y \x7b do \x7b while p \x7b break \x7d\n ^x \x7d\n continue \x7d\n ^z \x7d"
          = .ok b ∧
      Yields (lower true .returning b) (.initial ⟨"_lm", 0, []⟩) r st' ∧
      (Nest.targetsOf none b.nests).map (·.form) = [.break, .continue] ∧
      List.Forall₂ (Follows.SameTarget true) (Nest.targetsOf none b.nests)
        (Nest.targetsOf none (Lowered.nestsOf r.statements))) ∧
    ∃ b e st', Block.parse "do" "do \x7b for x in y \x7b do \x7b break\n ^x \x7d \x7d \x7d"
        = .ok b ∧
      outcome (lower true .returning b) (.initial ⟨"_lm", 0, []⟩) = (.error (.error ⟨.loopControl "break", e⟩), st') ∧
      ∃ c ∈ b.ownersFrom, ⟨"break", e⟩ ∈ c.openControls := by
  refine ⟨rfl, ?_, ?_⟩
  · obtain ⟨b, hb, htest⟩ := Block.exists_parse_of_reads
      (show Block.reads "do"
        "do \x7b for x in y \x7b do \x7b while p \x7b break \x7d\n ^x \x7d\n continue \x7d\n ^z \x7d"
        (fun b => (Nest.targetsOf none b.nests).map (·.form) == [.break, .continue] &&
          passes (lower true .returning b) (.initial ⟨"_lm", 0, []⟩) fun _ _ => true) = true by decide +kernel)
    obtain ⟨hforms, hlower⟩ := Bool.and_eq_true_iff.1 htest
    obtain ⟨r, st', hy, -⟩ := exists_yields_of_passes hlower
    obtain ⟨htargets, -⟩ := loop_control_keeps_its_target true .returning b
      (rfl : (State.initial ⟨"_lm", 0, []⟩).wrapper = none)
    exact ⟨b, r, st', hb, hy, beq_iff_eq.1 hforms, (htargets r st' hy).2⟩
  · obtain ⟨b, hb, htest⟩ := Block.exists_parse_of_reads
      (show Block.reads "do"
        "do \x7b for x in y \x7b do \x7b break\n ^x \x7d \x7d \x7d"
        (fun b => refusedAt "break" (outcome (lower true .returning b) (.initial ⟨"_lm", 0, []⟩))) = true
        by decide +kernel)
    unfold refusedAt at htest
    split at htest
    · rename_i word e st' hout
      rw [beq_iff_eq.1 htest] at hout
      obtain ⟨-, hrefused⟩ := loop_control_keeps_its_target true .returning b
        (rfl : (State.initial ⟨"_lm", 0, []⟩).wrapper = none)
      exact ⟨b, e, st', hb, hout, hrefused "break" e st' hout⟩
    · cases htest

end Lowering

end DoBlocks
