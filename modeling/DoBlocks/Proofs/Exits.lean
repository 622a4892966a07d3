import DoBlocks.Proofs.Accepted
import DoBlocks.Proofs.Accounts
import DoBlocks.Proofs.Refusals

/-!
# Where escapes lead

An escape leaves the wrapper of the nearest boundary block around it, and nothing else: the names it
sets are those that were drawn when that block was lowered, no other wrapper stands in between, and each
host loop in between is followed by a test of the flag. A block without escapes of its own has no wrapper,
and lowering never comes to an escape with no wrapper around it.
-/

namespace DoBlocks

/-- An escape of a block, and the landmarks around it, the nearest first. -/
structure WrittenExit where
  operand : Expr
  around : List Landmark

/-- An escape in sight, and the sights around it, the nearest first. -/
structure SeenExit where
  names : WrapperNames
  value : Expr
  around : List Sight

mutual

/-- The escapes of a landmark that stands inside `around`, without those that are dropped. -/
def Landmark.exits (around : List Landmark) : Landmark → List WrittenExit
  | .exit operand => [⟨operand, around⟩]
  | .openMatch _ _ => []
  | .boundary b inside => exitsOf (.boundary b inside :: around) inside
  | .loop inside => exitsOf (.loop inside :: around) inside
  | .dropped _ => []

def Landmark.exitsOf (around : List Landmark) : List Landmark → List WrittenExit
  | [] => []
  | m :: ms => m.exits around ++ exitsOf around ms

end

mutual

/-- The escapes in a sight that stands inside `around`. -/
def Sight.exits (around : List Sight) : Sight → List SeenExit
  | .exit w value => [⟨w, value, around⟩]
  | .guarded _ _ => []
  | .wrapped w inside => exitsOf (.wrapped w inside :: around) inside
  | .loop next inside => exitsOf (.loop next inside :: around) inside

def Sight.exitsOf (around : List Sight) : List Sight → List SeenExit
  | [] => []
  | s :: ss => s.exits around ++ exitsOf around ss

end

theorem Sight.exitsOf_append (around xs ys : List Sight) :
    exitsOf around (xs ++ ys) = exitsOf around xs ++ exitsOf around ys := by
  induction xs with
  | nil => rfl
  | cons s xs ih =>
    show s.exits around ++ exitsOf around (xs ++ ys) = s.exits around ++ exitsOf around xs ++ exitsOf around ys
    rw [ih, List.append_assoc]

namespace Lowering

/-- The wrapper `w` is the nearest one, and it is that of the nearest boundary block: lowering of that
block has drawn its names and has put the loop around its inside. Host loops in between are left once the
flag is up. -/
def Inside (guards : Bool) (w : WrapperNames) (around : List Landmark) (seen : List Sight) : Prop :=
  ∃ loops b inside outer hosts inside' outer',
    around = loops ++ .boundary b inside :: outer ∧ (∀ m ∈ loops, ∃ inside, m = .loop inside) ∧
    seen = hosts ++ .wrapped w inside' :: outer' ∧
    (∀ s ∈ hosts, ∃ later inside, s = .loop (leaveIf w :: later) inside) ∧
    ∃ sink st r st' before after, Yields (lower guards sink b) st r st' ∧ w = st.names.wrapper.1 ∧
      r.wrapper = some w ∧ Lowered.sightsOf before after r.body = [.wrapped w inside']

/-- The escape in sight is the one that is written: it sets the slot to what is left of the operand, and
leaves the block that it is written in. -/
def LeavesOwnBlock (guards : Bool) (written : WrittenExit) (seen : SeenExit) : Prop :=
  LiftsTo written.operand seen.value ∧ Inside guards seen.names written.around seen.around

variable {guards : Bool}

theorem Inside.loop {w : WrapperNames} {around : List Landmark} {seen : List Sight}
    (h : Inside guards w around seen)
    (inside : List Landmark) (later : List Lowered) (inside' : List Sight) :
    Inside guards w (.loop inside :: around) (.loop (leaveIf w :: later) inside' :: seen) := by
  obtain ⟨loops, b, i, outer, hosts, i', outer', rfl, hloops, rfl, hhosts, hlower⟩ := h
  refine ⟨.loop inside :: loops, b, i, outer, .loop (leaveIf w :: later) inside' :: hosts, i', outer', rfl, ?_,
    rfl, ?_, hlower⟩
  · intro m hm
    rcases List.mem_cons.1 hm with rfl | hm
    · exact ⟨_, rfl⟩
    · exact hloops m hm
  · intro s hs
    rcases List.mem_cons.1 hs with rfl | hs
    · exact ⟨_, _, rfl⟩
    · exact hhosts s hs

/-- The escapes in sight are the escapes that are written, in their order, and each leaves its own block,
if those do that belong to the boundary around. -/
theorem Account.leavesOwnBlock {callee : HiddenName} {w : Option WrapperNames} {ms : List Landmark}
    {ss : List Sight} {os : List Obligation} {ws : List WrapperNames}
    (h : Account guards callee w ms ss os ws) (around : List Landmark) (seen : List Sight)
    (hw : Sight.ownsAny ss = true → ∀ names, w = some names → Inside guards names around seen) :
    List.Forall₂ (LeavesOwnBlock guards) (Landmark.exitsOf around ms) (Sight.exitsOf seen ss) := by
  induction h generalizing around seen with
  | nil => exact .nil
  | exit hv _ ih => exact .cons ⟨hv, hw rfl _ rfl⟩ (ih around seen fun _ => hw rfl)
  | guarded _ ih => exact ih around seen hw
  | @wrapped w w' sink b t t' r before after inside inside' ms ss os os' ws ws' hy hnames hr hs _ _ ihi ih =>
    refine List.rel_append (ihi _ _ fun _ names hsome => ?_) (ih around seen hw)
    cases hsome
    exact ⟨[], b, inside, around, [], inside', seen, rfl, by simp, rfl, by simp, sink, t, r, t', before,
      after, hy, hnames, hr, hs⟩
  | unwrapped _ _ _ _ _ ihi ih =>
    rw [Sight.exitsOf_append]
    refine List.rel_append (ihi _ _ fun _ names hsome => nomatch hsome) (ih around seen fun hown => hw ?_)
    rw [Sight.ownsAny_append, hown, Bool.or_true]
  | @loop w next inside inside' ms ss os os' ws ws' hleft _ _ ihi ih =>
    refine List.rel_append (ihi _ _ fun hown names hsome => ?_) (ih around seen fun hown => hw ?_)
    · obtain ⟨names', later, hsome', rfl⟩ := hleft hown
      cases hsome.symm.trans hsome'
      exact (hw (Bool.or_eq_true_iff.2 (.inl hown)) names hsome).loop inside later inside'
    · exact Bool.or_eq_true_iff.2 (.inr hown)
  | dropped _ _ _ ih => exact ih around seen hw

/-- Every escape in the code of a block is one of those written in it, in their order, and leaves the nearest
boundary block around it. A block without escapes of its own is lowered at its place, with no wrapper, and no
block ever comes to an escape with no wrapper around it. -/
theorem escapes_leave_their_block (guards : Bool) (sink : Sink) (b : Block) (st : State) :
    (∀ r st', Yields (lower guards sink b) st r st' →
      List.Forall₂ (LeavesOwnBlock guards) (Landmark.exitsOf [] [.boundary b (b.landmarks guards)])
        (Sight.exitsOf [] (Lowered.sightsOf [] [] r.statements))) ∧
    (b.containsEscape = false → ∀ r st', Yields (lower guards sink b) st r st' →
      r.wrapper = none ∧ ∃ trace, Yields (lowerBlock guards sink b) { st with trace := trace } r.body st') ∧
    ∀ span st', outcome (lower guards sink b) st ≠ (.error (.error ⟨.strayEscape, span⟩), st') := by
  refine ⟨fun r st' h => ?_, fun hb r st' h => ?_, ?_⟩
  · obtain ⟨os, ws, -, haccount⟩ := written_lower guards h [] []
    obtain ⟨k, hk, -⟩ := st'.exists_calls
    rw [Result.statements, Lowered.sightsOf_suite]
    refine (haccount k hk).leavesOwnBlock [] [] fun hown => ?_
    -- the escapes of a boundary block are its own
    obtain ⟨hown, -⟩ := (haccount k hk).owns hown
    cases hown
  · have hy : Yields (boundary b.containsEscape b.span sink fun s => lowerBlock guards s b) st r st' := h
    rw [hb] at hy
    obtain ⟨trace, hin, hr⟩ := hy.boundary_false_steps
    exact ⟨hr, trace, hin⟩
  · intro span st' h
    cases explain_of_lower guards h with
    | stray hescapes _ => cases hescapes

/-- An escape out of a loop of an inner block, and one out of a loop around that block. -/
theorem escapes_leave_their_block_nested :
    ∃ b r st', Block.parse "do"
        "do \x7b\n for x in xs \x7b y = do \x7b\n while p \x7b ^x \x7d\n z \x7d\n q(y) and ^y \x7d\n 0 \x7d" = .ok b ∧
      Yields (lower true .returning b) (.initial ⟨"_lm", 0, []⟩) r st' ∧
      (Sight.exitsOf [] (Lowered.sightsOf [] [] r.statements)).map (fun e => e.names.exit.render) =
        ["_lm_exit_1", "_lm_exit_0"] ∧
      List.Forall₂ (LeavesOwnBlock true) (Landmark.exitsOf [] [.boundary b (b.landmarks true)])
        (Sight.exitsOf [] (Lowered.sightsOf [] [] r.statements)) := by
  obtain ⟨b, hb, htest⟩ := Block.exists_parse_of_reads
    (show Block.reads "do"
      "do \x7b\n for x in xs \x7b y = do \x7b\n while p \x7b ^x \x7d\n z \x7d\n q(y) and ^y \x7d\n 0 \x7d" (fun b =>
        passes (lower true .returning b) (.initial ⟨"_lm", 0, []⟩) (fun r _ =>
          (Sight.exitsOf [] (Lowered.sightsOf [] [] r.statements)).map (fun e => e.names.exit.render) ==
            ["_lm_exit_1", "_lm_exit_0"])) = true by decide +kernel)
  obtain ⟨r, st', hy, hnames⟩ := exists_yields_of_passes htest
  obtain ⟨hexits, -, -⟩ := escapes_leave_their_block true .returning b (.initial ⟨"_lm", 0, []⟩)
  exact ⟨b, r, st', hb, hy, beq_iff_eq.1 hnames, hexits r st' hy⟩

end Lowering

end DoBlocks
