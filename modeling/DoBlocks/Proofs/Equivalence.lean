import DoBlocks.Proofs.Accepted
import DoBlocks.Proofs.Preservation

/-!
# Lowering preserves meaning

The lowered code of a block that was read from a text comes to exactly the ends that the block comes to,
for every interpretation of the host leaves and every value the generated names may have at the start.
Inside, escapes are `break`s with a flag up; at the outside nothing of that is left, so the ends are
those of plain statements.
-/

namespace DoBlocks

open Program Lowering

variable {σ V ι : Type}

/-- How a statement of the host ends. -/
inductive Outcome (V : Type) where
  | normal
  | break
  | continue
  | return (v : V)
  | raise (v : V)

/-- The end of a program with a given outcome. -/
def Outcome.toEnd {E : Type} : Outcome V → Except (Exit V E) Unit
  | normal => .ok ()
  | .break => .error .break
  | .continue => .error .continue
  | .return v => .error (.return v)
  | raise v => .error (.raise v)

/-- Code outside any wrapper relies on nothing, and no escape reaches it. -/
def outside (V : Type) : Surroundings V := ⟨fun _ => True, fun _ _ => False, True⟩

theorem fits_outside (I : Interpretation σ V ι) {st : State} (hst : st.wrapper = none) :
    Fits I (outside V) st where
  write _ _ := trivial
  flag_down hw := absurd (hst.symm.trans hw) nofun
  flag_up _ h := h.elim
  escape hw := absurd (hst.symm.trans hw) nofun
  none _ h := h
  free := iff_of_true trivial fun hw => absurd (hst ▸ hw) nofun

/-- Ends outside any wrapper have the same outcome. -/
theorem Ends.exists_outcome {r : Except (Exit V V) Unit} {r' : Except (Exit V Empty) Unit} {H : Store V}
    (h : Ends (outside V) (fun _ _ _ => True) r r' H) :
    ∃ o : Outcome V, r = o.toEnd ∧ r' = o.toEnd := by
  cases h with
  | ok _ => exact ⟨.normal, rfl, rfl⟩
  | «break» _ _ => exact ⟨.break, rfl, rfl⟩
  | «continue» _ _ => exact ⟨.continue, rfl, rfl⟩
  | «return» => exact ⟨.return _, rfl, rfl⟩
  | raise => exact ⟨.raise _, rfl, rfl⟩
  | escape h => exact h.elim

theorem Outcome.toEnd_injective {E : Type} {o o' : Outcome V}
    (h : (o.toEnd : Except (Exit V E) Unit) = o'.toEnd) : o = o' := by
  cases o <;> cases o' <;> cases h <;> rfl

/-- The lowered code of a well-formed block simulates it with its sink. -/
theorem lower_simulates (I : Interpretation σ V ι) {guards : Bool} {b : Block} {sink : Sink}
    {st st' : State} {r : Result} (hw : b.wellFormed guards = true) (hs : sink.exitFlag = none)
    (hst : st.wrapper = none) (h : Yields (lower guards sink b) st r st') (H : Store V) :
    Simulates (I.boundary sink b) (I.execAll r.statements) H (Ends (outside V) fun _ _ _ => True) := by
  rw [Result.statements, I.execAll_suite]
  exact (blockPreserved hw).boundary hw h (fits_outside I hst)
    (.hand hs (fun _ => trivial) fun _ _ _ => trivial) trivial

/-- Code and block reach the same outcomes with the same states of the user, and the block has no other
ends. -/
theorem lower_reaches_iff (I : Interpretation σ V ι) {b : Block} {sink : Sink} {st st' : State}
    {r : Result} (hb : b.Accepted) (hs : sink.exitFlag = none) (hst : st.wrapper = none)
    (h : Yields (lower true sink b) st r st') (u : σ) (H : Store V) :
    (∀ (o : Outcome V) (u' : σ),
      (∃ H', I.execAll r.statements (u, H) o.toEnd (u', H')) ↔ I.boundary sink b u o.toEnd u') ∧
    ∀ x u', I.boundary sink b u x u' → ∃ o : Outcome V, x = o.toEnd := by
  have hsim := lower_simulates I hb.wellFormed hs hst h H
  refine ⟨fun o u' => ⟨?_, fun hm => ?_⟩, fun x u' hm => ?_⟩
  · rintro ⟨H', hc⟩
    obtain ⟨x, hm, hq⟩ := hsim.back hc
    obtain ⟨o', rfl, ho⟩ := hq.exists_outcome
    rwa [Outcome.toEnd_injective ho]
  · obtain ⟨x, H', hc, hq⟩ := hsim.forth hm
    obtain ⟨o', ho, rfl⟩ := hq.exists_outcome
    rw [Outcome.toEnd_injective ho]
    exact ⟨H', hc⟩
  · obtain ⟨x', H', -, hq⟩ := hsim.forth hm
    obtain ⟨o', ho, -⟩ := hq.exists_outcome
    exact ⟨o', ho⟩

/-- A block with an escape out of a loop, one in a fallback arm and one behind a connective. -/
theorem lower_reaches_iff_search :
    ∃ (b : Block) (r : Result) (st' : State),
      Block.parse "do" "do \x7b\n for x in xs \x7b if p(x) \x7b ^x \x7d \x7d\n let [y] match f(xs) else _ => ^0\n y or ^z\n\x7d"
        = .ok b ∧
      Yields (lower true .returning b) (.initial ⟨"hid", 0, ["hid_exit_0"]⟩) r st' ∧
      (∀ (o : Outcome Bool) (n : Nat),
        (∃ H, counting.execAll r.statements (0, .empty) o.toEnd (n, H)) ↔
          counting.boundary .returning b 0 o.toEnd n) ∧
      ∀ x n, counting.boundary .returning b 0 x n → ∃ o : Outcome Bool, x = o.toEnd := by
  obtain ⟨b, hb, hlower⟩ := Block.exists_parse_of_reads (show Block.reads "do"
    "do \x7b\n for x in xs \x7b if p(x) \x7b ^x \x7d \x7d\n let [y] match f(xs) else _ => ^0\n y or ^z\n\x7d"
    (fun b => passes (lower true .returning b) (.initial ⟨"hid", 0, ["hid_exit_0"]⟩) fun _ _ => true) = true
    by decide +kernel)
  obtain ⟨r, st', hy, -⟩ := exists_yields_of_passes hlower
  exact ⟨b, r, st', hb, hy, lower_reaches_iff counting (.inl ⟨_, _, hb⟩) rfl rfl hy 0 .empty⟩

end DoBlocks
