import DoBlocks.Proofs.Execution

/-!
# Simulation of programs by code

`Simulates m c H Q`: started with the generated names valued as in `H`, the code `c` comes to exactly
the user states that the program `m` comes to, and whenever the two meet, `Q` relates how they ended
and how the generated names are valued then. The relation is closed under the operations that meaning
and execution are built from, so a proof about lowered code follows its structure.
-/

namespace DoBlocks

open Program

variable {σ V E α β γ δ ι : Type}

/-- How a program and its code end together, and the values of the generated names at that end. -/
abbrev Post (V E α β : Type) : Type :=
  Except (Exit V E) α → Except (Exit V Empty) β → Store V → Prop

/-- From the store `H`, code comes to the same user states as a program, with ends related by `Q`. -/
structure Simulates (m : Program σ V E α) (c : Code σ V β) (H : Store V) (Q : Post V E α β) :
    Prop where
  forth : ∀ {s r s'}, m s r s' → ∃ r' H', c (s, H) r' (s', H') ∧ Q r r' H'
  back : ∀ {s r' s' H'}, c (s, H) r' (s', H') → ∃ r, m s r s' ∧ Q r r' H'

namespace Simulates

variable {m : Program σ V E α} {c : Code σ V β} {H : Store V} {Q Q' : Post V E α β}
variable {f : α → Program σ V E γ} {a : Action σ V α} {name : HiddenName} {v : V}

theorem mono (h : Simulates m c H Q) (hQ : ∀ {r r' H'}, Q r r' H' → Q' r r' H') :
    Simulates m c H Q' where
  forth hm := by
    obtain ⟨r', H', hc, hq⟩ := h.forth hm
    exact ⟨r', H', hc, hQ hq⟩
  back hc := by
    obtain ⟨r, hm, hq⟩ := h.back hc
    exact ⟨r, hm, hQ hq⟩

/-- The related ends are ends that the program does come to. -/
theorem reached (h : Simulates m c H Q) :
    Simulates m c H fun r r' H' => Q r r' H' ∧ ∃ s s', m s r s' where
  forth hm := by
    obtain ⟨r', H', hc, hq⟩ := h.forth hm
    exact ⟨r', H', hc, hq, _, _, hm⟩
  back hc := by
    obtain ⟨r, hm, hq⟩ := h.back hc
    exact ⟨r, hm, hq, _, _, hm⟩

/-- Both end at once. -/
theorem atOnce {r : Except (Exit V E) α} {r' : Except (Exit V Empty) β} (h : Q r r' H) :
    Simulates (σ := σ) (fun s x s' => x = r ∧ s' = s) (fun s x s' => x = r' ∧ s' = s) H Q where
  forth := by
    rintro s _ s' ⟨rfl, rfl⟩
    exact ⟨_, _, ⟨rfl, rfl⟩, h⟩
  back := by
    rintro s _ s' H' ⟨rfl, hs⟩
    cases hs
    exact ⟨_, ⟨rfl, rfl⟩, h⟩

protected theorem pure {a : α} {b : β} (h : Q (.ok a) (.ok b) H) :
    Simulates (pure a : Program σ V E α) (pure b : Code σ V β) H Q := atOnce h

theorem leave {x : Exit V E} {y : Exit V Empty} (h : Q (.error x) (.error y) H) :
    Simulates (leave x : Program σ V E α) (leave y : Code σ V β) H Q := atOnce h

theorem bind {Q₂ : Post V E γ δ} {g : β → Code σ V δ} (h : Simulates m c H Q)
    (hf : ∀ r r' H', Q r r' H' → Simulates (resume f r) (resume g r') H' Q₂) :
    Simulates (m >>= f) (c >>= g) H Q₂ where
  forth := by
    rintro s r s' ⟨x, t, hm, hr⟩
    obtain ⟨y, H', hc, hq⟩ := h.forth hm
    obtain ⟨r', H'', hg, hq₂⟩ := (hf x y H' hq).forth hr
    exact ⟨r', H'', ⟨y, (t, H'), hc, hg⟩, hq₂⟩
  back := by
    rintro s r' s' H'' ⟨y, ⟨t, H'⟩, hc, hg⟩
    obtain ⟨x, hm, hq⟩ := h.back hc
    obtain ⟨r, hr, hq₂⟩ := (hf x y H' hq).back hg
    exact ⟨r, ⟨x, t, hm, hr⟩, hq₂⟩

theorem mapEnd {Q₂ : Post V E γ δ} {f : Except (Exit V E) α → Except (Exit V E) γ}
    {g : Except (Exit V Empty) β → Except (Exit V Empty) δ} (h : Simulates m c H Q)
    (hf : ∀ r r' H', Q r r' H' → Q₂ (f r) (g r') H') :
    Simulates (mapEnd f m) (mapEnd g c) H Q₂ where
  forth := by
    rintro s r s' ⟨x, hm, rfl⟩
    obtain ⟨y, H', hc, hq⟩ := h.forth hm
    exact ⟨g y, H', ⟨y, hc, rfl⟩, hf x y H' hq⟩
  back := by
    rintro s r' s' H' ⟨y, hc, rfl⟩
    obtain ⟨x, hm, hq⟩ := h.back hc
    exact ⟨f x, ⟨x, hm, rfl⟩, hf x y H' hq⟩

/-- An action of the host runs as it is. -/
theorem action {Q : Post V E α α} (hok : ∀ x, Q (.ok x) (.ok x) H)
    (hraise : ∀ v, Q (.error (.raise v)) (.error (.raise v)) H) :
    Simulates a.run (onUser a.run) H Q where
  forth := by
    rintro s r s' ⟨x, ha, rfl⟩
    refine ⟨Action.toEnd x, H, ⟨⟨x, ha, rfl⟩, rfl⟩, ?_⟩
    cases x with
    | ok x => exact hok x
    | error v => exact hraise v
  back := by
    rintro s r' s' H' ⟨⟨x, ha, rfl⟩, rfl⟩
    refine ⟨Action.toEnd x, ⟨x, ha, rfl⟩, ?_⟩
    cases x with
    | ok x => exact hok x
    | error v => exact hraise v

/-- After an action of the host, program and code go on with the same result. -/
theorem action_bind {Q : Post V E γ δ} {g : α → Code σ V δ} (h : ∀ x, Simulates (f x) (g x) H Q)
    (hraise : ∀ v, Q (.error (.raise v)) (.error (.raise v)) H) :
    Simulates (a.run >>= f) (onUser a.run >>= g) H Q :=
  have hf (r r' H') (hq : Simulates (resume f r) (resume g r') H' Q) := hq
  (action (Q := fun r r' H' => Simulates (resume f r) (resume g r') H' Q) h
    fun v => leave (hraise v)).bind hf

/-- Code that writes a generated name goes on with the new store. -/
theorem write {c : Unit → Code σ V β} (h : Simulates m (c ()) (H.write name.render v) Q) :
    Simulates m (Program.write name v >>= c) H Q where
  forth hm := by
    obtain ⟨r', H', hc, hq⟩ := h.forth hm
    exact ⟨r', H', ⟨.ok (), _, ⟨rfl, rfl⟩, hc⟩, hq⟩
  back := by
    rintro s r' s' H' ⟨x, t, ⟨rfl, rfl⟩, hc⟩
    exact h.back hc

/-- Code that reads a generated name goes on with its value. -/
theorem read (I : Interpretation σ V ι) {c : V → Code σ V β} (hv : H name.render = some v) (h : Simulates m (c v) H Q) :
    Simulates m (I.read name >>= c) H Q where
  forth hm := by
    obtain ⟨r', H', hc, hq⟩ := h.forth hm
    exact ⟨r', H', ⟨.ok v, _, ⟨rfl, by simp only [hv]⟩, hc⟩, hq⟩
  back := by
    rintro s r' s' H' ⟨x, t, ⟨rfl, rfl⟩, hc⟩
    simp only [hv] at hc
    exact h.back hc

/-! ### Loops -/

/-- How one step of a loop and of its code end together: both go on from the same point, where the
invariant holds, or both are over. -/
inductive StepPost (Inv : Store V → Prop) (Q : Post V E Unit Unit) : Post V E (Option ι) (Option ι)
  | next {i : ι} {H : Store V} : Inv H → StepPost Inv Q (.ok (some i)) (.ok (some i)) H
  | stop {H : Store V} : Q (.ok ()) (.ok ()) H → StepPost Inv Q (.ok none) (.ok none) H
  | leave_stop {x : Exit V E} {H : Store V} :
    Q (.error x) (.ok ()) H → StepPost Inv Q (.error x) (.ok none) H
  | leave {x : Exit V E} {y : Exit V Empty} {H : Store V} :
    Q (.error x) (.error y) H → StepPost Inv Q (.error x) (.error y) H

/-- If every step from the invariant keeps it or ends in `Q`, the loop ends in `Q`. -/
theorem loop {Inv : Store V → Prop} {Q : Post V E Unit Unit}
    {step : ι → Program σ V E (Option ι)} {code : ι → Code σ V (Option ι)}
    (h : ∀ i H, Inv H → Simulates (step i) (code i) H (StepPost Inv Q)) (i : ι) (hH : Inv H) :
    Simulates (loop step i) (loop code i) H Q where
  forth := by
    intro s r s' hl
    induction hl generalizing H with
    | stop hs =>
      obtain ⟨r', H', hc, hq⟩ := (h _ H hH).forth hs
      cases hq with
      | stop hq => exact ⟨_, H', .stop hc, hq⟩
    | next hs _ ih =>
      obtain ⟨r', H', hc, hq⟩ := (h _ H hH).forth hs
      cases hq with
      | next hi =>
        obtain ⟨r', H'', hl, hq⟩ := ih hi
        exact ⟨r', H'', .next hc hl, hq⟩
    | leave hs =>
      obtain ⟨r', H', hc, hq⟩ := (h _ H hH).forth hs
      cases hq with
      | leave_stop hq => exact ⟨_, H', .stop hc, hq⟩
      | leave hq => exact ⟨_, H', .leave hc, hq⟩
  back := by
    intro s r' s' H' hl
    generalize hp : (s, H) = p at hl
    generalize hp' : (s', H') = p' at hl
    induction hl generalizing s H with
    | stop hc =>
      subst hp hp'
      obtain ⟨r, hs, hq⟩ := (h _ H hH).back hc
      cases hq with
      | stop hq => exact ⟨_, .stop hs, hq⟩
      | leave_stop hq => exact ⟨_, .leave hs, hq⟩
    | @next i j _ t _ _ hc _ ih =>
      subst hp hp'
      obtain ⟨t, H'⟩ := t
      obtain ⟨r, hs, hq⟩ := (h _ H hH).back hc
      cases hq with
      | next hi =>
        obtain ⟨r, hl, hq⟩ := ih hi rfl rfl
        exact ⟨r, .next hs hl, hq⟩
    | leave hc =>
      subst hp hp'
      obtain ⟨r, hs, hq⟩ := (h _ H hH).back hc
      cases hq with
      | leave hq => exact ⟨_, .leave hs, hq⟩

end Simulates

end DoBlocks
