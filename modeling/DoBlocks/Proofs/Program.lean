/-!
# Programs as relations

A program takes a state to the ends it can come to: it either finishes with a result or is left early
by an `Exit`, and each end has a state. There may be several ends, and a program that runs for ever
has none, so two programs with the same ends reach exactly the same outcomes.

Programs form a monad. `loop` is the least relation that takes steps until one of them stops it;
`mapEnd` renames ends, which is how loops consume `break` and blocks consume escapes.
-/

namespace DoBlocks

/-- How control leaves a program before its end. `E` is what escapes carry; programs without escapes
have `E := Empty`. -/
inductive Exit (V E : Type) where
  | break
  | continue
  | return (v : V)
  | raise (v : V)
  | escape (e : E)

/-- The ends a program can come to from each state. -/
def Program (S V E α : Type) : Type := S → Except (Exit V E) α → S → Prop

namespace Program

variable {S V E E' α β γ ι : Type}
variable {m n : Program S V E α} {s s' : S} {r : Except (Exit V E) α} {x : Exit V E} {f : α → Program S V E β}

@[ext] theorem ext (h : ∀ s r s', m s r s' ↔ n s r s') : m = n := by
  funext s r s'
  exact propext (h s r s')

/-- Leaves early. -/
def leave (x : Exit V E) : Program S V E α := fun s r s' => r = .error x ∧ s' = s

/-- Goes on from an end: after a result with `f`, after an exit not at all. -/
def resume (f : α → Program S V E β) : Except (Exit V E) α → Program S V E β
  | .ok a => f a
  | .error x => leave x

instance : Monad (Program S V E) where
  pure a := fun s r s' => r = .ok a ∧ s' = s
  bind m f := fun s r s' => ∃ x t, m s x t ∧ resume f x t r s'

/-- Renames the ends of a program. -/
def mapEnd (g : Except (Exit V E) α → Except (Exit V E') β) (m : Program S V E α) : Program S V E' β :=
  fun s r s' => ∃ x, m s x s' ∧ r = g x

/-- The runs of a loop: `step` either stops it or hands on what the next step starts from. -/
inductive Loops (step : ι → Program S V E (Option ι)) : ι → Program S V E Unit where
  | stop {i s s'} : step i s (.ok none) s' → Loops step i s (.ok ()) s'
  | next {i j s t r s'} : step i s (.ok (some j)) t → Loops step j t r s' → Loops step i s r s'
  | leave {i s x s'} : step i s (.error x) s' → Loops step i s (.error x) s'

/-- Takes steps from `i` until one of them stops the loop. -/
def loop (step : ι → Program S V E (Option ι)) (i : ι) : Program S V E Unit := Loops step i

/-- What the end of a loop body means for the loop: `break` stops it, and after the end of the body or
`continue` it goes on from `i`. -/
def tripEnd (i : ι) : Except (Exit V E) Unit → Except (Exit V E) (Option ι)
  | .ok () => .ok (some i)
  | .error .continue => .ok (some i)
  | .error .break => .ok none
  | .error x => .error x

/-- What the end of the inside of a block means for the block: an escape hands over its value. -/
def caughtEnd : Except (Exit V V) V → Except (Exit V V) V
  | .error (.escape v) => .ok v
  | r => r

/-- A block that owns the escapes of its inside. -/
def caught (m : Program S V V V) : Program S V V V := mapEnd caughtEnd m

/-! ### Laws -/

theorem pure_iff {a : α} :
    (pure a : Program S V E α) s r s' ↔ r = .ok a ∧ s' = s := Iff.rfl

/-- A result of two programs in a row comes from a result of the first. -/
theorem bind_ok_iff {b : β} :
    (m >>= f) s (.ok b) s' ↔ ∃ a t, m s (.ok a) t ∧ f a t (.ok b) s' := by
  constructor
  · rintro ⟨x, t, hm, hf⟩
    cases x with
    | ok a => exact ⟨a, t, hm, hf⟩
    | error x => exact absurd hf.1 (by simp)
  · rintro ⟨a, t, hm, hf⟩
    exact ⟨.ok a, t, hm, hf⟩

/-- An exit of two programs in a row is one of the first, or one of the second after a result. -/
theorem bind_error_iff :
    (m >>= f) s (.error x) s' ↔
      m s (.error x) s' ∨ ∃ a t, m s (.ok a) t ∧ f a t (.error x) s' := by
  constructor
  · rintro ⟨y, t, hm, hf⟩
    cases y with
    | ok a => exact .inr ⟨a, t, hm, hf⟩
    | error y =>
      obtain ⟨hr, rfl⟩ := hf
      cases hr
      exact .inl hm
  · rintro (hm | ⟨a, t, hm, hf⟩)
    · exact ⟨.error x, s', hm, rfl, rfl⟩
    · exact ⟨.ok a, t, hm, hf⟩

@[simp] theorem leave_bind (x : Exit V E) (f : α → Program S V E β) : leave x >>= f = leave x := by
  ext s r s'
  constructor
  · rintro ⟨y, t, ⟨rfl, rfl⟩, hf⟩
    exact hf
  · intro h
    exact ⟨.error x, s, ⟨rfl, rfl⟩, h⟩

theorem resume_bind (f : α → Program S V E β) (g : β → Program S V E γ) (x : Except (Exit V E) α) :
    resume (fun a => f a >>= g) x = resume f x >>= g := by
  cases x with
  | ok a => rfl
  | error x => exact (leave_bind x g).symm

theorem map_id_eq (m : Program S V E α) : id <$> m = m := by
  ext s r s'
  constructor
  · rintro ⟨x, t, hm, hr⟩
    cases x <;> obtain ⟨rfl, rfl⟩ := hr <;> exact hm
  · intro hm
    cases r <;> exact ⟨_, _, hm, rfl, rfl⟩

theorem pure_bind_eq (a : α) (f : α → Program S V E β) : pure a >>= f = f a := by
  ext s r s'
  constructor
  · rintro ⟨x, t, ⟨rfl, rfl⟩, hf⟩
    exact hf
  · intro hf
    exact ⟨.ok a, s, ⟨rfl, rfl⟩, hf⟩

theorem bind_bind_eq (m : Program S V E α) (f : α → Program S V E β) (g : β → Program S V E γ) :
    m >>= f >>= g = m >>= fun a => f a >>= g := by
  ext s r s'
  constructor
  · rintro ⟨x, t, ⟨y, u, hm, hf⟩, hg⟩
    exact ⟨y, u, hm, by rw [resume_bind]; exact ⟨x, t, hf, hg⟩⟩
  · rintro ⟨y, u, hm, hfg⟩
    rw [resume_bind] at hfg
    obtain ⟨x, t, hf, hg⟩ := hfg
    exact ⟨x, t, ⟨y, u, hm, hf⟩, hg⟩

instance : LawfulMonad (Program S V E) :=
  LawfulMonad.mk' (Program S V E) map_id_eq pure_bind_eq bind_bind_eq

/-- A loop is its first step, and the loop again if that goes on. -/
theorem loop_eq (step : ι → Program S V E (Option ι)) (i : ι) :
    loop step i = step i >>= fun
      | some j => loop step j
      | none => pure () := by
  ext s r s'
  constructor
  · intro h
    cases h with
    | stop h => exact ⟨_, _, h, rfl, rfl⟩
    | next h hl => exact ⟨_, _, h, hl⟩
    | leave h => exact ⟨_, _, h, rfl, rfl⟩
  · rintro ⟨x, t, h, hr⟩
    rcases x with x | _ | j
    · obtain ⟨rfl, rfl⟩ := hr
      exact .leave h
    · obtain ⟨rfl, rfl⟩ := hr
      exact .stop h
    · exact .next h hr

/-! ### Ends that do not occur -/

/-- The program never escapes. -/
def EscapeFree (m : Program S V E α) : Prop := ∀ ⦃s e s'⦄, ¬ m s (.error (.escape e)) s'

theorem caughtEnd_eq_self {r : Except (Exit V V) V} (h : ∀ v, r ≠ .error (.escape v)) :
    caughtEnd r = r := by
  unfold caughtEnd
  split
  · exact absurd rfl (h _)
  · rfl

/-- A block whose inside never escapes is its inside. -/
theorem caught_eq_self {m : Program S V V V} (h : EscapeFree m) : caught m = m := by
  have same {s r s'} (hm : m s r s') : caughtEnd r = r :=
    caughtEnd_eq_self fun v e => h (e ▸ hm)
  ext s r s'
  constructor
  · rintro ⟨x, hm, rfl⟩
    rwa [same hm]
  · intro hm
    exact ⟨r, hm, (same hm).symm⟩

theorem EscapeFree.caught (m : Program S V V V) : EscapeFree (caught m) := by
  rintro s v s' ⟨x, -, hx⟩
  unfold caughtEnd at hx
  split at hx
  · cases hx
  · rename_i h
    exact h v hx.symm

theorem EscapeFree.pure (a : α) : EscapeFree (pure a : Program S V E α) := by
  rintro s e s' ⟨h, -⟩
  cases h

theorem EscapeFree.bind (hm : EscapeFree m) (hf : ∀ a, EscapeFree (f a)) : EscapeFree (m >>= f) := by
  intro s e s' h
  rcases bind_error_iff.1 h with h | ⟨a, t, -, h⟩
  · exact hm h
  · exact hf a h

theorem EscapeFree.ite {c : Prop} [Decidable c] (hm : EscapeFree m) (hn : EscapeFree n) :
    EscapeFree (if c then m else n) := by
  split
  · exact hm
  · exact hn

theorem EscapeFree.mapEnd_tripEnd {m : Program S V E Unit} (hm : EscapeFree m) (i : ι) :
    EscapeFree (mapEnd (tripEnd i) m) := by
  rintro s e s' ⟨x, h, hx⟩
  unfold tripEnd at hx
  split at hx <;> cases hx
  exact hm h

theorem EscapeFree.loop {step : ι → Program S V E (Option ι)} (h : ∀ i, EscapeFree (step i)) (i : ι) :
    EscapeFree (loop step i) := by
  intro s e s' hl
  generalize hr : (Except.error (.escape e) : Except (Exit V E) Unit) = r at hl
  induction hl with
  | stop _ => cases hr
  | next _ _ ih => exact ih hr
  | leave hs =>
    cases hr
    exact h _ hs

end Program

end DoBlocks
