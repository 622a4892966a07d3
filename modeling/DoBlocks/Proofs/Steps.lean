/-!
# Steps that succeed

Lowering and reading are written as steps that keep a state and may fail. `Yields` says what a step has
done when it succeeds; a sequence of steps has succeeded if and only if each of them has.
-/

namespace DoBlocks

variable {ε σ α β : Type}
variable {m : ExceptT ε (StateM σ) α} {f : α → ExceptT ε (StateM σ) β} {st s : σ}

/-- What a step comes to. -/
def outcome (m : ExceptT ε (StateM σ) α) (st : σ) : Except ε α × σ := m.run st

theorem outcome_bind (m : ExceptT ε (StateM σ) α) (f : α → ExceptT ε (StateM σ) β) (st : σ) :
    outcome (m >>= f) st =
      match outcome m st with
      | (.ok a, t) => outcome (f a) t
      | (.error e, t) => (.error e, t) := by
  have h : outcome (m >>= f) st =
      match outcome m st with
      | (x, t) => ExceptT.bindCont f x t := rfl
  rw [h]
  obtain ⟨_ | _, _⟩ := outcome m st <;> rfl

theorem outcome_bind_ok {a : α} (h : outcome m st = (.ok a, s)) : outcome (m >>= f) st = outcome (f a) s := by
  rw [outcome_bind, h]

theorem outcome_bind_error {e : ε} (h : outcome m st = (.error e, s)) : outcome (m >>= f) st = (.error e, s) := by
  rw [outcome_bind, h]

/-- A step succeeds with `a` and leaves `st'`. -/
def Yields (m : ExceptT ε (StateM σ) α) (st : σ) (a : α) (st' : σ) : Prop :=
  outcome m st = (.ok a, st')

namespace Yields

variable {st st' : σ} {a : α} {b : β}
variable {x : α} {m : ExceptT ε (StateM σ) α} {f : α → ExceptT ε (StateM σ) β} {e : ε} {s : σ} {u : PUnit}

theorem pure_iff : Yields (pure x : ExceptT ε (StateM σ) α) st a st' ↔ a = x ∧ st' = st := by
  constructor
  · intro h
    cases h
    exact ⟨rfl, rfl⟩
  · rintro ⟨rfl, rfl⟩
    rfl

theorem bind_iff :
    Yields (m >>= f) st b st' ↔ ∃ a t, Yields m st a t ∧ Yields (f a) t b st' := by
  unfold Yields
  rw [outcome_bind]
  obtain ⟨e | a, t⟩ := outcome m st
  · simp
  · constructor
    · intro h
      exact ⟨a, t, rfl, h⟩
    · rintro ⟨_, _, h, h'⟩
      cases h
      exact h'

theorem bind {t : σ} (h : Yields m st a t) (hf : Yields (f a) t b st') :
    Yields (m >>= f) st b st' := bind_iff.2 ⟨a, t, h, hf⟩

theorem not_throw : ¬ Yields (throw e : ExceptT ε (StateM σ) α) st a st' := by
  intro h
  cases h

theorem get_iff : Yields (get : ExceptT ε (StateM σ) σ) st s st' ↔ s = st ∧ st' = st := by
  constructor
  · intro h
    cases h
    exact ⟨rfl, rfl⟩
  · rintro ⟨rfl, rfl⟩
    rfl

theorem modify_iff {f : σ → σ} :
    Yields (modify f : ExceptT ε (StateM σ) PUnit) st u st' ↔ st' = f st := by
  constructor
  · intro h
    cases h
    rfl
  · rintro rfl
    rfl

theorem set_iff :
    Yields (set s : ExceptT ε (StateM σ) PUnit) st u st' ↔ st' = s := by
  constructor
  · intro h
    cases h
    rfl
  · rintro rfl
    rfl

/-- A step whose result and next state are known can be left out. -/
theorem bind_of_iff (h : ∀ {a t}, Yields m st a t ↔ a = x ∧ t = s) :
    Yields (m >>= f) st b st' ↔ Yields (f x) s b st' := by
  rw [bind_iff]
  constructor
  · rintro ⟨a, t, hm, hf⟩
    obtain ⟨rfl, rfl⟩ := h.1 hm
    exact hf
  · intro hf
    exact ⟨x, s, h.2 ⟨rfl, rfl⟩, hf⟩

theorem get_bind_iff {f : σ → ExceptT ε (StateM σ) β} :
    Yields (get >>= f) st b st' ↔ Yields (f st) st b st' := bind_of_iff get_iff

theorem pure_bind_iff :
    Yields (pure x >>= f) st b st' ↔ Yields (f x) st b st' := bind_of_iff pure_iff

/-- A step that refuses what satisfies `c` has succeeded only where `c` fails. -/
theorem refuse_iff {c : Prop} [Decidable c] {f : Unit → ExceptT ε (StateM σ) α} :
    Yields (if c then throw e >>= f else f ()) st a st' ↔ ¬ c ∧ Yields (f ()) st a st' := by
  split <;> simp_all [not_throw]

/-- As `refuse_iff`, for a fault that depends on a step before it. -/
theorem refuse_after_iff {c : Prop} [Decidable c] {m : ExceptT ε (StateM σ) β} {e : β → ε}
    {f : Unit → ExceptT ε (StateM σ) α} :
    Yields (if c then m >>= fun x => throw (e x) >>= f else f ()) st a st' ↔
      ¬ c ∧ Yields (f ()) st a st' := by
  split <;> simp_all [bind_iff, not_throw]

end Yields

/-- The step succeeds, and its result and the state it leaves pass a test. -/
def passes (m : ExceptT ε (StateM σ) α) (st : σ) (test : α → σ → Bool) : Bool :=
  match outcome m st with
  | (.ok a, st') => test a st'
  | (.error _, _) => false

theorem exists_yields_of_passes {test : α → σ → Bool} (h : passes m st test = true) :
    ∃ a st', Yields m st a st' ∧ test a st' = true := by
  unfold passes at h
  split at h
  · exact ⟨_, _, ‹_›, h⟩
  · cases h

/-- Whatever the step succeeds with satisfies `P`. -/
def Always (m : ExceptT ε (StateM σ) α) (P : α → Prop) : Prop :=
  ∀ ⦃st a st'⦄, Yields m st a st' → P a

namespace Always

variable {P : α → Prop} {Q : β → Prop} {m n : ExceptT ε (StateM σ) α}
  {f : α → ExceptT ε (StateM σ) β}

protected theorem pure {a : α} (h : P a) : Always (pure a : ExceptT ε (StateM σ) α) P := by
  intro st b st' hy
  rwa [(Yields.pure_iff.1 hy).1]

theorem bind (hm : Always m P) (hf : ∀ a, P a → Always (f a) Q) : Always (m >>= f) Q := by
  intro st b st' hy
  obtain ⟨a, t, hy, hy'⟩ := Yields.bind_iff.1 hy
  exact hf a (hm hy) hy'

/-- What comes last decides. -/
theorem after (hf : ∀ a, Always (f a) Q) : Always (m >>= f) Q := by
  intro st b st' hy
  obtain ⟨a, t, -, hy⟩ := Yields.bind_iff.1 hy
  exact hf a hy

theorem ite {c : Prop} [Decidable c] (hm : c → Always m P) (hn : ¬ c → Always n P) :
    Always (if c then m else n) P := by
  split
  · exact hm ‹_›
  · exact hn ‹_›

theorem throw (e : ε) : Always (throw e : ExceptT ε (StateM σ) α) P := by
  intro st a st' hy
  exact absurd hy Yields.not_throw

/-- What would follow a failure does not matter. -/
theorem thrown {e : ε} {f : α → ExceptT ε (StateM σ) β} : Always (MonadExcept.throw e >>= f) Q :=
  bind (P := fun _ => False) (throw e) fun _ h => h.elim

/-- A step that refuses what satisfies `c` and goes on otherwise. -/
theorem refuse {c : Prop} [Decidable c] {e : ε} {f : Unit → ExceptT ε (StateM σ) α}
    (h : Always (f ()) P) : Always (if c then MonadExcept.throw e >>= f else f ()) P :=
  ite (fun _ => thrown) fun _ => h

end Always

end DoBlocks
