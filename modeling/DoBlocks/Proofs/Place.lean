import DoBlocks.Proofs.Freshness
import DoBlocks.Proofs.StepProperties

/-!
# The place of a step

Every step of lowering keeps its place, that is, the wrapper around it and the number of host loops
inside that, and names in use stay in use.
-/

namespace DoBlocks.Lowering

variable {α β : Type}

/-- `st'` comes after `st` at the same place: inside the same wrapper and as many host loops, with
more names in use. -/
structure Extends (st st' : State) : Prop where
  wrapper : st'.wrapper = st.wrapper
  loopDepth : st'.loopDepth = st.loopDepth
  reserved : st.names.reserved ⊆ st'.names.reserved

namespace Extends

theorem refl (st : State) : Extends st st := ⟨rfl, rfl, List.Subset.refl _⟩

theorem trans {a b c : State} (h : Extends a b) (h' : Extends b c) : Extends a c :=
  ⟨h'.wrapper.trans h.wrapper, h'.loopDepth.trans h.loopDepth, List.Subset.trans h.reserved h'.reserved⟩

end Extends

/-- A step that keeps its place whenever it succeeds. -/
def Steady (m : Lower α) : Prop := ∀ ⦃st a st'⦄, Yields m st a st' → Extends st st'

namespace Steady

theorem pure (x : α) : Steady (pure x) := by
  intro st a st' h
  obtain ⟨-, rfl⟩ := Yields.pure_iff.1 h
  exact .refl _

theorem bind {m : Lower α} {f : α → Lower β} (hm : Steady m) (hf : ∀ a, Steady (f a)) :
    Steady (m >>= f) := by
  intro st b st' h
  obtain ⟨a, t, h, h'⟩ := Yields.bind_iff.1 h
  exact (hm h).trans (hf a h')

theorem throw (e : LoweringFailure) : Steady (throw e : Lower α) := fun _ _ _ h =>
  absurd h Yields.not_throw

theorem get : Steady get := by
  intro st a st' h
  obtain ⟨-, rfl⟩ := Yields.get_iff.1 h
  exact .refl _

theorem modify {f : State → State} (h : ∀ st, Extends st (f st)) : Steady (modify f) := by
  intro st a st' hy
  rw [Yields.modify_iff.1 hy]
  exact h st

theorem fresh (role : String) : Steady (fresh role) := by
  intro st a st' h
  obtain ⟨-, rfl⟩ := Yields.fresh_iff.1 h
  exact ⟨rfl, rfl, List.subset_cons_self _ _⟩

theorem record (e : Event) : Steady (record e) := modify fun _ => ⟨rfl, rfl, List.Subset.refl _⟩

theorem withLoop {m : Lower α} (hm : Steady m) : Steady (withLoop m) := by
  intro st a st' h
  obtain ⟨t, hy, rfl⟩ := Yields.withLoop_iff.1 h
  exact ⟨(hm hy).wrapper, rfl, (hm hy).reserved⟩

theorem withWrapper {w : WrapperNames} {m : Lower α} (hm : Steady m) :
    Steady (withWrapper w m) := by
  intro st a st' h
  obtain ⟨t, hy, rfl⟩ := Yields.withWrapper_iff.1 h
  exact ⟨rfl, rfl, (hm hy).reserved⟩

theorem guardCallee : Steady guardCallee := by
  refine get.bind fun st => ?_
  split
  · exact pure _
  · refine (fresh _).bind fun c => bind (modify fun st => ?_) fun _ => pure _
    exact ⟨rfl, rfl, List.Subset.refl _⟩

/-- The names of a new wrapper stay in use. -/
theorem enter {f : WrapperNames → Lower α} (hf : ∀ w, Steady (f w)) :
    Steady (ExceptT.mk fun st => (f st.names.wrapper.1).run st.wrapping : Lower α) := by
  intro st a st' h
  have hy : Extends st.wrapping st' := hf _ h
  refine ⟨hy.wrapper, hy.loopDepth, fun n hn => hy.reserved ?_⟩
  have hnames : st.wrapping.names.reserved = st.names.wrapper.2.reserved := rfl
  rw [hnames, Allocator.reserved_wrapper]
  exact .tail _ (.tail _ hn)

theorem isStepProperty : StepProperty Steady where
  pure := pure
  throw := throw
  bind := bind
  record _ := record _
  fresh _ := fresh _
  guardCallee := guardCallee
  oblige _ := modify fun _ => ⟨rfl, rfl, List.Subset.refl _⟩
  look _ hf := get.bind fun st => hf st.wrapper st.loopDepth
  enter := enter
  withWrapper _ := withWrapper
  withLoop := withLoop

end Steady

end DoBlocks.Lowering
