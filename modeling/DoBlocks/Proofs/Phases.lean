import DoBlocks.Proofs.Hygiene
import DoBlocks.Proofs.StepProperties

/-!
# Phases nest

A trace is flat; its phases are read off the parents of its events. Whatever is logged and in whatever
order, each event lies in the phase that was opened last of those still open. A phase ends at most once,
and those opened in it end before it. The trace of an expansion has one phase around all others, and what
lowering notes lies in the phase of that name.
-/

namespace DoBlocks

/-- What can be logged. -/
inductive Logging where
  | start (name detail : String)
  | finish
  | note (e : Event) (isNote : e.isNote = true)

namespace Trace

def log (t : Trace) : Logging → Trace
  | .start name detail => t.startPhase name detail
  | .finish => t.endPhase
  | .note e _ => t.record e

def logAll (t : Trace) (calls : List Logging) : Trace := calls.foldl log t

theorem logAll_append (t : Trace) (xs ys : List Logging) : t.logAll (xs ++ ys) = (t.logAll xs).logAll ys :=
  List.foldl_append

/-! ### Open phases -/

/-- The event of number `p` starts a phase. -/
def StartsAt (rs : List Recorded) (p : Nat) : Prop :=
  ∃ name detail parent, rs[p]? = some ⟨.phaseStart name detail, parent⟩

/-- The event of number `q` ends the phase that `p` starts. -/
def EndsAt (rs : List Recorded) (p q : Nat) : Prop := rs[q]? = some ⟨.phaseEnd, some p⟩

/-- Before the event of number `n` the phase of `p` has started and has not ended. -/
structure OpenAt (rs : List Recorded) (n p : Nat) : Prop where
  before : p < n
  starts : StartsAt rs p
  lasts : ∀ q < n, ¬ EndsAt rs p q

/-- Of the phases open before the event of number `n`, the one of `p` was opened last. -/
structure Innermost (rs : List Recorded) (n p : Nat) : Prop where
  isOpen : OpenAt rs n p
  last : ∀ q, OpenAt rs n q → q ≤ p

/-- Every event lies in the innermost phase that is open when it is recorded, if one is. The end of a phase
lies in the phase it ends. -/
structure Forest (rs : List Recorded) : Prop where
  parent {n : Nat} {r : Recorded} : rs[n]? = some r → ∀ p, r.parent = some p ↔ Innermost rs n p
  ends {n : Nat} {r : Recorded} : rs[n]? = some r → r.event = .phaseEnd → ∃ p, r.parent = some p

variable {rs : List Recorded} {n p q : Nat} {r : Recorded}

theorem StartsAt.lt_length (h : StartsAt rs p) : p < rs.length := by
  obtain ⟨_, _, _, h⟩ := h
  exact (List.getElem?_eq_some_iff.1 h).1

/-- What is recorded later does not change what was open. -/
theorem openAt_append (hn : n ≤ rs.length) (more : List Recorded) :
    OpenAt (rs ++ more) n p ↔ OpenAt rs n p := by
  have hget {k : Nat} (hk : k < n) : (rs ++ more)[k]? = rs[k]? := List.getElem?_append_left (by omega)
  constructor
  · rintro ⟨hp, ⟨name, detail, parent, hstart⟩, hlasts⟩
    exact ⟨hp, ⟨name, detail, parent, hget hp ▸ hstart⟩, fun q hq hend => hlasts q hq ((hget hq).trans hend)⟩
  · rintro ⟨hp, ⟨name, detail, parent, hstart⟩, hlasts⟩
    exact ⟨hp, ⟨name, detail, parent, (hget hp).trans hstart⟩, fun q hq hend => hlasts q hq ((hget hq).symm.trans hend)⟩

theorem innermost_append (hn : n ≤ rs.length) (more : List Recorded) :
    Innermost (rs ++ more) n p ↔ Innermost rs n p := by
  constructor
  · rintro ⟨hopen, hlast⟩
    exact ⟨(openAt_append hn more).1 hopen, fun q hq => hlast q ((openAt_append hn more).2 hq)⟩
  · rintro ⟨hopen, hlast⟩
    exact ⟨(openAt_append hn more).2 hopen, fun q hq => hlast q ((openAt_append hn more).1 hq)⟩

namespace Forest

/-- The end of a phase ends the phase opened last. -/
theorem innermost_of_endsAt (h : Forest rs) (hend : EndsAt rs p q) : Innermost rs q p := (h.parent hend p).1 rfl

theorem endsAt_unique (h : Forest rs) {q' : Nat} (hend : EndsAt rs p q) (hend' : EndsAt rs p q') : q = q' := by
  have hopen := (h.innermost_of_endsAt hend).isOpen
  have hopen' := (h.innermost_of_endsAt hend').isOpen
  rcases Nat.lt_trichotomy q q' with hlt | heq | hlt
  · exact absurd hend (hopen'.lasts q hlt)
  · exact heq
  · exact absurd hend' (hopen.lasts q' hlt)

/-- A phase opened in another ends before it. -/
theorem ends_before (h : Forest rs) {p' : Nat} (hend : EndsAt rs p q) (hstart : StartsAt rs p') (hin : p < p')
    (hbefore : p' < q) : ∃ q' < q, EndsAt rs p' q' := by
  refine Classical.byContradiction fun hnone => ?_
  have hopen : OpenAt rs q p' := ⟨hbefore, hstart, fun q' hq' hend' => hnone ⟨q', hq', hend'⟩⟩
  have := (h.innermost_of_endsAt hend).last p' hopen
  omega

/-- The phases open after one more event: those open before but the one it ends, and the one it starts. -/
theorem openAt_snoc (h : Forest rs) : OpenAt (rs ++ [r]) (rs.length + 1) p ↔
    OpenAt rs rs.length p ∧ r ≠ ⟨.phaseEnd, some p⟩ ∨
      p = rs.length ∧ ∃ name detail, r.event = .phaseStart name detail := by
  have hlast : (rs ++ [r])[rs.length]? = some r := by simp
  constructor
  · rintro ⟨hp, hstart, hlasts⟩
    rcases Nat.lt_succ_iff_lt_or_eq.1 hp with hlt | rfl
    · refine .inl ⟨(openAt_append (Nat.le_refl _) [r]).1 ⟨hlt, hstart, fun q hq => hlasts q (by omega)⟩, ?_⟩
      rintro rfl
      exact hlasts rs.length (by omega) hlast
    · obtain ⟨name, detail, parent, hstart⟩ := hstart
      rw [hlast] at hstart
      cases hstart
      exact .inr ⟨rfl, name, detail, rfl⟩
  · rintro (⟨hopen, hne⟩ | ⟨rfl, name, detail, hstart⟩)
    · obtain ⟨hp, hstart, hlasts⟩ := (openAt_append (Nat.le_refl _) [r]).2 hopen
      refine ⟨by omega, hstart, fun q hq hend => ?_⟩
      rcases Nat.lt_succ_iff_lt_or_eq.1 hq with hlt | rfl
      · exact hlasts q hlt hend
      · exact hne (Option.some.inj (hlast.symm.trans hend))
    · refine ⟨by omega, ⟨name, detail, r.parent, hlast.trans (hstart ▸ rfl)⟩, fun q hq hend => ?_⟩
      rcases Nat.lt_succ_iff_lt_or_eq.1 hq with hlt | rfl
      · -- a phase ends after its start
        have hend' : EndsAt rs rs.length q := (List.getElem?_append_left hlt).symm.trans hend
        have := (h.innermost_of_endsAt hend').isOpen.before
        omega
      · rw [Option.some.inj (hlast.symm.trans hend)] at hstart
        cases hstart

end Forest

/-! ### Logging -/

/-- The events are a forest, and the phases are the open ones, the one opened last first. -/
structure Nested (t : Trace) : Prop where
  forest : Forest t.events
  phases (p : Nat) : p ∈ t.phases ↔ OpenAt t.events t.events.length p
  sorted : t.phases.Pairwise (· > ·)

namespace Nested

variable {t : Trace}

theorem empty : Nested .empty where
  forest := ⟨nofun, nofun⟩
  phases _ := ⟨nofun, fun h => absurd h.before (Nat.not_lt_zero _)⟩
  sorted := .nil

theorem head?_eq_some_iff (h : Nested t) : t.phases.head? = some p ↔ Innermost t.events t.events.length p := by
  have hsorted := h.sorted
  have hmem := h.phases
  cases hphases : t.phases with
  | nil =>
    rw [hphases] at hmem
    exact ⟨nofun, fun hin => absurd ((hmem p).2 hin.isOpen) List.not_mem_nil⟩
  | cons first outer =>
    rw [hphases] at hmem hsorted
    have hin : Innermost t.events t.events.length first := by
      refine ⟨(hmem first).1 (.head _), fun q hq => ?_⟩
      rcases List.mem_cons.1 ((hmem q).2 hq) with rfl | hq
      · exact Nat.le_refl _
      · exact Nat.le_of_lt (List.rel_of_pairwise_cons hsorted hq)
    constructor
    · rintro heq
      cases heq
      exact hin
    · intro hp
      rw [List.head?_cons, Nat.le_antisymm (hp.last first hin.isOpen) (hin.last p hp.isOpen)]

/-- An event in the innermost open phase goes with the others. -/
theorem forest_snoc (h : Nested t) (hparent : r.parent = t.phases.head?)
    (hends : r.event = .phaseEnd → ∃ p, r.parent = some p) : Forest (t.events ++ [r]) := by
  have hcases {n : Nat} {r' : Recorded} (hget : (t.events ++ [r])[n]? = some r') :
      n < t.events.length ∧ t.events[n]? = some r' ∨ n = t.events.length ∧ r' = r := by
    rcases Nat.lt_trichotomy n t.events.length with hlt | rfl | hlt
    · rw [List.getElem?_append_left hlt] at hget
      exact .inl ⟨hlt, hget⟩
    · exact .inr ⟨rfl, by simpa using hget.symm⟩
    · rw [List.getElem?_eq_none (by simp; omega)] at hget
      cases hget
  constructor
  · intro n r' hget p
    rcases hcases hget with ⟨hlt, hget⟩ | ⟨rfl, rfl⟩
    · rw [innermost_append (Nat.le_of_lt hlt), h.forest.parent hget]
    · rw [innermost_append (Nat.le_refl _), hparent, h.head?_eq_some_iff]
  · intro n r' hget hend
    rcases hcases hget with ⟨-, hget⟩ | ⟨-, rfl⟩
    · exact h.forest.ends hget hend
    · exact hends hend

theorem record (h : Nested t) {e : Event} (he : e.isNote = true) : Nested (t.record e) where
  forest := h.forest_snoc rfl (by rintro rfl; cases he)
  phases p := by
    rw [Trace.record, List.length_append, List.length_singleton, h.forest.openAt_snoc, h.phases]
    constructor
    · intro hopen
      refine .inl ⟨hopen, fun heq => ?_⟩
      obtain rfl : e = .phaseEnd := congrArg Recorded.event heq
      cases he
    · rintro (⟨hopen, -⟩ | ⟨-, name, detail, rfl⟩)
      · exact hopen
      · cases he
  sorted := h.sorted

theorem startPhase (h : Nested t) (name detail : String) : Nested (t.startPhase name detail) where
  forest := h.forest_snoc rfl nofun
  phases p := by
    rw [Trace.startPhase, Trace.record, List.length_append, List.length_singleton, h.forest.openAt_snoc,
      List.mem_cons, h.phases]
    constructor
    · rintro (rfl | hopen)
      · exact .inr ⟨rfl, name, detail, rfl⟩
      · exact .inl ⟨hopen, nofun⟩
    · rintro (⟨hopen, -⟩ | ⟨rfl, -⟩)
      · exact .inr hopen
      · exact .inl rfl
  sorted := .cons (fun p hp => ((h.phases p).1 hp).before) h.sorted

theorem endPhase (h : Nested t) : Nested t.endPhase := by
  unfold Trace.endPhase
  have hsorted := h.sorted
  have hmem := h.phases
  split
  · rename_i first outer hphases
    rw [hphases] at hmem hsorted
    refine ⟨h.forest_snoc (by rw [hphases]; rfl) fun _ => ⟨first, rfl⟩, fun p => ?_, hsorted.of_cons⟩
    rw [List.length_append, List.length_singleton, h.forest.openAt_snoc, ← hmem]
    constructor
    · intro hp
      have hlt : first > p := List.rel_of_pairwise_cons hsorted hp
      refine .inl ⟨.tail _ hp, fun heq => ?_⟩
      cases heq
      omega
    · rintro (⟨hp, hne⟩ | ⟨-, _, _, heq⟩)
      · rcases List.mem_cons.1 hp with rfl | hp
        · exact absurd rfl hne
        · exact hp
      · cases heq
  · exact h

/-- With no phase open, every phase has ended. -/
theorem closed (h : Nested t) (hphases : t.phases = []) (hstart : StartsAt t.events p) :
    ∃ q, EndsAt t.events p q := by
  refine Classical.byContradiction fun hnone => ?_
  have hopen : OpenAt t.events t.events.length p := ⟨hstart.lt_length, hstart, fun q _ hq => hnone ⟨q, hq⟩⟩
  rw [← h.phases, hphases] at hopen
  cases hopen

theorem log (h : Nested t) : ∀ c, Nested (t.log c)
  | .start name detail => h.startPhase name detail
  | .finish => h.endPhase
  | .note _ he => h.record he

theorem logAll (h : Nested t) (calls : List Logging) : Nested (t.logAll calls) := by
  induction calls generalizing t with
  | nil => exact h
  | cons c rest ih => exact ih (h.log c)

end Nested

end Trace

/-! ### What lowering notes -/

/-- No phase starts or ends. -/
def AreNotes (calls : List Logging) : Prop := ∀ c ∈ calls, ∃ e h, c = .note e h

theorem AreNotes.append {xs ys : List Logging} (hx : AreNotes xs) (hy : AreNotes ys) : AreNotes (xs ++ ys) :=
  List.forall_mem_append.2 ⟨hx, hy⟩

theorem AreNotes.singleton {e : Event} (h : e.isNote = true) : AreNotes [.note e h] := by
  intro c hc
  obtain rfl := List.mem_singleton.1 hc
  exact ⟨e, h, rfl⟩

/-- Notes lie in the innermost open phase and leave it open. -/
theorem AreNotes.logAll_eq {calls : List Logging} (h : AreNotes calls) (t : Trace) :
    ∃ es : List Event, t.logAll calls = ⟨t.events ++ es.map (⟨·, t.phases.head?⟩), t.phases⟩ := by
  induction calls generalizing t with
  | nil => exact ⟨[], by simp [Trace.logAll]⟩
  | cons c rest ih =>
    obtain ⟨⟨e, he, rfl⟩, hrest⟩ := List.forall_mem_cons.1 h
    obtain ⟨es, htrace⟩ := ih hrest (t.record e)
    refine ⟨e :: es, htrace.trans ?_⟩
    simp [Trace.record]

namespace Lowering

/-- Whatever the step comes to, it has added notes to the trace and nothing else. -/
def Notes {α : Type} (m : Lower α) : Prop :=
  ∀ st, ∃ calls, AreNotes calls ∧ (outcome m st).2.trace = st.trace.logAll calls

namespace Notes

variable {α β : Type}

/-- A step that leaves the trace alone. -/
theorem of_trace {m : Lower α} (h : ∀ st, (outcome m st).2.trace = st.trace) : Notes m :=
  fun st => ⟨[], nofun, h st⟩

theorem bind {m : Lower α} {f : α → Lower β} (hm : Notes m) (hf : ∀ a, Notes (f a)) : Notes (m >>= f) := by
  intro st
  obtain ⟨xs, hxs, htrace⟩ := hm st
  rw [outcome_bind]
  generalize outcome m st = r at htrace ⊢
  obtain ⟨_ | a, t⟩ := r
  · exact ⟨xs, hxs, htrace⟩
  · obtain ⟨ys, hys, htrace'⟩ := hf a t
    refine ⟨xs ++ ys, hxs.append hys, htrace'.trans ?_⟩
    rw [Trace.logAll_append, ← htrace]

theorem isStepProperty : StepProperty Notes where
  pure _ := of_trace fun _ => rfl
  throw _ := of_trace fun _ => rfl
  bind := bind
  record he _ := ⟨_, .singleton he, rfl⟩
  fresh _ := of_trace fun _ => rfl
  guardCallee := of_trace fun st => by
    obtain ⟨⟨names, hstate⟩, -⟩ := st.calling_spec
    rw [outcome_guardCallee, hstate]
  oblige _ := of_trace fun _ => rfl
  look _ hf := fun st => hf st.wrapper st.loopDepth st
  enter hf := fun st => hf st.names.wrapper.1 st.wrapping
  withWrapper w hm := fun st => hm { st with wrapper := some w, loopDepth := 0 }
  withLoop hm := fun st => hm { st with loopDepth := st.loopDepth + 1 }

theorem lowerSite (guards : Bool) (sink : Sink) (b : Block) : Notes (lowerSite guards sink b) := by
  intro st
  obtain ⟨calls, hcalls, htrace⟩ := isStepProperty.lower guards b st
  refine ⟨calls, hcalls, ?_⟩
  rw [outcome_lowerSite, ← htrace]
  unfold settle
  split
  · rename_i hout
    rw [hout]
  · rfl

end Notes

end Lowering

/-! ### The phases of an expansion -/

namespace Expansion

/-- Where the step succeeds, it has logged what satisfies `P`. -/
def Logs {α : Type} (m : Expand α) (P : List Logging → Prop) : Prop :=
  ∀ ⦃st a st'⦄, Yields m st a st' → ∃ calls, P calls ∧ st'.trace = st.trace.logAll calls

/-- A phase with what is logged in it. -/
def around (name detail : String) (inside : List Logging) : List Logging :=
  .start name detail :: inside ++ [.finish]

/-- The module is checked, or it is not since there are reports. -/
def Checks (calls : List Logging) : Prop := calls = [] ∨ calls = around "Host Check" "compile() and mypy" []

/-- What is logged of a module that can be cut into tokens. -/
def Stages (calls : List Logging) : Prop :=
  ∃ detail notes checks, AreNotes notes ∧ Checks checks ∧
    calls = around "Locate" "Parsing invocation sites" [] ++ around "Lower" detail notes ++ checks

/-- What is logged of a module. -/
def Pipeline (filename : String) (calls : List Logging) : Prop :=
  ∃ stages, (stages = [] ∨ Stages stages) ∧
    calls = around "Expansion Pipeline" filename (around "Tokenize" "Lexing module" [] ++ stages)

namespace Logs

variable {α β : Type} {m n : Expand α} {f : α → Expand β} {P Q R : List Logging → Prop}

theorem of_trace (h : ∀ ⦃st a st'⦄, Yields m st a st' → st'.trace = st.trace) : Logs m (· = []) :=
  fun _ _ _ hy => ⟨[], rfl, h hy⟩

theorem pure (a : α) : Logs (Pure.pure a) (· = []) := of_trace fun _ _ _ hy => by rw [(Yields.pure_iff.1 hy).2]

theorem throw (e : ExpansionFailure) : Logs (throw e : Expand α) P := fun _ _ _ hy => absurd hy Yields.not_throw

theorem mono (h : Logs m P) (hPQ : ∀ calls, P calls → Q calls) : Logs m Q := by
  intro st a st' hy
  obtain ⟨calls, hcalls, htrace⟩ := h hy
  exact ⟨calls, hPQ calls hcalls, htrace⟩

/-- What two steps log one after the other. -/
theorem bind (hm : Logs m P) (hf : ∀ a, Logs (f a) Q) (hR : ∀ xs ys, P xs → Q ys → R (xs ++ ys)) :
    Logs (m >>= f) R := by
  intro st b st' hy
  obtain ⟨a, t, hy, hy'⟩ := Yields.bind_iff.1 hy
  obtain ⟨xs, hxs, htrace⟩ := hm hy
  obtain ⟨ys, hys, htrace'⟩ := hf a hy'
  exact ⟨xs ++ ys, hR xs ys hxs hys, by rw [Trace.logAll_append, ← htrace, htrace']⟩

/-- A step that logs nothing and one after it. -/
theorem after (hm : Logs m (· = [])) (hf : ∀ a, Logs (f a) Q) : Logs (m >>= f) Q :=
  hm.bind hf fun _ _ hxs hys => by rwa [hxs]

/-- A step and one after it that logs nothing. -/
theorem before (hm : Logs m P) (hf : ∀ a, Logs (f a) (· = [])) : Logs (m >>= f) P :=
  hm.bind hf fun _ _ hxs hys => by rwa [hys, List.append_nil]

theorem modify {g : Lowering.State → Lowering.State} (h : ∀ st, (g st).trace = st.trace) :
    Logs (modify g : Expand PUnit) (· = []) :=
  of_trace fun st _ _ hy => by rw [Yields.modify_iff.1 hy, h st]

theorem get : Logs (get : Expand Lowering.State) (· = []) :=
  of_trace fun _ _ _ hy => by rw [(Yields.get_iff.1 hy).2]

theorem phase {name detail : String} (hm : Logs m P) :
    Logs (phase name detail m) fun calls => ∃ inside, P inside ∧ calls = around name detail inside := by
  intro st a st' hy
  obtain ⟨_, s₁, hstart, hy⟩ := Yields.bind_iff.1 hy
  obtain rfl := Yields.modify_iff.1 hstart
  obtain ⟨b, s₂, hstep, hy⟩ := Yields.bind_iff.1 hy
  obtain ⟨_, s₃, hend, hy⟩ := Yields.bind_iff.1 hy
  obtain rfl := Yields.modify_iff.1 hend
  obtain ⟨rfl, rfl⟩ := Yields.pure_iff.1 hy
  obtain ⟨inside, hinside, htrace⟩ := hm hstep
  refine ⟨_, ⟨inside, hinside, rfl⟩, ?_⟩
  rw [around, Trace.logAll_append]
  exact congrArg Trace.endPhase htrace

variable {settings : Settings} {filename code : String} {check : ModuleCheck}

/-- A site is lowered with notes only, whether that fails or not. -/
theorem lowerSite (s : Site) : Logs (lowerSite settings s) AreNotes := by
  intro st a st' hy
  unfold Expansion.lowerSite at hy
  split at hy
  · obtain ⟨-, rfl⟩ := Yields.pure_iff.1 hy
    exact ⟨[], nofun, rfl⟩
  · rename_i sink block _
    rw [Yields.get_bind_iff] at hy
    obtain ⟨calls, hcalls, htrace⟩ := Lowering.Notes.lowerSite settings.emitGuard sink block st
    refine ⟨calls, hcalls, ?_⟩
    rw [← htrace]
    split at hy
    · rename_i hout
      obtain ⟨_, s₁, hset, hy⟩ := Yields.bind_iff.1 hy
      obtain ⟨-, rfl⟩ := Yields.pure_iff.1 hy
      rw [Yields.set_iff.1 hset, outcome, hout]
    · obtain ⟨_, s₁, -, hy⟩ := Yields.bind_iff.1 hy
      exact absurd hy Yields.not_throw
    · rename_i hout
      obtain ⟨_, s₁, hset, hy⟩ := Yields.bind_iff.1 hy
      split at hy
      · obtain ⟨-, rfl⟩ := Yields.pure_iff.1 hy
        rw [Yields.set_iff.1 hset, outcome, hout]
      · exact absurd hy Yields.not_throw

theorem lowerSites (cs : List Char) (sites : List Site) : Logs (lowerSites settings filename cs sites) AreNotes := by
  induction sites with
  | nil =>
    refine (pure _).mono ?_
    rintro _ rfl
    exact nofun
  | cons s rest ih =>
    refine (lowerSite s).bind (Q := AreNotes) (fun r => ?_) fun _ _ hx hy => hx.append hy
    cases r with
    | ok text => exact (pure _).after fun _ => ih.before fun _ => pure _
    | error e =>
      refine Logs.bind (P := AreNotes) (Q := AreNotes) ?_ (fun _ => (pure _).after fun _ => ih.before fun _ => pure _)
        fun _ _ hx hy => hx.append hy
      intro st a st' hy
      rw [Yields.modify_iff.1 hy]
      exact ⟨_, .singleton (e := .warning _) rfl, rfl⟩

theorem lowerModule {tokens : List Token} : Logs (lowerModule settings filename code tokens) fun calls =>
    ∃ detail notes, AreNotes notes ∧
      calls = around "Locate" "Parsing invocation sites" [] ++ around "Lower" detail notes := by
  unfold Expansion.lowerModule
  refine Logs.bind (Logs.phase (P := (· = [])) ?_)
    (Q := fun calls => ∃ detail notes, AreNotes notes ∧ calls = around "Lower" detail notes) (fun sites => ?_) ?_
  · split
    · exact pure _
    · exact throw _
  · refine ((lowerSites _ sites).phase.before fun _ => pure _).mono ?_
    rintro _ ⟨notes, hnotes, rfl⟩
    exact ⟨_, notes, hnotes, rfl⟩
  · rintro _ _ ⟨_, rfl, rfl⟩ ⟨detail, notes, hnotes, rfl⟩
    exact ⟨detail, notes, hnotes, rfl⟩

theorem addGuardImport : Logs (addGuardImport filename code) (· = []) := by
  refine get.after fun st => ?_
  dsimp only
  split
  · exact pure _
  · split
    · exact pure _
    · exact pure _
    · exact throw _

theorem conclude {expanded : String} {obligations : List Obligation} {sites : List Site}
    {reports : List Diagnostic} : Logs (conclude check filename expanded obligations sites reports) Checks := by
  unfold Expansion.conclude
  dsimp only
  split
  · refine Logs.before ((Logs.phase (get.after fun st => pure _)).mono ?_) fun o => get.after fun st => pure _
    rintro _ ⟨_, rfl, rfl⟩
    exact .inr rfl
  · exact ((pure _).after fun o => get.after fun st => pure _).mono fun _ => .inl

theorem expandTokens {tokens : List Token} : Logs (expandTokens settings check filename code tokens) Stages := by
  refine lowerModule.bind (Q := Checks) (fun r => get.after fun st => ?_) ?_
  · dsimp only
    split
    · exact (pure _).after fun p => conclude
    · exact addGuardImport.after fun p => conclude
  · rintro _ checks ⟨detail, notes, hnotes, rfl⟩ hchecks
    exact ⟨detail, notes, checks, hnotes, hchecks, rfl⟩

theorem expand : Logs (expand settings check filename code) (Pipeline filename) := by
  refine Logs.before (Logs.phase (P := fun calls => ∃ stages, (stages = [] ∨ Stages stages) ∧
    calls = around "Tokenize" "Lexing module" [] ++ stages) ?_ |>.mono ?_) fun e => get.after fun st => pure _
  · refine Logs.bind (Logs.phase (P := (· = [])) ?_) (Q := fun calls => calls = [] ∨ Stages calls) (fun readable => ?_) ?_
    · split
      · refine Logs.after (modify ?_) fun _ => pure _
        exact fun _ => rfl
      · exact pure _
    · split
      · exact (pure _).mono fun _ => .inl
      · exact expandTokens.mono fun _ => .inr
    · rintro _ stages ⟨_, rfl, rfl⟩ hstages
      exact ⟨stages, hstages, rfl⟩
  · rintro _ ⟨_, ⟨stages, hstages, rfl⟩, rfl⟩
    exact ⟨stages, hstages, rfl⟩

end Logs

/-! ### The trace of an expansion -/

/-- What is noted in a phase lies in it, and the phases outside stay open. -/
theorem logAll_around (t : Trace) (name detail : String) {notes : List Logging} (h : AreNotes notes) :
    ∃ es : List Event, t.logAll (around name detail notes) =
      ⟨t.events ++ ⟨.phaseStart name detail, t.phases.head?⟩ :: es.map (⟨·, some t.events.length⟩) ++
        [⟨.phaseEnd, some t.events.length⟩], t.phases⟩ := by
  obtain ⟨es, hes⟩ := h.logAll_eq (t.startPhase name detail)
  refine ⟨es, ?_⟩
  rw [around, Trace.logAll_append, show Trace.logAll t (.start name detail :: notes) = _ from hes]
  simp [Trace.logAll, Trace.log, Trace.endPhase, Trace.startPhase, Trace.record]

theorem logAll_around_nil (t : Trace) (name detail : String) : t.logAll (around name detail []) =
    ⟨t.events ++ [⟨.phaseStart name detail, t.phases.head?⟩, ⟨.phaseEnd, some t.events.length⟩], t.phases⟩ := by
  simp [around, Trace.logAll, Trace.log, Trace.endPhase, Trace.startPhase, Trace.record]

/-- Every phase ends, the first one holds all others, and all notes lie in the phase of lowering. -/
structure Rooted (filename : String) (rs : List Recorded) : Prop where
  closed {p : Nat} : Trace.StartsAt rs p → ∃ q, Trace.EndsAt rs p q
  root : rs.head? = some ⟨.phaseStart "Expansion Pipeline" filename, none⟩
  within : ∀ r ∈ rs.tail, r.parent ≠ none
  notes : ∃ lower, ∀ r ∈ rs, r.event.isNote = true → r.parent = some lower ∧
    ∃ detail, rs[lower]? = some ⟨.phaseStart "Lower" detail, some 0⟩

/-- The trace once a module has been cut into tokens. -/
def tokenized (filename : String) : Trace :=
  ⟨[⟨.phaseStart "Expansion Pipeline" filename, none⟩, ⟨.phaseStart "Tokenize" "Lexing module", some 0⟩,
    ⟨.phaseEnd, some 1⟩], [0]⟩

theorem logAll_pipeline (filename : String) (stages : List Logging) :
    Trace.empty.logAll (around "Expansion Pipeline" filename (around "Tokenize" "Lexing module" [] ++ stages)) =
      ((tokenized filename).logAll stages).endPhase := by
  rw [around, Trace.logAll_append, ← List.cons_append, Trace.logAll_append]
  rfl

theorem Stages.logAll_eq {filename : String} {stages : List Logging} (h : Stages stages) :
    ∃ (detail : String) (es : List Event) (after : List Recorded),
      (∀ r ∈ after, r.parent ≠ none ∧ r.event.isNote = false) ∧
      (tokenized filename).logAll stages = ⟨(tokenized filename).events ++
        [⟨.phaseStart "Locate" "Parsing invocation sites", some 0⟩, ⟨.phaseEnd, some 3⟩,
          ⟨.phaseStart "Lower" detail, some 0⟩] ++ es.map (⟨·, some 5⟩) ++ after, [0]⟩ := by
  obtain ⟨detail, notes, checks, hnotes, hchecks, rfl⟩ := h
  rw [Trace.logAll_append, Trace.logAll_append, logAll_around_nil]
  obtain ⟨es, hes⟩ := logAll_around ⟨(tokenized filename).events ++
    [⟨.phaseStart "Locate" "Parsing invocation sites", some 0⟩, ⟨.phaseEnd, some 3⟩], [0]⟩ "Lower" detail hnotes
  refine ⟨detail, es, ?_⟩
  rcases hchecks with rfl | rfl
  · refine ⟨[⟨.phaseEnd, some 5⟩], by simp [Event.isNote], hes.trans ?_⟩
    simp [tokenized]
  · refine ⟨[⟨.phaseEnd, some 5⟩, ⟨.phaseStart "Host Check" "compile() and mypy", some 0⟩,
      ⟨.phaseEnd, some (es.length + 7)⟩], by simp [Event.isNote], ?_⟩
    refine (congrArg (Trace.logAll · _) hes).trans ?_
    rw [logAll_around_nil]
    simp [tokenized]

theorem Pipeline.rooted {filename : String} {calls : List Logging} (h : Pipeline filename calls) :
    Rooted filename (Trace.empty.logAll calls).events := by
  have hnested := Trace.Nested.empty.logAll calls
  obtain ⟨stages, hstages, rfl⟩ := h
  rw [logAll_pipeline] at hnested ⊢
  rcases hstages with rfl | hstages
  · exact ⟨hnested.closed rfl, rfl, by simp [tokenized, Trace.logAll, Trace.endPhase], 0, by
      simp [tokenized, Trace.logAll, Trace.endPhase, Event.isNote]⟩
  · obtain ⟨detail, es, after, hafter, hlog⟩ := hstages.logAll_eq
    rw [hlog] at hnested ⊢
    refine ⟨hnested.closed rfl, rfl, ?_, 5, fun r hr hnote => ⟨?_, detail, rfl⟩⟩
    · simp only [tokenized, Trace.endPhase, List.cons_append, List.nil_append, List.tail_cons, List.forall_mem_cons,
        List.forall_mem_append, List.forall_mem_map]
      exact ⟨nofun, nofun, nofun, nofun, nofun, ⟨fun _ _ => nofun, fun r hr => (hafter r hr).1⟩, nofun, nofun⟩
    · revert r
      simp only [tokenized, Trace.endPhase, List.cons_append, List.nil_append, List.forall_mem_cons,
        List.forall_mem_append, List.forall_mem_map]
      refine ⟨nofun, nofun, nofun, nofun, nofun, nofun, ⟨fun _ _ _ => trivial, fun r hr hnote => ?_⟩, nofun, nofun⟩
      exact absurd hnote (Bool.eq_false_iff.1 (hafter r hr).2)

/-- Whatever is logged, the events are a forest: each lies in the innermost open phase, phases end at most
once and from the inside out, and with no phase open there is none to end. The trace of an expansion is
such a forest in which every phase has ended, with one phase around all others and all notes in the phase
of lowering. -/
theorem trace_is_forest :
    (∀ calls, let t := Trace.empty.logAll calls
      Trace.Forest t.events ∧
      (∀ p q q', Trace.EndsAt t.events p q → Trace.EndsAt t.events p q' → q = q') ∧
      (∀ p p' q, Trace.EndsAt t.events p q → Trace.StartsAt t.events p' → p < p' → p' < q →
        ∃ q' < q, Trace.EndsAt t.events p' q') ∧
      ((∀ p, ¬ Trace.OpenAt t.events t.events.length p) → t.log .finish = t)) ∧
    ∀ settings check names filename code e, (run settings check names filename code).1 = .ok e →
      (∃ calls, e.trace = Trace.empty.logAll calls) ∧ Rooted filename e.trace.events := by
  constructor
  · intro calls
    have hnested := Trace.Nested.empty.logAll calls
    refine ⟨hnested.forest, fun _ _ _ => hnested.forest.endsAt_unique, fun _ _ _ => hnested.forest.ends_before,
      fun hnone => ?_⟩
    have hphases : (Trace.empty.logAll calls).phases = [] :=
      List.eq_nil_iff_forall_not_mem.2 fun p hp => hnone p ((hnested.phases p).1 hp)
    simp [Trace.log, Trace.endPhase, hphases]
  · intro settings check names filename code e h
    have hy : Yields (expand settings check filename code) (.initial names) e _ := Prod.ext h rfl
    obtain ⟨calls, hcalls, htrace⟩ := Logs.expand hy
    have he : e.trace = Trace.empty.logAll calls := by
      rw [← show (Lowering.State.initial names).trace = Trace.empty from rfl, ← htrace]
      obtain ⟨e₁, s₁, -, hy⟩ := Yields.bind_iff.1 hy
      rw [Yields.get_bind_iff] at hy
      obtain ⟨rfl, hst⟩ := Yields.pure_iff.1 hy
      rw [hst]
    rw [he]
    exact ⟨⟨calls, rfl⟩, hcalls.rooted⟩

/-- A site that cannot be read is noted in the phase of lowering, like the one that is lowered after it. -/
theorem trace_is_forest_mixed :
    ∃ e, (run .default .lenient (freshNames .default) "m.py" "f(do \x7b 1 \x7d)\nx = do \x7b ^2 \x7d\n").1 = .ok e ∧
      (e.trace.events.filter fun r => r.event.isNote).length = 3 ∧ Rooted "m.py" e.trace.events := by
  have htest : ((run .default .lenient (freshNames .default) "m.py"
      "f(do \x7b 1 \x7d)\nx = do \x7b ^2 \x7d\n").1.toOption.map fun e =>
        (e.trace.events.filter fun r => r.event.isNote).length) = some 3 := by decide +kernel
  cases hrun : (run .default .lenient (freshNames .default) "m.py" "f(do \x7b 1 \x7d)\nx = do \x7b ^2 \x7d\n").1 with
  | error e =>
    rw [hrun] at htest
    cases htest
  | ok e =>
    rw [hrun] at htest
    exact ⟨e, rfl, Option.some.inj htest, (trace_is_forest.2 _ _ _ _ _ _ hrun).2⟩

end Expansion

end DoBlocks
