import DoBlocks.Proofs.Accepted
import DoBlocks.Proofs.Naming
import DoBlocks.Proofs.Splicing

/-!
# Generated names and the names of a module

An expansion reserves the words of a module before it lowers anything, and every generated name in the
code it writes was handed out after that. So no generated name is a word of the module, and no two of
them are written alike, whatever they were handed out for and whichever sites had to be left as they are.

A word is a name token. What stands inside a string is none, so a name in a replacement field of a
format string is not reserved.
-/

namespace DoBlocks

/-! ### What sites hold -/

namespace Site

/-- The sink and the block of the site are ones of the user. -/
def IsWritten (s : Site) : Prop :=
  ∀ sink block, s.content = .ok (sink, block) → sink.isWritten = true ∧ block.wellFormed true = true

theorem always_content? (keyword : String) (before : List SpacedToken) (depth : Nat) (indent : String) :
    Always (content? keyword before depth indent) fun c =>
      c.1.isWritten = true ∧ c.2.wellFormed true = true := by
  refine .after fun word => .refuse ?_
  refine (BlockReader.always_sinkBefore _ _ _).bind fun sink hs => .after fun _ => ?_
  refine (BlockReader.always_nextBlock keyword true).bind fun block hb => .after fun next => .refuse ?_
  exact .pure ⟨hs, hb⟩

theorem always_read (keyword : String) (before : List SpacedToken) (depth : Nat) :
    Always (read keyword before depth) IsWritten := by
  intro st s st' h
  change read keyword before depth st = _ at h
  unfold read at h
  dsimp only at h
  intro sink block hcontent
  split at h
  · rename_i c s₁ hc
    cases h
    cases hcontent
    exact always_content? _ _ _ _ hc
  · cases h
    cases hcontent
  · cases h

theorem always_locateFrom (keyword : String) (fuel : Nat) (before : List SpacedToken) (depth : Nat) :
    Always (locateFrom keyword fuel before depth) fun ss => ∀ s ∈ ss, s.IsWritten := by
  induction fuel generalizing before depth with
  | zero => exact .pure (by simp)
  | succ fuel ih =>
    refine .after fun st => ?_
    split
    · exact .pure (by simp)
    · refine .ite (fun _ => .after fun _ => ih _ _) fun _ => .ite (fun _ => ?_) fun _ => .after fun _ => ih _ _
      refine (always_read _ _ _).bind fun s hs => .after fun _ => (ih _ _).bind fun ss hss => .pure ?_
      exact List.forall_mem_cons.2 ⟨hs, hss⟩

end Site

theorem isWritten_of_locateSitesOf {keyword : String} {script : Script} {sites : List Site}
    (h : locateSitesOf keyword script = .ok sites) : ∀ s ∈ sites, s.IsWritten :=
  Site.always_locateFrom keyword _ _ _ (Prod.ext h rfl)

namespace Expansion

open Lowering (History)
open Lowered (namesOf)

variable {settings : Settings} {check : ModuleCheck} {filename code : String} {st st' : Lowering.State}

/-! ### The steps of an expansion -/

theorem addGuardImport_steps {joined : String} {p : String × List Diagnostic}
    (h : Yields (addGuardImport filename joined) st p st') :
    st' = st ∧ (p.1 = joined ∨ ∃ c, st.callee = some c ∧
      Prologue.insertAfterPrologue (guardImport c.render) joined = .ok p.1) := by
  rw [addGuardImport, Yields.get_bind_iff] at h
  cases hc : st.callee with
  | none =>
    simp only [hc, Option.map_none] at h
    obtain ⟨rfl, rfl⟩ := Yields.pure_iff.1 h
    exact ⟨rfl, .inl rfl⟩
  | some c =>
    simp only [hc, Option.map_some] at h
    split at h
    · rename_i code' hinsert
      obtain ⟨rfl, rfl⟩ := Yields.pure_iff.1 h
      exact ⟨rfl, .inr ⟨c, rfl, hinsert⟩⟩
    · obtain ⟨rfl, rfl⟩ := Yields.pure_iff.1 h
      exact ⟨rfl, .inl rfl⟩
    · exact absurd h Yields.not_throw

/-- The last steps of an expansion: the code is checked, and changes no more. -/
def conclude (check : ModuleCheck) (filename expanded : String) (obligations : List Obligation)
    (sites : List Site) (reports : List Diagnostic) : Expand Expansion := do
  let outcome ←
    if reports.isEmpty then
      phase "Host Check" "compile() and mypy" do
        let callee := (← get).callee.map HiddenName.render
        return check ⟨expanded, obligations.map Obligation.site, callee, filename⟩
    else pure { diagnostics := reports }
  let st ← get
  return ⟨expanded, outcome.diagnostics, st.trace, sites.length, st.wrappers.length, outcome.call,
    outcome.warnings⟩

theorem conclude_steps {expanded : String} {obligations : List Obligation} {sites : List Site}
    {reports : List Diagnostic} {e : Expansion}
    (h : Yields (conclude check filename expanded obligations sites reports) st e st') :
    e.code = expanded ∧ ∃ trace, st' = { st with trace := trace } := by
  unfold conclude at h
  dsimp only at h
  split at h
  · obtain ⟨o, st₁, hphase, hy⟩ := Yields.bind_iff.1 h
    obtain ⟨t₁, st₂, t₂, hcheck, rfl⟩ := phase_yields hphase
    rw [Yields.get_bind_iff] at hcheck hy
    obtain ⟨-, rfl⟩ := Yields.pure_iff.1 hcheck
    obtain ⟨rfl, rfl⟩ := Yields.pure_iff.1 hy
    exact ⟨rfl, _, rfl⟩
  · rw [Yields.pure_bind_iff, Yields.get_bind_iff] at h
    obtain ⟨rfl, rfl⟩ := Yields.pure_iff.1 h
    exact ⟨rfl, _, rfl⟩

/-- The code of an expansion is the text with the lowered sites in place, or that text with an import of
what the catch-alls call. After the sites are lowered only the trace changes. -/
theorem expandTokens_steps {tokens : List Token} {e : Expansion}
    (h : Yields (expandTokens settings check filename code tokens) st e st') :
    ∃ sites joined reports st₁ trace,
      Yields (lowerModule settings filename code tokens) st (sites, joined, reports) st₁ ∧
      st' = { st₁ with trace := trace } ∧
      (e.code = joined ∨ ∃ c, st₁.callee = some c ∧
        Prologue.insertAfterPrologue (guardImport c.render) joined = .ok e.code) := by
  obtain ⟨⟨sites, joined, reports⟩, st₁, hlower, hy⟩ := Yields.bind_iff.1 h
  rw [Yields.get_bind_iff] at hy
  dsimp only at hy
  split at hy
  · rw [Yields.pure_bind_iff] at hy
    have hend : Yields (conclude check filename joined st₁.obligations sites reports) st₁ e st' := hy
    obtain ⟨hcode, trace, rfl⟩ := conclude_steps hend
    exact ⟨sites, joined, reports, st₁, trace, hlower, rfl, .inl hcode⟩
  · obtain ⟨p, st₂, hp, hy⟩ := Yields.bind_iff.1 hy
    obtain ⟨rfl, hp⟩ := addGuardImport_steps hp
    have hend : Yields (conclude check filename p.1 st₂.obligations sites p.2) st₂ e st' := hy
    obtain ⟨hcode, trace, rfl⟩ := conclude_steps hend
    rw [← hcode] at hp
    exact ⟨sites, joined, reports, st₂, trace, hlower, rfl, hp⟩

/-- The words of a module. -/
def words (code : String) : List String :=
  ((Lexer.tokenize code).tokens.filter fun t => t.kind == .name).map fun t => t.text

/-- The names in use once a module is read. -/
def namesInUse (names : Allocator) (code : String) : Allocator :=
  if (Lexer.tokenize code).fault.isNone then names.reserve (words code) else names

/-- An expansion of a module that can be read is the one of its tokens, with its words reserved; of any
other module nothing changes. -/
theorem expand_steps {e : Expansion} (h : Yields (expand settings check filename code) st e st') :
    ((Lexer.tokenize code).fault ≠ none ∧ e.code = code ∧ ∃ trace, st' = { st with trace := trace }) ∨
      (Lexer.tokenize code).fault = none ∧ ∃ e' t t' st₁,
        Yields (expandTokens settings check filename code (Lexer.tokenize code).tokens)
          { st with names := st.names.reserve (words code), trace := t } e' st₁ ∧
        e.code = e'.code ∧ st' = { st₁ with trace := t' } := by
  unfold expand at h
  obtain ⟨e₁, st₁, hphase, hy⟩ := Yields.bind_iff.1 h
  rw [Yields.get_bind_iff] at hy
  obtain ⟨rfl, rfl⟩ := Yields.pure_iff.1 hy
  obtain ⟨t₁, st₂, t₂, hrun, rfl⟩ := phase_yields hphase
  obtain ⟨readable, st₃, hphase', hy⟩ := Yields.bind_iff.1 hrun
  obtain ⟨t₃, st₄, t₄, hread, rfl⟩ := phase_yields hphase'
  dsimp only at hread
  cases hfault : (Lexer.tokenize code).fault with
  | some fault =>
    rw [hfault] at hread
    obtain ⟨rfl, rfl⟩ := Yields.pure_iff.1 hread
    obtain ⟨rfl, rfl⟩ := Yields.pure_iff.1 hy
    exact .inl ⟨nofun, rfl, _, rfl⟩
  | none =>
    rw [hfault] at hread
    obtain ⟨_, st₅, hreserve, hread⟩ := Yields.bind_iff.1 hread
    obtain rfl := Yields.modify_iff.1 hreserve
    obtain ⟨rfl, rfl⟩ := Yields.pure_iff.1 hread
    exact .inr ⟨rfl, e₁, _, _, st₂, hy, rfl, rfl⟩

/-! ### The names that an expansion writes -/

/-- The text of a lowered site is that of statements, up to line feeds at its end. -/
def Result.Shows (settings : Settings) (r : Result) (stmts : List Lowered) : Prop :=
  match r.2 with
  | .ok text => ∃ breaks, (∀ c ∈ breaks.toList, c = '\n') ∧
      renderStatements? stmts r.1.indent settings.indent = some (text ++ breaks)
  | .error _ => stmts = []

/-- What lowering sites one after another draws: the names in the statements it writes are among those
handed out on the way and those at hand before. -/
theorem Lowers.history {results : List Result} (h : Lowers settings filename st results st')
    (hw : ∀ s ∈ results.map Prod.fst, s.IsWritten) :
    ∃ emitted ns, List.Forall₂ (Result.Shows settings) results emitted ∧ History st ns st' ∧
      emitted.flatMap namesOf ⊆ ns ++ st.atHand := by
  induction h with
  | nil => exact ⟨[], [], .nil, .refl _, List.nil_subset _⟩
  | @unread st st' s e rest hcontent _ ih =>
    rw [List.map_cons, List.forall_mem_cons] at hw
    obtain ⟨emitted, ns, hshows, hist, hns⟩ := ih hw.2
    exact ⟨[] :: emitted, ns, .cons rfl hshows, ⟨hist.handsOut, hist.wrapper, hist.callee, hist.recorded⟩, hns⟩
  | @refused st st₁ st' s sink block e rest hcontent hrun _ ih =>
    rw [List.map_cons, List.forall_mem_cons] at hw
    obtain ⟨-, hblock⟩ := hw.1 sink block hcontent
    obtain ⟨emitted, ns, hshows, hist, hns⟩ := ih hw.2
    obtain ⟨ms, hist', -⟩ :=
      Lowering.Draws.lowerSite settings.emitGuard (List.Subset.refl sink.names) hblock st
    rw [hrun] at hist'
    have hleave : History st₁ ns st' := ⟨hist.handsOut, hist.wrapper, hist.callee, hist.recorded⟩
    refine ⟨[] :: emitted, ms ++ ns, .cons rfl hshows, hist'.trans hleave, ?_⟩
    intro n hn
    have hhand : ∀ n ∈ st₁.atHand, n ∈ ms ++ st.atHand := hist'.atHand_subset
    have hmem : n ∈ ns ++ st₁.atHand := hns hn
    grind
  | @lowered st st₁ st' s sink block r text breaks rest hcontent hy hrender hbreaks hlast _ ih =>
    rw [List.map_cons, List.forall_mem_cons] at hw
    obtain ⟨hsink, hblock⟩ := hw.1 sink block hcontent
    obtain ⟨emitted, ns, hshows, hist, hns⟩ := ih hw.2
    obtain ⟨ms, hist', hms⟩ :=
      Lowering.Draws.lowerSite settings.emitGuard (List.Subset.refl sink.names) hblock st
    rw [hy] at hist' hms
    rw [Sink.names_eq_nil hsink] at hms
    refine ⟨r.statements :: emitted, ms ++ ns, .cons ⟨breaks, hbreaks, hrender⟩ hshows, hist'.trans hist, ?_⟩
    intro n hn
    have hhand : ∀ n ∈ st₁.atHand, n ∈ ms ++ st.atHand := hist'.atHand_subset
    have hrest : ∀ n ∈ emitted.flatMap namesOf, n ∈ ns ++ st₁.atHand := hns
    have hhere : ∀ n ∈ namesOf r.body, n ∈ ms ++ st.atHand ++ [] := hms r rfl
    rw [List.flatMap_cons, Lowering.Result.statements, Lowered.namesOf_suite] at hn
    grind

/-- `out` is `joined`, or `joined` with the import that gives the function of the catch-alls the name
`imported`. -/
def Imports (imported : Option HiddenName) (joined out : String) : Prop :=
  match imported with
  | none => out = joined
  | some c => Prologue.insertAfterPrologue (guardImport c.render) joined = .ok out

/-- A word of the module is in use from the start. -/
theorem mem_reserved_namesInUse {names : Allocator} {t : Token}
    (hread : (Lexer.tokenize code).fault = none) (ht : t ∈ (Lexer.tokenize code).tokens)
    (hkind : t.kind = .name) : t.text ∈ (namesInUse names code).reserved := by
  rw [namesInUse, hread]
  apply List.mem_append_left
  exact List.mem_map.2 ⟨t, List.mem_filter.2 ⟨ht, by rw [hkind]; rfl⟩, rfl⟩

/-- The code that a format string with a generated name in it comes to. -/
def capturedCode : String :=
  "_lm_result_0 = None\n_lm_exit_0 = False\nwhile not _lm_exit_0:\n" ++
    "    _lm_result_0 = f\"\x7b_lm_result_0\x7d\"\n    _lm_exit_0 = True\n    break\n"

end Expansion

end DoBlocks
