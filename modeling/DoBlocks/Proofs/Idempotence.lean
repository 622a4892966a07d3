import DoBlocks.Proofs.Splicing
import DoBlocks.Proofs.Synchrony

/-!
# Expanding twice

What an expansion leaves has no sites: the host accepts it, so no block keyword stands before a brace in it.
A second expansion finds nothing to do, and fails only if the code has a character that starts no token.
-/

namespace DoBlocks

open Lexer (Splits Cut visible Tidy Readable)
open Host.Lexer (Clear)

/-! ### Tokens of a text that splits -/

namespace Lexer

variable {cs : List Char} {ps : List Cut}

theorem Splits.unique {ps' : List Cut} (h : Splits cs ps) (h' : Splits cs ps') : ps = ps' := by
  induction h generalizing ps' with
  | nil =>
    cases h' with
    | nil => rfl
    | cons hlex => cases hlex
  | cons hlex _ ih =>
    obtain ⟨ps'', hrest, rfl⟩ := h'.of_lexeme? hlex
    rw [ih hrest]

theorem Splits.fault_eq_none (h : Splits cs ps) (line column offset : Nat) :
    (scan line column offset cs).fault = none := by
  induction h generalizing line column offset with
  | nil => rw [scan]
  | @cons cs kind n ps hlex _ ih =>
    cases cs with
    | nil => cases hlex
    | cons c rest =>
      rw [scan, hlex]
      exact ih _ _ _

end Lexer

/-- The kind and the characters of a token. -/
def SpacedToken.cut (t : SpacedToken) : Cut := (t.kind, t.text.toList)

/-- The tokens of a script are those of its text. -/
theorem Script.collect_cuts {offset : Nat} {cs : List Char} {ts : List Token} (h : Lexer.Cuts offset cs ts) :
    ∃ ps, Splits cs ps ∧ ∀ gap, (collect gap ts).map SpacedToken.cut = visible ps := by
  induction h with
  | stop ht =>
    refine ⟨[], .nil, fun gap => ?_⟩
    simp [collect, ht, TokenKind.isTrivia, visible]
  | @token _ n cs after t ts hlex htext hcs _ _ _ ih =>
    obtain ⟨ps, hps, hmap⟩ := ih
    have hafter : cs.drop (n + 1) = after := by
      have hdrop := List.take_append_drop (n + 1) cs
      rw [← htext] at hdrop
      exact List.append_cancel_left (hdrop.trans hcs)
    refine ⟨_, .cons hlex (hafter ▸ hps), fun gap => ?_⟩
    rw [collect]
    split
    · rename_i htrivia
      simp [hmap, visible, htrivia]
    · rename_i htrivia
      rw [if_neg (by simp [Lexer.kind_ne_eof_of_lexeme? hlex]), List.map_cons, hmap]
      simp [visible, htrivia, SpacedToken.cut, htext]

/-! ### Sites -/

/-- Tokens clear of braces after the keyword start no block. -/
theorem startsBlock_eq_false {keyword : String} {ts rest : List SpacedToken}
    (h : Clear keyword.toList (ts.map SpacedToken.cut)) (hrest : rest <:+ ts) :
    BlockReader.startsBlock keyword rest = false := by
  obtain ⟨before, rfl⟩ := hrest
  match rest with
  | [] => rfl
  | [_] => rfl
  | k :: brace :: after =>
    rw [Bool.eq_false_iff]
    intro hstarts
    simp only [BlockReader.startsBlock, Token.isName, Token.isSymbol, Bool.and_eq_true, beq_iff_eq] at hstarts
    refine h (before.map SpacedToken.cut) (after.map SpacedToken.cut) ?_
    simp [SpacedToken.cut, hstarts]

theorem Site.locateFrom_eq_nil {keyword : String} {fuel depth : Nat} {before : List SpacedToken}
    {st : BlockReader.State} (h : ∀ rest, rest <:+ st.rest → BlockReader.startsBlock keyword rest = false) :
    ∃ st', Yields (locateFrom keyword fuel before depth) st [] st' := by
  induction fuel generalizing before depth st with
  | zero => exact ⟨st, rfl⟩
  | succ fuel ih =>
    simp only [locateFrom, Yields.get_bind_iff]
    split
    · exact ⟨st, rfl⟩
    · rename_i t rest hrest
      have hstarts := h st.rest (List.suffix_refl _)
      have hmore {before : List SpacedToken} {depth : Nat} : ∃ st', Yields
          (set { st with rest := rest, last := t.toToken } >>= fun _ : PUnit => locateFrom keyword fuel before depth)
          st [] st' := by
        obtain ⟨st', hst'⟩ := @ih depth before { st with rest := rest, last := t.toToken } fun more hmore =>
          h more (hmore.trans (hrest ▸ List.suffix_cons t rest))
        exact ⟨st', Yields.bind_iff.2 ⟨⟨⟩, _, rfl, hst'⟩⟩
      split
      · exact hmore
      · rw [if_neg (by simp [hstarts])]
        exact hmore

/-! ### A module without sites -/

namespace Expansion

variable {settings : Settings} {check : ModuleCheck} {names : Allocator} {filename code : String} {e : Expansion}
variable {tokens : List Token} {checker : List String → CheckerReport}

theorem run_eq_ok_iff : (run settings check names filename code).1 = .ok e ↔
    ∃ st', Yields (expand settings check filename code) (.initial names) e st' := by
  constructor
  · intro h
    exact ⟨_, Prod.ext h rfl⟩
  · rintro ⟨st', h⟩
    exact congrArg Prod.fst h

/-- Nothing has been lowered. -/
structure Idle (st : Lowering.State) : Prop where
  obligations : st.obligations = []
  wrappers : st.wrappers = []
  callee : st.callee = none

/-- While nothing has been lowered the step succeeds with what satisfies `Q`, and lowers nothing. -/
def Idles {α : Type} (m : Expand α) (Q : α → Prop) : Prop :=
  ∀ ⦃st⦄, Idle st → ∃ a st', Yields m st a st' ∧ Idle st' ∧ Q a

namespace Idles

variable {α β : Type} {m : Expand α} {f : α → Expand β} {P : α → Prop} {Q : β → Prop}

theorem pure {a : α} (h : P a) : Idles (Pure.pure a) P := fun st hst => ⟨a, st, rfl, hst, h⟩

theorem bind (hm : Idles m P) (hf : ∀ a, P a → Idles (f a) Q) : Idles (m >>= f) Q := by
  intro st hst
  obtain ⟨a, st₁, hm, hst₁, ha⟩ := hm hst
  obtain ⟨b, st₂, hf, hst₂, hb⟩ := hf a ha hst₁
  exact ⟨b, st₂, Yields.bind_iff.2 ⟨a, st₁, hm, hf⟩, hst₂, hb⟩

theorem modify (g : Lowering.State → Lowering.State) (hg : ∀ st, Idle st → Idle (g st)) :
    Idles (modify g : Expand PUnit) fun _ => True :=
  fun st hst => ⟨⟨⟩, g st, rfl, hg st hst, trivial⟩

theorem get : Idles (get : Expand Lowering.State) Idle := fun st hst => ⟨st, st, rfl, hst, hst⟩

theorem phase {name detail : String} (hm : Idles m P) : Idles (phase name detail m) P := by
  unfold Expansion.phase
  refine (modify _ ?_).bind fun _ _ => hm.bind fun _ ha => (modify _ ?_).bind fun _ _ => pure ha
  · exact fun _ hst => ⟨hst.obligations, hst.wrappers, hst.callee⟩
  · exact fun _ hst => ⟨hst.obligations, hst.wrappers, hst.callee⟩

end Idles

/-- What an expansion is where there is nothing to do. -/
structure Unchanged (code : String) (succeeded : Bool) (e : Expansion) : Prop where
  code : e.code = code
  sites : e.sites = 0
  wrappers : e.wrappers = 0
  succeeded : e.succeeded = succeeded

theorem lowerModule_idles (hsites : locateSitesOf settings.blockKeyword (.ofTokens tokens) = .ok []) :
    Idles (lowerModule settings filename code tokens) fun r => r = ([], code, []) := by
  have hlocate : Idles (Pure.pure [] : Expand (List Site)) fun sites => sites = [] := .pure rfl
  have hlower : Idles (lowerSites settings filename code.toList []) fun r => r = ([], []) := .pure rfl
  unfold lowerModule
  rw [hsites]
  refine hlocate.phase.bind fun sites hs => ?_
  subst hs
  refine hlower.phase.bind fun r hr => ?_
  subst hr
  refine .pure ?_
  simp [splice]

theorem expandTokens_idles (hsites : locateSitesOf settings.blockKeyword (.ofTokens tokens) = .ok [])
    (haccepts : Host.accepts code = true) :
    Idles (expandTokens settings (.host settings checker) filename code tokens) (Unchanged code true) := by
  refine (lowerModule_idles hsites).bind fun r hr => ?_
  subst hr
  refine Idles.get.bind fun st hst => ?_
  dsimp only
  rw [hst.obligations]
  refine (Idles.pure (P := fun p => p = (code, [])) rfl).bind fun p hp => ?_
  subst hp
  have hcheck : Idles (do
      let callee := (← get).callee.map HiddenName.render
      return ModuleCheck.host settings checker ⟨code, [], callee, filename⟩) fun o => o.diagnostics = [] := by
    refine Idles.get.bind fun st hst => .pure ?_
    simp [hst.callee, ModuleCheck.host, haccepts]
  refine hcheck.phase.bind fun o ho => Idles.get.bind fun st hst => .pure ⟨rfl, rfl, ?_, ?_⟩
  · simp [hst.wrappers]
  · simp [succeeded, ho]

/-- An expansion idles if the body of its pipeline does. -/
theorem run_unchanged {succeeded : Bool} (h : Idles (match (Lexer.tokenize code).fault with
      | some p => Pure.pure ⟨code, [.ofParseError p filename], .empty, 0, 0, none, []⟩
      | none => expandTokens settings check filename code (Lexer.tokenize code).tokens) (Unchanged code succeeded)) :
    ∃ e, (run settings check names filename code).1 = .ok e ∧ Unchanged code succeeded e := by
  have htokenize : Idles (do
      if (Lexer.tokenize code).fault.isNone then
        let words := ((Lexer.tokenize code).tokens.filter fun t => t.kind == .name).map fun t => t.text
        modify fun st => { st with names := st.names.reserve words }
      return (Lexer.tokenize code).fault) fun r => r = (Lexer.tokenize code).fault := by
    split
    · refine (Idles.modify _ fun st hst => ?_).bind fun _ _ => .pure rfl
      exact ⟨hst.obligations, hst.wrappers, hst.callee⟩
    · exact .pure rfl
  have hexpand : Idles (expand settings check filename code) (Unchanged code succeeded) := by
    refine Idles.bind (P := Unchanged code succeeded) (htokenize.phase.bind fun r hr => ?_).phase
      fun e he => Idles.get.bind fun st _ => .pure ?_
    · subst hr
      exact h
    · exact ⟨he.code, he.sites, he.wrappers, he.succeeded⟩
  obtain ⟨e, st', hyields, -, he⟩ := @hexpand (.initial names) ⟨rfl, rfl, rfl⟩
  exact ⟨e, run_eq_ok_iff.2 ⟨st', hyields⟩, he⟩

/-- An expansion without sites leaves the module as it is. -/
theorem run_of_no_sites {checker : List String → CheckerReport} (hfault : (Lexer.tokenize code).fault = none)
    (hsites : locateSitesOf settings.blockKeyword (.ofTokens (Lexer.tokenize code).tokens) = .ok [])
    (haccepts : Host.accepts code = true) :
    ∃ e, (run settings (.host settings checker) names filename code).1 = .ok e ∧ Unchanged code true e := by
  refine run_unchanged ?_
  rw [hfault]
  exact expandTokens_idles hsites haccepts

/-- A module that cannot be cut into tokens is left as it is, with a report. -/
theorem run_of_fault {p : ParseError} (hfault : (Lexer.tokenize code).fault = some p) :
    ∃ e, (run settings check names filename code).1 = .ok e ∧ Unchanged code false e := by
  refine run_unchanged ?_
  rw [hfault]
  exact .pure ⟨rfl, rfl, rfl, rfl⟩

/-! ### What a successful expansion leaves -/

theorem accepts_of_diagnostics {m : ExpandedModule} (h : (ModuleCheck.host settings checker m).diagnostics = []) :
    Host.accepts m.code = true := by
  unfold ModuleCheck.host at h
  split at h
  · cases h
  · rename_i hnot
    simpa using hnot

theorem expandTokens_accepts :
    Always (expandTokens settings (.host settings checker) filename code tokens) fun e =>
      e.diagnostics = [] → Host.accepts e.code = true := by
  have hcheck {expanded : String} {sites : List CatchAllSite} : Always (phase "Host Check" "compile() and mypy" do
      let callee := (← get).callee.map HiddenName.render
      return ModuleCheck.host settings checker ⟨expanded, sites, callee, filename⟩) fun o =>
        o.diagnostics = [] → Host.accepts expanded = true := by
    intro st o st' h
    obtain ⟨_, _, _, hstep, -⟩ := phase_yields h
    rw [Yields.get_bind_iff] at hstep
    obtain ⟨rfl, -⟩ := Yields.pure_iff.1 hstep
    exact accepts_of_diagnostics
  have hreported {expanded : String} {reports : List Diagnostic} (h : ¬reports.isEmpty = true) :
      Always (Pure.pure { diagnostics := reports } : Expand Exhaustiveness.Outcome) fun o =>
        o.diagnostics = [] → Host.accepts expanded = true :=
    .pure fun hnil => absurd (List.isEmpty_iff.2 hnil) h
  refine .after fun ⟨sites, spliced, reports⟩ => .after fun st => ?_
  refine .ite (fun _ => .after fun ⟨expanded, reports⟩ => ?_) fun _ => .after fun ⟨expanded, reports⟩ => ?_
  · exact .ite (fun _ => hcheck.bind fun o ho => .after fun _ => .pure ho) fun h =>
      (hreported h).bind fun o ho => .after fun _ => .pure ho
  · exact .ite (fun _ => hcheck.bind fun o ho => .after fun _ => .pure ho) fun h =>
      (hreported h).bind fun o ho => .after fun _ => .pure ho

/-- The host has accepted the code of an expansion without reports. -/
theorem accepts_of_succeeded (h : (run settings (.host settings checker) names filename code).1 = .ok e)
    (hok : e.succeeded = true) :
    Host.accepts e.code = true := by
  obtain ⟨st', h⟩ := run_eq_ok_iff.1 h
  obtain ⟨e₀, s₁, hphase, h⟩ := Yields.bind_iff.1 h
  rw [Yields.get_bind_iff] at h
  obtain ⟨rfl, -⟩ := Yields.pure_iff.1 h
  obtain ⟨_, _, _, hbody, -⟩ := phase_yields hphase
  obtain ⟨readable, s₂, -, hbody⟩ := Yields.bind_iff.1 hbody
  rw [succeeded, List.isEmpty_iff] at hok
  cases readable with
  | some p =>
    obtain ⟨rfl, -⟩ := Yields.pure_iff.1 hbody
    cases hok
  | none =>
    have haccepts := expandTokens_accepts hbody
    exact haccepts hok

theorem module_of_accepts (h : Host.accepts code = true) : ∃ m, Host.module? .strict code = some m := by
  unfold Host.accepts at h
  rw [Bool.and_eq_true] at h
  cases hm : Host.module? .strict code with
  | none => rw [hm] at h; exact absurd h.2 (by decide)
  | some m => exact ⟨m, rfl⟩

/-- Code that the host accepts has no sites. -/
theorem locateSitesOf_of_accepts {keyword code : String} (haccepts : Host.accepts code = true)
    (hword : Text.isKeyword keyword = false) (hsoft : keyword ≠ "match" ∧ keyword ≠ "case")
    (hfault : (Lexer.tokenize code).fault = none) :
    locateSitesOf keyword (.ofTokens (Lexer.tokenize code).tokens) = .ok [] := by
  obtain ⟨m, hm⟩ := module_of_accepts haccepts
  obtain ⟨ps, hps, hcuts⟩ := Script.collect_cuts (Lexer.scan_cuts hfault)
  obtain ⟨ps', hps', hclear⟩ := @Host.Lexer.splits_of_module? keyword.toList _ _ hm
    (by rwa [String.ofList_toList]) (by rwa [String.ofList_toList]) (.inr ⟨ps, hps⟩)
  obtain rfl := hps.unique hps'
  rw [← hcuts ""] at hclear
  obtain ⟨st', hst'⟩ := @Site.locateFrom_eq_nil keyword _ 0 [] (.start (.ofTokens (Lexer.tokenize code).tokens) 0)
    fun rest hrest => startsBlock_eq_false hclear hrest
  exact congrArg Prod.fst hst'

/-- Where code is tidy, every character of it is in a token. -/
theorem fault_of_tidy (haccepts : Host.accepts code = true) (htidy : Tidy code.toList) :
    (Lexer.tokenize code).fault = none := by
  obtain ⟨m, hm⟩ := module_of_accepts haccepts
  obtain ⟨ps, hps, -⟩ := @Host.Lexer.splits_of_module? "do".toList _ _ hm (by decide) (by decide) (.inl htidy)
  exact hps.fault_eq_none 1 0 0

/-- The expansion of a module with names of its own gives what passes the test. -/
def expands (settings : Settings) (code : String) (test : Expansion → Bool) : Bool :=
  match (run settings (.host settings fun _ => {}) (freshNames settings) "m.py" code).1 with
  | .ok e => test e
  | .error _ => false

theorem exists_run_of_expands {test : Expansion → Bool} (h : expands settings code test = true) :
    ∃ e, (run settings (.host settings fun _ => {}) (freshNames settings) "m.py" code).1 = .ok e ∧
      test e = true := by
  unfold expands at h
  split at h
  · exact ⟨_, ‹_›, h⟩
  · cases h

/-- A stem with a character that the host takes into names but that is in no token. -/
def dottedSettings : Settings := { hiddenStem := "_l·m" }

/-- What the wrapper of an escape comes to with such a stem. -/
def dottedCode : String :=
  "_l·m_result_0 = None\n_l·m_exit_0 = False\nwhile not _l·m_exit_0:\n    _l·m_result_0 = 1\n" ++
    "    _l·m_exit_0 = True\n    break\nx = _l·m_result_0\n"

end Expansion

end DoBlocks
