import Mathlib
import DoBlocks.Expansion
import DoBlocks.Proofs.Sites

/-!
# What an expansion changes in a text

`Replaced` says that a text has some ranges replaced and everything else kept, once and in order. The
text that the lowered sites are put into is of that kind exactly if no two sites start at one place,
which is to say that no statement holds two blocks. Where one does, the text of the statement up to the
first block comes out twice.
-/

namespace DoBlocks.Expansion

variable {cs : List Char} {cursor : Nat} {results : List Result} {tokens : List Token}

/-- `out` is the text `cs`, whose first character is at `offset`, with the ranges of the patches
replaced by their texts and every other character kept. -/
inductive Replaced : Nat → List Patch → List Char → List Char → Prop
  | keep {offset : Nat} {cs : List Char} : Replaced offset [] cs cs
  | patch {offset : Nat} {p : Patch} {ps : List Patch} {gap range after out : List Char} :
    p.start = offset + gap.length → p.stop = p.start + range.length → Replaced p.stop ps after out →
    Replaced offset (p :: ps) (gap ++ range ++ after) (gap ++ p.text.toList ++ out)

/-- The number of characters that patches take away. -/
def removed (ps : List Patch) : Nat := (ps.map fun p => p.stop - p.start).sum

/-- The number of characters that patches put in. -/
def added (ps : List Patch) : Nat := (ps.map fun p => p.text.length).sum

namespace Replaced

variable {offset : Nat} {ps : List Patch} {cs out : List Char}

/-- What stands before the ranges is kept. -/
theorem prepend {pre : List Char} (h : Replaced (offset + pre.length) ps cs out) :
    Replaced offset ps (pre ++ cs) (pre ++ out) := by
  generalize hstart : offset + pre.length = start at h
  cases h with
  | keep => exact .keep
  | @patch _ p ps gap range after out hgap hrange h =>
    have hlength : p.start = offset + (pre ++ gap).length := by
      rw [List.length_append]
      omega
    have := patch hlength hrange h
    simpa using this

theorem eq_of_nil (h : Replaced offset [] cs out) : out = cs := by
  cases h
  rfl

theorem length (h : Replaced offset ps cs out) : out.length + removed ps = cs.length + added ps := by
  induction h with
  | keep => rfl
  | @patch offset p ps gap range after out hgap hrange h ih =>
    simp only [removed, added, List.map_cons, List.sum_cons, List.length_append,
      String.length_toList] at ih ⊢
    omega

end Replaced

/-! ### Sites and their texts -/

/-- A site with what it was lowered to, or with the error for which it is left as it is. -/
abbrev Result := Site × Except (ParseError ⊕ LoweringError) String

/-- The ranges of the sites that were lowered. -/
def lowered (results : List Result) : List Patch :=
  results.filterMap fun
    | (s, .ok text) => some ⟨s.start, s.stop, text⟩
    | (_, .error _) => none

/-- What the text of a site gives way to; a site with an error gives way to itself. -/
def patchOf (cs : List Char) : Result → Patch
  | (s, .ok text) => ⟨s.start, s.stop, text⟩
  | (s, .error _) => ⟨s.start, s.stop, String.ofList ((cs.take s.stop).drop s.start)⟩

/-- How much of the text before `cursor`, or before the end of another site, the sites reach back over. -/
def overlap (cursor : Nat) : List Site → Nat
  | [] => 0
  | s :: ss => (cursor - s.start) + overlap s.stop ss

@[simp] theorem lowered_nil : lowered [] = [] := rfl

@[simp] theorem lowered_ok (s : Site) (text : String) (results : List Result) :
    lowered ((s, .ok text) :: results) = ⟨s.start, s.stop, text⟩ :: lowered results := rfl

@[simp] theorem lowered_error (s : Site) (e : ParseError ⊕ LoweringError) (results : List Result) :
    lowered ((s, .error e) :: results) = lowered results := rfl

theorem length_splice (hcursor : cursor ≤ cs.length)
    (hbounds : ∀ s ∈ results.map Prod.fst, s.start < s.stop ∧ s.stop ≤ cs.length) :
    (splice cs cursor (results.map (patchOf cs))).length + removed (lowered results) + cursor =
      cs.length + added (lowered results) + overlap cursor (results.map Prod.fst) := by
  induction results generalizing cursor with
  | nil =>
    simp only [List.map_nil, splice, List.length_drop, lowered_nil, removed, added, overlap,
      List.sum_nil]
    omega
  | cons r results ih =>
    obtain ⟨s, x⟩ := r
    rw [List.map_cons, List.forall_mem_cons] at hbounds
    obtain ⟨⟨hlt, hstop⟩, hbounds⟩ := hbounds
    dsimp only at hlt hstop
    have := ih hstop hbounds
    cases x with
    | ok text =>
      simp only [List.map_cons, patchOf, splice, List.length_append, List.length_drop,
        List.length_take, String.length_toList, lowered_ok, removed, added, overlap,
        List.sum_cons] at this ⊢
      omega
    | error e =>
      simp only [List.map_cons, patchOf, splice, List.length_append, List.length_drop,
        List.length_take, String.toList_ofList, lowered_error, removed, added, overlap] at this ⊢
      omega

/-- A text from `start` on is the range up to `stop` and the text from there. -/
theorem drop_eq_range_append {start stop : Nat} (h : start ≤ stop) (hstop : stop ≤ cs.length) :
    cs.drop start = (cs.take stop).drop start ++ cs.drop stop := by
  have hlength : start ≤ (cs.take stop).length := by
    rw [List.length_take]
    omega
  rw [← List.drop_append_of_le_length hlength, List.take_append_drop]

/-- Where sites are disjoint, nothing but the lowered ones is replaced. -/
theorem splice_replaced (hcursor : cursor ≤ cs.length)
    (hbounds : ∀ s ∈ results.map Prod.fst, s.start < s.stop ∧ s.stop ≤ cs.length)
    (hafter : ∀ s ∈ results.map Prod.fst, cursor ≤ s.start)
    (hdisjoint : (results.map Prod.fst).Pairwise fun s u => s.stop ≤ u.start) :
    Replaced cursor (lowered results) (cs.drop cursor)
      (splice cs cursor (results.map (patchOf cs))) := by
  induction results generalizing cursor with
  | nil => exact .keep
  | cons r results ih =>
    obtain ⟨s, x⟩ := r
    rw [List.map_cons, List.forall_mem_cons] at hbounds hafter
    rw [List.map_cons, List.pairwise_cons] at hdisjoint
    obtain ⟨⟨hlt, hstop⟩, hbounds⟩ := hbounds
    have hstart := hafter.1
    dsimp only at hlt hstop hstart hdisjoint
    have hrest := ih hstop hbounds hdisjoint.1 hdisjoint.2
    -- the text from the cursor on: up to the site, the site, and the rest
    have htext : cs.drop cursor =
        (cs.take s.start).drop cursor ++ (cs.take s.stop).drop s.start ++ cs.drop s.stop := by
      rw [List.append_assoc, ← drop_eq_range_append (by omega) hstop,
        ← drop_eq_range_append hstart (by omega)]
    rw [htext]
    cases x with
    | ok text =>
      apply Replaced.patch
      · simp only [List.length_drop, List.length_take]
        omega
      · simp only [List.length_drop, List.length_take]
        omega
      · exact hrest
    | error e =>
      have hlength : cursor + ((cs.take s.start).drop cursor ++ (cs.take s.stop).drop s.start).length =
          s.stop := by
        simp only [List.length_append, List.length_drop, List.length_take]
        omega
      have hkept : Replaced
          (cursor + ((cs.take s.start).drop cursor ++ (cs.take s.stop).drop s.start).length)
          (lowered results) (cs.drop s.stop) (splice cs s.stop (results.map (patchOf cs))) := by
        rwa [hlength]
      simpa [patchOf, splice] using hkept.prepend

/-- Sites that reach back over nothing are disjoint. -/
theorem pairwise_of_overlap {ss : List Site} (hlt : ∀ s ∈ ss, s.start < s.stop) (h : overlap cursor ss = 0) :
    (∀ s ∈ ss, cursor ≤ s.start) ∧ ss.Pairwise fun s u => s.stop ≤ u.start := by
  induction ss generalizing cursor with
  | nil => simp
  | cons s ss ih =>
    rw [List.forall_mem_cons] at hlt
    simp only [overlap, Nat.add_eq_zero_iff] at h
    obtain ⟨hafter, hpairwise⟩ := ih hlt.2 h.2
    refine ⟨?_, List.pairwise_cons.2 ⟨hafter, hpairwise⟩⟩
    intro u hu
    rcases List.mem_cons.1 hu with rfl | hu
    · omega
    · have := hafter u hu
      omega

theorem splice_replaced_iff {line : Nat} (h : Site.Located cs.length line 0 (results.map Prod.fst)) :
    Replaced 0 (lowered results) cs (splice cs 0 (results.map (patchOf cs))) ↔
      ((results.map Prod.fst).map Site.start).Nodup := by
  have hbounds := h.bounds
  have hlt : ∀ s ∈ results.map Prod.fst, s.start < s.stop := fun s hs => (hbounds s hs).1
  constructor
  · intro hreplaced
    have hlength := hreplaced.length
    have hsplice := length_splice (Nat.zero_le cs.length) hbounds
    have hoverlap : overlap 0 (results.map Prod.fst) = 0 := by omega
    exact Site.nodup_of_pairwise hlt (pairwise_of_overlap hlt hoverlap).2
  · intro hnodup
    obtain ⟨hdisjoint, -⟩ := h.pairwise_of_nodup hnodup
    exact splice_replaced (Nat.zero_le _) hbounds (fun s _ => Nat.zero_le _) hdisjoint

/-! ### Lowering the sites one by one -/

/-- The state after the warning that a site is left as it is. -/
def leave (filename : String) (s : Site) (e : ParseError ⊕ LoweringError) (st : Lowering.State) :
    Lowering.State :=
  let report := siteReport filename e
  let text := s!"Site at {s.span.render} left verbatim: {report.message}"
  { st with trace := st.trace.record (.warning text) }

/-- What lowering sites one after another comes to. A site is lowered to its rendered statements
without the line feeds at their end. -/
inductive Lowers (settings : Settings) (filename : String) :
    Lowering.State → List Result → Lowering.State → Prop
  | nil {st : Lowering.State} : Lowers settings filename st [] st
  | unread {st st' : Lowering.State} {s : Site} {e : ParseError} {rest : List Result} :
    s.content = .error e → Lowers settings filename (leave filename s (.inl e) st) rest st' →
    Lowers settings filename st ((s, .error (.inl e)) :: rest) st'
  | refused {st st₁ st' : Lowering.State} {s : Site} {sink : Sink} {block : Block} {e : LoweringError}
      {rest : List Result} :
    s.content = .ok (sink, block) →
    outcome (Lowering.lowerSite settings.emitGuard sink block) st = (.error (.error e), st₁) →
    Lowers settings filename (leave filename s (.inr e) st₁) rest st' →
    Lowers settings filename st ((s, .error (.inr e)) :: rest) st'
  | lowered {st st₁ st' : Lowering.State} {s : Site} {sink : Sink} {block : Block} {r : Lowering.Result}
      {text breaks : String} {rest : List Result} :
    s.content = .ok (sink, block) →
    Yields (Lowering.lowerSite settings.emitGuard sink block) st r st₁ →
    renderStatements? r.statements s.indent settings.indent = some (text ++ breaks) →
    (∀ c ∈ breaks.toList, c = '\n') → (∀ c ∈ text.toList.getLast?, c ≠ '\n') →
    Lowers settings filename st₁ rest st' →
    Lowers settings filename st ((s, .ok text) :: rest) st'

/-- A text is what is left of it and line feeds. -/
theorem dropLastBreaks_spec (s : String) :
    ∃ breaks, s = dropLastBreaks s ++ breaks ∧ (∀ c ∈ breaks.toList, c = '\n') ∧
      ∀ c ∈ (dropLastBreaks s).toList.getLast?, c ≠ '\n' := by
  have hsplit : s.toList = (s.toList.reverse.dropWhile (· == '\n')).reverse ++
      (s.toList.reverse.takeWhile (· == '\n')).reverse := by
    rw [← List.reverse_append, List.takeWhile_append_dropWhile, List.reverse_reverse]
  refine ⟨String.ofList (s.toList.reverse.takeWhile (· == '\n')).reverse, ?_, ?_, ?_⟩
  · rw [dropLastBreaks, ← String.ofList_append, ← hsplit, String.ofList_toList]
  · intro c hc
    rw [String.toList_ofList, List.mem_reverse] at hc
    have := List.all_takeWhile (p := (· == '\n')) (l := s.toList.reverse)
    simpa using List.all_eq_true.1 this c hc
  · intro c hc
    rw [dropLastBreaks, String.toList_ofList, List.getLast?_reverse] at hc
    have := List.head?_dropWhile_not (· == '\n') s.toList.reverse
    rw [hc] at this
    simpa using this

variable {settings : Settings} {filename : String} {st st' : Lowering.State}

/-- The state in which a site leaves the lowering. -/
def afterSite (filename : String) (s : Site) (x : Except (ParseError ⊕ LoweringError) String)
    (st : Lowering.State) : Lowering.State :=
  match x with
  | .ok _ => st
  | .error e => leave filename s e st

theorem Lowers.cons {s : Site} {x : Except (ParseError ⊕ LoweringError) String} {st₁ : Lowering.State}
    {rest : List Result} (h : Yields (lowerSite settings s) st x st₁)
    (hrest : Lowers settings filename (afterSite filename s x st₁) rest st') :
    Lowers settings filename st ((s, x) :: rest) st' := by
  unfold lowerSite at h
  split at h
  · rename_i e hcontent
    obtain ⟨rfl, rfl⟩ := Yields.pure_iff.1 h
    exact .unread hcontent hrest
  · rename_i sink block hcontent
    rw [Yields.get_bind_iff] at h
    split at h
    · rename_i e s₁ hrun
      obtain ⟨_, s₂, hset, hy⟩ := Yields.bind_iff.1 h
      obtain rfl := Yields.set_iff.1 hset
      obtain ⟨rfl, rfl⟩ := Yields.pure_iff.1 hy
      exact .refused hcontent hrun hrest
    · obtain ⟨_, _, -, hthrow⟩ := Yields.bind_iff.1 h
      exact absurd hthrow Yields.not_throw
    · rename_i r s₁ hrun
      obtain ⟨_, s₂, hset, hy⟩ := Yields.bind_iff.1 h
      obtain rfl := Yields.set_iff.1 hset
      split at hy
      · rename_i text htext
        obtain ⟨rfl, rfl⟩ := Yields.pure_iff.1 hy
        obtain ⟨breaks, heq, hbreaks, hlast⟩ := dropLastBreaks_spec text
        exact .lowered hcontent hrun (heq ▸ htext) hbreaks hlast hrest
      · exact absurd hy Yields.not_throw

/-- The report of a site that is left as it is. -/
def reportOf (filename : String) (r : Result) : Option Diagnostic :=
  match r.2 with
  | .ok _ => none
  | .error e => some (siteReport filename e)

/-- Each site gets a patch, and those that are left as they are get a report. -/
theorem lowerSites_spec {sites : List Site} {patches : List Patch} {reports : List Diagnostic}
    (h : Yields (lowerSites settings filename cs sites) st (patches, reports) st') :
    ∃ results, results.map Prod.fst = sites ∧ Lowers settings filename st results st' ∧
      patches = results.map (patchOf cs) ∧ reports = results.filterMap (reportOf filename) := by
  induction sites generalizing st patches reports with
  | nil =>
    obtain ⟨heq, rfl⟩ := Yields.pure_iff.1 h
    cases heq
    exact ⟨[], rfl, .nil, rfl, rfl⟩
  | cons s sites ih =>
    rw [lowerSites] at h
    obtain ⟨x, s₁, hx, hy⟩ := Yields.bind_iff.1 h
    cases x with
    | ok text =>
      rw [Yields.pure_bind_iff] at hy
      obtain ⟨⟨patches', reports'⟩, s₂, hmore, hy⟩ := Yields.bind_iff.1 hy
      obtain ⟨heq, rfl⟩ := Yields.pure_iff.1 hy
      cases heq
      obtain ⟨results, rfl, hlowers, rfl, rfl⟩ := ih hmore
      exact ⟨(s, .ok text) :: results, rfl, .cons hx hlowers, rfl, rfl⟩
    | error e =>
      obtain ⟨_, s₂, hwarn, hy⟩ := Yields.bind_iff.1 hy
      obtain rfl := Yields.modify_iff.1 hwarn
      rw [Yields.pure_bind_iff] at hy
      obtain ⟨⟨patches', reports'⟩, s₃, hmore, hy⟩ := Yields.bind_iff.1 hy
      obtain ⟨heq, rfl⟩ := Yields.pure_iff.1 hy
      cases heq
      obtain ⟨results, rfl, hlowers, rfl, rfl⟩ := ih hmore
      exact ⟨(s, .error e) :: results, rfl, .cons hx hlowers, rfl, rfl⟩

/-! ### A whole module -/

/-- A phase changes the trace only. -/
theorem phase_yields {α : Type} {name detail : String} {step : Expand α} {a : α}
    (h : Yields (phase name detail step) st a st') :
    ∃ t₁ st₁ t₂, Yields step { st with trace := t₁ } a st₁ ∧ st' = { st₁ with trace := t₂ } := by
  obtain ⟨_, s₁, hstart, hy⟩ := Yields.bind_iff.1 h
  obtain rfl := Yields.modify_iff.1 hstart
  obtain ⟨b, s₂, hstep, hy⟩ := Yields.bind_iff.1 hy
  obtain ⟨_, s₃, hend, hy⟩ := Yields.bind_iff.1 hy
  obtain rfl := Yields.modify_iff.1 hend
  obtain ⟨rfl, rfl⟩ := Yields.pure_iff.1 hy
  exact ⟨_, s₂, _, hstep, rfl⟩

variable {code joined : String} {sites : List Site} {reports : List Diagnostic}

/-- The sites of a module are located, lowered one by one and put in place; the rest changes the trace
only. -/
theorem lowerModule_steps (h : Yields (lowerModule settings filename code tokens) st (sites, joined, reports) st') :
    locateSitesOf settings.blockKeyword (.ofTokens tokens) = .ok sites ∧
      ∃ results trace trace' st₁, results.map Prod.fst = sites ∧
        Lowers settings filename { st with trace := trace } results st₁ ∧
        st' = { st₁ with trace := trace' } ∧
        joined = String.ofList (splice code.toList 0 (results.map (patchOf code.toList))) ∧
        reports = results.filterMap (reportOf filename) := by
  obtain ⟨ss, s₁, hphase, hy⟩ := Yields.bind_iff.1 h
  obtain ⟨t₁, s₂, t₂, hlocate, rfl⟩ := phase_yields hphase
  split at hlocate
  · rename_i found hfound
    obtain ⟨rfl, rfl⟩ := Yields.pure_iff.1 hlocate
    obtain ⟨⟨patches, reports'⟩, s₃, hphase', hy⟩ := Yields.bind_iff.1 hy
    obtain ⟨heq, rfl⟩ := Yields.pure_iff.1 hy
    cases heq
    obtain ⟨t₃, s₄, t₄, hlower, rfl⟩ := phase_yields hphase'
    obtain ⟨results, hsites, hlowers, rfl, rfl⟩ := lowerSites_spec hlower
    exact ⟨hfound, results, t₃, t₄, s₄, hsites, hlowers, rfl, rfl, rfl⟩
  · exact absurd hlocate Yields.not_throw

theorem lowerModule_spec (h : Yields (lowerModule settings filename code tokens) st (sites, joined, reports) st') :
    locateSitesOf settings.blockKeyword (.ofTokens tokens) = .ok sites ∧
      ∃ results trace st₁, results.map Prod.fst = sites ∧
        Lowers settings filename { st with trace := trace } results st₁ ∧
        joined = String.ofList (splice code.toList 0 (results.map (patchOf code.toList))) ∧
        reports = results.filterMap (reportOf filename) := by
  obtain ⟨hlocate, results, trace, _, st₁, hsites, hlowers, -, hjoined, hreports⟩ := lowerModule_steps h
  exact ⟨hlocate, results, trace, st₁, hsites, hlowers, hjoined, hreports⟩

theorem addGuardImport_code {p : String × List Diagnostic}
    (h : Yields (addGuardImport filename joined) st p st') :
    p.1 = joined ∨ ∃ callee, Prologue.insertAfterPrologue (guardImport callee) joined = .ok p.1 := by
  rw [addGuardImport, Yields.get_bind_iff] at h
  dsimp only at h
  split at h
  · obtain ⟨rfl, -⟩ := Yields.pure_iff.1 h
    exact .inl rfl
  · rename_i callee _
    split at h
    · rename_i code' hinsert
      obtain ⟨rfl, -⟩ := Yields.pure_iff.1 h
      exact .inr ⟨callee, hinsert⟩
    · obtain ⟨rfl, -⟩ := Yields.pure_iff.1 h
      exact .inl rfl
    · exact absurd h Yields.not_throw

/-- The code of an expansion is the text with the lowered sites in place, or that text with an import. -/
theorem expandTokens_code {check : ModuleCheck} {e : Expansion} {st₂ : Lowering.State}
    (h : Yields (lowerModule settings filename code tokens) st (sites, joined, reports) st')
    (he : Yields (expandTokens settings check filename code tokens) st e st₂) :
    e.code = joined ∨ reports = [] ∧ ∃ callee,
      Prologue.insertAfterPrologue (guardImport callee) joined = .ok e.code := by
  obtain ⟨x, s₁, hx, hy⟩ := Yields.bind_iff.1 he
  have heq := h.symm.trans hx
  cases heq
  rw [Yields.get_bind_iff] at hy
  dsimp only at hy
  split at hy
  · obtain ⟨p, s₂, hp, hy⟩ := Yields.bind_iff.1 hy
    obtain ⟨rfl, rfl⟩ := Yields.pure_iff.1 hp
    exact .inl (Always.ite (P := fun e => e.code = joined)
      (fun _ => .after fun _ => .after fun _ => .pure rfl)
      (fun _ => .after fun _ => .after fun _ => .pure rfl) hy)
  · rename_i hguard
    obtain ⟨p, s₂, hp, hy⟩ := Yields.bind_iff.1 hy
    have hcode : e.code = p.1 := Always.ite (P := fun e => e.code = p.1)
      (fun _ => .after fun _ => .after fun _ => .pure rfl)
      (fun _ => .after fun _ => .after fun _ => .pure rfl) hy
    have hreports : reports = [] := by
      simp only [Bool.or_eq_true, not_or, Bool.not_eq_true, Bool.not_eq_false'] at hguard
      exact List.isEmpty_iff.1 hguard.2
    rw [hcode]
    rcases addGuardImport_code hp with hsame | ⟨callee, hinsert⟩
    · exact .inl hsame
    · exact .inr ⟨hreports, callee, hinsert⟩

/-- The result is an error. -/
def Result.failed (r : Result) : Bool :=
  match r.2 with
  | .ok _ => false
  | .error _ => true

theorem lowered_of_failed (h : ∀ r ∈ results, r.failed = true) :
    lowered results = [] := by
  induction results with
  | nil => rfl
  | cons r results ih =>
    rw [List.forall_mem_cons] at h
    obtain ⟨s, x⟩ := r
    cases x with
    | ok text => cases h.1
    | error e => exact ih h.2

theorem failed_of_reportOf (h : results.filterMap (reportOf filename) = []) :
    ∀ r ∈ results, r.failed = false := by
  intro r hr
  have := List.filterMap_eq_nil_iff.1 h r hr
  obtain ⟨s, x⟩ := r
  cases x with
  | ok text => rfl
  | error e => cases this

theorem joined_eq_of_failed (h : Replaced 0 (lowered results) code.toList cs)
    (hfailed : ∀ r ∈ results, r.failed = true) :
    String.ofList cs = code := by
  rw [lowered_of_failed hfailed] at h
  rw [h.eq_of_nil, String.ofList_toList]

/-- An expansion replaces the ranges of the lowered sites and keeps every other character, exactly if
no two blocks stand in one statement. A site with an error stays as it is. -/
theorem lowerModule_replaces_iff (hread : (Lexer.tokenize code).fault = none)
    (h : Yields (lowerModule settings filename code (Lexer.tokenize code).tokens) st
      (sites, joined, reports) st') :
    locateSites settings.blockKeyword code = .ok sites ∧
      ∃ results trace st₁, results.map Prod.fst = sites ∧
        Lowers settings filename { st with trace := trace } results st₁ ∧
        (Replaced 0 (lowered results) code.toList joined.toList ↔ (sites.map Site.start).Nodup) ∧
        ((sites.map Site.start).Nodup → (∀ r ∈ results, r.failed = true) → joined = code) ∧
        ∀ check e st₂,
          Yields (expandTokens settings check filename code (Lexer.tokenize code).tokens) st e st₂ →
            e.code = joined ∨ (∀ r ∈ results, r.failed = false) ∧
              ∃ callee, Prologue.insertAfterPrologue (guardImport callee) joined = .ok e.code := by
  have hscript : Script.ofText code = .ok (.ofTokens (Lexer.tokenize code).tokens) := by
    simp [Script.ofText, hread]
  obtain ⟨hlocate, results, trace, st₁, hresults, hlowers, hjoined, hreports⟩ := lowerModule_spec h
  have hiff : Replaced 0 (lowered results) code.toList joined.toList ↔ (sites.map Site.start).Nodup := by
    obtain ⟨line, hlocated⟩ := locateSitesOf_located hscript hlocate
    rw [← hresults] at hlocated ⊢
    rw [hjoined, String.toList_ofList]
    exact splice_replaced_iff hlocated
  refine ⟨?_, results, trace, st₁, hresults, hlowers, hiff, ?_, ?_⟩
  · rw [locateSites, hscript]
    exact hlocate
  · intro hnodup hfailed
    have := joined_eq_of_failed (hiff.2 hnodup) hfailed
    rwa [String.ofList_toList] at this
  · intro check e st₂ he
    rcases expandTokens_code h he with hsame | ⟨hnone, hinsert⟩
    · exact .inl hsame
    · exact .inr ⟨failed_of_reportOf (hreports.symm.trans hnone), hinsert⟩

/-- One site is lowered, and one inside a call stays as it is. -/
theorem lowerModule_replaces_iff_mixed :
    ∃ sites joined reports st',
      Yields (lowerModule .default "m.py" "x = do \x7b 1 \x7d\ny = f(do \x7b 2 \x7d)\n"
        (Lexer.tokenize "x = do \x7b 1 \x7d\ny = f(do \x7b 2 \x7d)\n").tokens)
        (.initial (freshNames .default)) (sites, joined, reports) st' ∧
      joined = "x = 1\ny = f(do \x7b 2 \x7d)\n" ∧ reports.length = 1 ∧
      ∃ results : List Result, results.map Prod.fst = sites ∧
        Replaced 0 (lowered results) "x = do \x7b 1 \x7d\ny = f(do \x7b 2 \x7d)\n".toList
          joined.toList := by
  obtain ⟨⟨sites, joined, reports⟩, st', hy, hrun⟩ := exists_yields_of_passes
    (show passes (lowerModule .default "m.py" "x = do \x7b 1 \x7d\ny = f(do \x7b 2 \x7d)\n"
      (Lexer.tokenize "x = do \x7b 1 \x7d\ny = f(do \x7b 2 \x7d)\n").tokens) (.initial (freshNames .default))
      (fun r _ => (r.1.map Site.start == [0, 13]) && r.2.1 == "x = 1\ny = f(do \x7b 2 \x7d)\n" &&
        r.2.2.length == 1) = true by decide +kernel)
  simp only [Bool.and_eq_true, beq_iff_eq] at hrun
  obtain ⟨⟨hstarts, hjoined⟩, hreports⟩ := hrun
  obtain ⟨-, results, _, _, hsites, -, hiff, -, -⟩ := lowerModule_replaces_iff (by decide +kernel) hy
  exact ⟨sites, joined, reports, st', hy, hjoined, hreports, results, hsites,
    hiff.2 (by rw [hstarts]; decide)⟩

/-- Two blocks in one statement: neither can be read, and the statement comes out one and a half times. -/
theorem lowerModule_repeats_statement :
    ∃ sites joined reports st',
      Yields (lowerModule .default "m.py" "a = do \x7b 1 \x7d, do \x7b 2 \x7d\n"
        (Lexer.tokenize "a = do \x7b 1 \x7d, do \x7b 2 \x7d\n").tokens)
        (.initial (freshNames .default)) (sites, joined, reports) st' ∧
      (∀ s ∈ sites, s.content.isOk = false) ∧
      joined = "a = do \x7b 1 \x7da = do \x7b 1 \x7d, do \x7b 2 \x7d\n" := by
  obtain ⟨⟨sites, joined, reports⟩, st', hy, hrun⟩ := exists_yields_of_passes
    (show passes (lowerModule .default "m.py" "a = do \x7b 1 \x7d, do \x7b 2 \x7d\n"
      (Lexer.tokenize "a = do \x7b 1 \x7d, do \x7b 2 \x7d\n").tokens) (.initial (freshNames .default))
      (fun r _ => (r.1.all fun s => !s.content.isOk) &&
        r.2.1 == "a = do \x7b 1 \x7da = do \x7b 1 \x7d, do \x7b 2 \x7d\n") = true by decide +kernel)
  simp only [Bool.and_eq_true, beq_iff_eq, List.all_eq_true, Bool.not_eq_true'] at hrun
  exact ⟨sites, joined, reports, st', hy, hrun.1, hrun.2⟩

end DoBlocks.Expansion
