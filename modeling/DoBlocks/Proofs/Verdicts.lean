import DoBlocks.Proofs.Batches

/-!
# A check foretells an expansion

Checking files and expanding them are two commands over the same files. As long as no output goes where
another source file is, each file reads the same in both, so the first file that ends one command ends the
other, and if none does, the same files fail. Nothing is asked of the outputs but that they can be written.
-/

namespace DoBlocks

namespace FileTree

variable {t t' : FileTree} {l taken parts : List String} {p : TreePath}

/-! ### Where paths lead -/

theorem eq_append_of_walk (h : ".." ∉ parts) (hwalk : t.walk taken parts = .ok l) : l = taken ++ parts := by
  induction parts generalizing taken with
  | nil =>
    cases hwalk
    exact (List.append_nil _).symm
  | cons part parts ih =>
    obtain ⟨hpart, hparts⟩ := (by simpa using h : ".." ≠ part ∧ ".." ∉ parts)
    rw [walk] at hwalk
    split at hwalk
    · rw [if_pos (by simpa using hpart.symm)] at hwalk
      simpa using ih hparts hwalk
    · cases hwalk

theorem resolveParts_of_walk (h : t.walk taken parts = .ok l) :
    TreePath.resolveParts taken.reverse parts = some l := by
  induction parts generalizing taken with
  | nil =>
    cases h
    rw [TreePath.resolveParts, List.reverse_reverse]
  | cons part parts ih =>
    rw [walk] at h
    split at h
    · split at h
      · rename_i hpart
        have hstep : TreePath.resolveParts taken.reverse (part :: parts) =
            TreePath.resolveParts (part :: taken.reverse) parts :=
          TreePath.resolveParts.eq_4 _ _ _ (by simpa using hpart)
        rw [hstep, ← ih h, List.reverse_append]
        rfl
      · rename_i hpart
        obtain rfl : part = ".." := by simpa using hpart
        split at h
        · cases h
        · rename_i hne
          obtain ⟨init, last, rfl⟩ := (List.eq_nil_or_concat' taken).resolve_left (by simpa using hne)
          rw [List.dropLast_concat] at h
          rw [List.reverse_append]
          exact ih h
    · cases h

/-- A path that leads to a place resolves to it. -/
theorem resolve?_of_locate (h : t.locate p = .ok l) : p.resolve? = some l := by
  obtain ⟨hroot, hwalk⟩ := locate_eq_ok.1 h
  rw [TreePath.resolve?, if_pos hroot]
  exact resolveParts_of_walk hwalk

theorem exists_locate_of_append (h : ".." ∉ parts) (hl : t.locate (p.append parts) = .ok l) :
    ∃ o, p.resolve? = some o ∧ l = o ++ parts := by
  obtain ⟨hroot, hwalk⟩ := locate_eq_ok.1 hl
  rw [TreePath.append, walk_append] at hwalk
  cases ho : t.walk [] p.parts with
  | error f =>
    rw [ho] at hwalk
    cases hwalk
  | ok o =>
    rw [ho] at hwalk
    exact ⟨o, resolve?_of_locate (locate_eq_ok.2 ⟨hroot, ho⟩), eq_append_of_walk h hwalk⟩

/-! ### Operations that succeed -/

theorem keeps_of_makeDirectory (h : t.makeDirectory p = .ok t') : Keeps t t' := by
  cases hl : t.locate p with
  | error e =>
    rw [makeDirectory, hl] at h
    cases h
  | ok l =>
    rw [makeDirectory_eq hl] at h
    split at h
    · cases h
    · rename_i hnone
      cases h
      exact keeps_set_directory (by simp_all)

theorem keeps_of_ensureDirectory (h : t.ensureDirectory p = .ok t') : Keeps t t' := by
  unfold ensureDirectory at h
  split at h
  · rename_i hmake
    cases h
    exact keeps_of_makeDirectory hmake
  · split at h <;> cases h
    exact .refl t

theorem keeps_of_ensureAlong {root : String} {outer : List String} (h : t.ensureAlong root outer = .ok t') :
    Keeps t t' := by
  induction outer generalizing t' with
  | nil => exact keeps_of_ensureDirectory h
  | cons last outer ih =>
    rw [ensureAlong] at h
    split at h
    · rename_i hmake
      cases h
      exact keeps_of_makeDirectory hmake
    · cases hrest : t.ensureAlong root outer with
      | error e =>
        rw [hrest] at h
        cases h
      | ok t₁ =>
        rw [hrest] at h
        exact (ih hrest).trans (keeps_of_ensureDirectory h)
    · split at h <;> cases h
      exact .refl t

/-- Whatever was there is still there, files at the place of the path apart. -/
structure Overlays (p : TreePath) (t t' : FileTree) : Prop where
  directory : ∀ {l}, t.isDirectory l = true → t'.isDirectory l = true
  file : ∀ l, t'.locate p ≠ .ok l → t'.file? l = t.file? l

theorem overlays_of_write {t₁ : FileTree} {c : FileContent} (hmake : t.ensureDirectories p.parent = .ok t₁)
    (hwrite : t₁.write p c = .ok t') : Overlays p t t' := by
  have hkeeps := keeps_of_ensureAlong hmake
  cases hl : t₁.locate p with
  | error e =>
    rw [write, hl] at hwrite
    cases hwrite
  | ok l =>
    rw [write_eq hl] at hwrite
    split at hwrite
    · cases hwrite
    · rename_i hdir
      cases hwrite
      have hkept {l' : List String} (h : t₁.isDirectory l' = true) : (t₁.set l (.file c)).isDirectory l' = true :=
        isDirectory_set_of_ne h fun heq => hdir (heq ▸ h)
      refine ⟨fun h => hkept (hkeeps.directory h), fun l' hne => ?_⟩
      have hlocate := locate_congr hkept hl
      have hother : l' ≠ l := by
        rintro rfl
        exact hne hlocate
      rw [file?_set, if_neg hother, hkeeps.file]

end FileTree

namespace Session

variable {checker : Checker} {settings : Settings} {tree : FileTree} {s s' : Session} {p target : TreePath}
  {α β : Type}
variable {m : Run α} {f : α → Run β} {input out : TreePath}

/-! ### One file -/

/-- A file without an outcome ends the command. -/
theorem expandSource_ends {a : Abort} (h : outcomeOf checker settings s.tree p = .error a) :
    outcome (expandSource checker settings p) s = (.error a, s) := by
  unfold outcomeOf at h
  cases hread : s.tree.read p with
  | error e =>
    rw [hread] at h
    cases h
  | ok c =>
    rw [hread] at h
    dsimp only at h
    cases hcode : c.text? with
    | none =>
      rw [hcode] at h
      cases h
      refine outcome_bind_error ?_
      rw [readSource, outcome_bind_ok (Yields.get_iff.2 ⟨rfl, rfl⟩), hread]
      dsimp only
      rw [hcode]
      rfl
    | some code =>
      rw [hcode] at h
      rw [expandSource, outcome_bind_ok (readSource_yields hread hcode)]
      dsimp only at h ⊢
      cases hrun : (Expansion.run settings (.host settings checker) (Expansion.freshNames settings) p.render code).1 with
      | error e =>
        rw [hrun] at h
        cases h
        rfl
      | ok e =>
        rw [hrun] at h
        cases h

/-- No write failed. -/
def Completes (m : Run α) (s : Session) : Prop := ∀ e, (outcome m s).1 ≠ .error (.files e)

theorem Completes.first (h : Completes (m >>= f) s) : Completes m s := by
  intro e he
  refine h e ?_
  rw [outcome_bind_error (s := (outcome m s).2) (Prod.ext he rfl)]

theorem Completes.rest {a : α} (h : Completes (m >>= f) s) (hm : Yields m s a s') :
    Completes (f a) s' := by
  intro e
  rw [← outcome_bind_ok hm]
  exact h e

theorem onTree_fails {f : FileTree → Except FileError FileTree} {e : FileError} (h : f s.tree = .error e) :
    Yields (onTree f) s (.error e) s := by
  refine Yields.get_bind_iff.2 ?_
  rw [h]
  exact Yields.pure_iff.2 ⟨rfl, rfl⟩

theorem exists_write_of_completes {c : String} (h : Completes (deliverCode p c (some target)) s) :
    ∃ t₁ t', s.tree.ensureDirectories target.parent = .ok t₁ ∧ t₁.write target (.ofText c) = .ok t' := by
  have hsave {e : FileError} {s' : Session} (hy : Yields (save target (.ofText c)) s (.error e) s') : False := by
    refine h e ?_
    rw [deliverCode, outcome_bind_ok hy]
    rfl
  cases hmake : s.tree.ensureDirectories target.parent with
  | error e => exact (hsave ((onTree_fails hmake).bind (Yields.pure_iff.2 ⟨rfl, rfl⟩))).elim
  | ok t₁ =>
    cases hwrite : t₁.write target (.ofText c) with
    | error e => exact (hsave ((onTree_yields hmake).bind (onTree_fails hwrite))).elim
    | ok t' => exact ⟨t₁, t', rfl, hwrite⟩

/-- Two steps end by the same abort, or both succeed with results and sessions that stand in `P`. -/
def Agree (m : Run α) (n : Run β) (s s' : Session) (P : α → β → Session → Session → Prop) : Prop :=
  (∃ a t t', outcome m s = (.error a, t) ∧ outcome n s' = (.error a, t')) ∨
    ∃ x y t t', outcome m s = (.ok x, t) ∧ outcome n s' = (.ok y, t') ∧ P x y t t'

/-- A file is checked as it is expanded, and nothing is written but its output. -/
theorem file_agrees (count : CheckCount)
    (hsame : outcomeOf checker settings s.tree p = outcomeOf checker settings s'.tree p)
    (hc : Completes (expandFile checker settings p (some target) none) s') :
    Agree (checkFile checker settings count p) (expandFile checker settings p (some target) none) s s'
      fun count' r t t' => count'.failed = count.failed + (if r.succeeded then 0 else 1) ∧ t.tree = s.tree ∧
        t'.printed = s'.printed ∧ FileTree.Overlays target s'.tree t'.tree := by
  cases hout : outcomeOf checker settings s'.tree p with
  | error a =>
    exact .inl ⟨a, s, s', outcome_bind_error (expandSource_ends (hsame.trans hout)), outcome_bind_error (expandSource_ends hout)⟩
  | ok r =>
    have hcount := congrArg (fun b => count.failed + if b then 0 else 1) (succeeded_resultOf r).symm
    cases hpass : passed r with
    | false =>
      exact .inr ⟨_, _, _, _, checkFile_yields (hsame.trans hout), expandFile_yields_failed hout hpass, hcount, rfl, rfl,
        id, fun _ _ => rfl⟩
    | true =>
      obtain ⟨e, rfl, he⟩ := (Option.any_eq_true _ _).1 hpass
      have hrest := hc.rest (expandSource_yields hout)
      dsimp only at hrest
      rw [if_pos he] at hrest
      obtain ⟨t₁, t', hmake, hwrite⟩ := exists_write_of_completes (hrest.rest (Yields.pure_iff.2 ⟨rfl, rfl⟩)).first
      exact .inr ⟨_, _, _, _, checkFile_yields (hsame.trans hout), expandFile_yields_passed hout he hmake hwrite, hcount,
        rfl, rfl, FileTree.overlays_of_write hmake hwrite⟩

/-! ### Many files -/

/-- No output below `out` goes where another source file below `input` is. -/
def Apart (tree : FileTree) (input out : TreePath) : Prop :=
  ∀ place o, tree.locate? input = some place → out.resolve? = some o →
    ∀ parts ∈ tree.named place sourceSuffix, ∀ parts' ∈ tree.named place sourceSuffix,
      o ++ parts = place ++ parts' → parts = parts'

/-- Files went nowhere but where the outputs of `done` go, and nothing was printed. -/
structure Ahead (tree : FileTree) (out : TreePath) (done : List (List String)) (s : Session) : Prop where
  directory : ∀ {l}, tree.isDirectory l = true → s.tree.isDirectory l = true
  file : ∀ l, (∀ o, out.resolve? = some o → ∀ parts ∈ done, l ≠ o ++ parts) → s.tree.file? l = tree.file? l
  printed : s.printed = []

/-- One file of a batch, with its name for the report. -/
def fileStep (checker : Checker) (settings : Settings) (input out : TreePath) (parts : List String) :
    Run (String × FileResult) := do
  let r ← expandFile checker settings (input.append parts) (some (out.append parts)) none
  return ("/".intercalate parts, r)

section Batch

variable {input out : TreePath} {place parts : List String} {done : List (List String)}

theorem Ahead.step (h : Ahead tree out done s) (hparts : ".." ∉ parts) (hprinted : s'.printed = s.printed)
    (ho : FileTree.Overlays (out.append parts) s.tree s'.tree) : Ahead tree out (done ++ [parts]) s' where
  directory hl := ho.directory (h.directory hl)
  file l hl := by
    rw [ho.file l, h.file l fun o ho parts' hmem => hl o ho parts' (List.mem_append_left _ hmem)]
    intro hlocate
    obtain ⟨o, ho, rfl⟩ := FileTree.exists_locate_of_append hparts hlocate
    exact hl o ho parts (List.mem_append_right _ (.head _)) rfl
  printed := hprinted.trans h.printed

variable (ht : tree.Proper) (hplace : tree.locate input = .ok place) (hout : Apart tree input out)

include ht hplace hout in
theorem files_agree {rest : List (List String)} {count : CheckCount} (hs : s.tree = tree)
    (hfiles : tree.named place sourceSuffix = done ++ rest) (ha : Ahead tree out done s')
    (hc : Completes (rest.mapM (fileStep checker settings input out)) s') :
    Agree ((rest.map input.append).foldlM (checkFile checker settings) count)
      (rest.mapM (fileStep checker settings input out)) s s'
      fun count' results _ t' => count'.failed = count.failed + results.countP (fun r => !r.2.succeeded) ∧
        t'.printed = [] := by
  induction rest generalizing done s s' count with
  | nil => exact .inr ⟨count, [], s, s', rfl, rfl, rfl, ha.printed⟩
  | cons parts rest ih =>
    have hnodup := tree.nodup_named place sourceSuffix
    rw [hfiles] at hnodup
    have hparts : parts ∈ tree.named place sourceSuffix := hfiles ▸ List.mem_append_right _ (.head _)
    have hnew : parts ∉ done := fun hmem => List.disjoint_of_nodup_append hnodup hmem (.head _)
    have hfile : s'.tree.file? (place ++ parts) = tree.file? (place ++ parts) := by
      refine ha.file _ fun o ho parts' hmem heq => hnew ?_
      rwa [← hout place o (FileTree.locate?_eq_some.2 hplace) ho parts' (hfiles ▸ List.mem_append_left _ hmem) parts
        hparts heq.symm]
    have hsame : outcomeOf checker settings _ _ = _ := outcomeOf_congr (read_named_congr ht hplace hparts ha.directory hfile)
    rw [List.mapM_cons] at hc ⊢
    rw [List.map_cons, List.foldlM_cons]
    obtain ⟨a, t, t', hcheck, hexpand⟩ | ⟨count', r, t, t', hcheck, hexpand, hcount, htree, hprinted, hover⟩ :=
      file_agrees count (hs ▸ hsame.symm) hc.first.first
    · exact .inl ⟨a, t, t', outcome_bind_error hcheck, outcome_bind_error (outcome_bind_error hexpand)⟩
    have hstep : Yields (fileStep checker settings input out parts) s' ("/".intercalate parts, r) t' :=
      outcome_bind_ok hexpand
    rw [Agree, outcome_bind_ok hcheck, outcome_bind_ok hstep]
    obtain ⟨a, u, u', hchecks, hexpands⟩ | ⟨count'', results, u, u', hchecks, hexpands, hcount', hprinted'⟩ :=
      ih (htree.trans hs) (by simpa using hfiles) (ha.step (ht.notMem_of_named hparts) hprinted hover) (hc.rest hstep).first
    · exact .inl ⟨a, u, u', hchecks, outcome_bind_error hexpands⟩
    refine .inr ⟨count'', _, u, u', hchecks, outcome_bind_ok hexpands, ?_, hprinted'⟩
    rw [hcount', hcount, List.countP_cons]
    cases r.succeeded <;> simp
    omega

/-- How many files a printed report lists. -/
def reported (printed : List Printed) : Nat :=
  (printed.map fun
    | .table _ _ rows => rows.length
    | .text _ => 0).sum

theorem summarise_reports (results : List (String × FileResult)) (hs : s.printed = []) :
    ∃ s', Yields (summarise results) s () s' ∧ reported s'.printed = results.countP fun r => !r.2.succeeded := by
  unfold summarise
  rw [List.countP_eq_length_filter]
  dsimp only
  split
  · rename_i h
    refine ⟨_, tell_yields _, ?_⟩
    rw [List.isEmpty_iff.1 h, noting, hs]
    rfl
  · refine ⟨_, Yields.bind_iff.2 ⟨(), _, Yields.modify_iff.2 rfl, Yields.modify_iff.2 rfl⟩, ?_⟩
    simp [reported, hs]

/-- Checking, once the files are known. -/
def checkFiles (checker : Checker) (settings : Settings) (input : TreePath) (files : List TreePath) : Run Nat := do
  if files.isEmpty then
    tell (.warning s!"No .py files found in {input.render}")
    return 0
  let count ← files.foldlM (checkFile checker settings) {}
  if count.failed == 0 then
    tell (.success s!"Checked {files.length} file(s), {count.sites} extended block(s).")
    return 0
  tell (.error s!"{count.failed} of {files.length} file(s) have problems.")
  return 1

/-- Expanding, once the files are known. -/
def expandFiles (checker : Checker) (settings : Settings) (input out : TreePath) (files : List (List String)) :
    Run Nat := do
  if files.isEmpty then
    tell (.warning s!"No .py files found in {input.render}")
    return 0
  tell (opening input files.length)
  let results ← files.mapM (fileStep checker settings input out)
  summarise results
  return if results.all fun r => r.2.succeeded then 0 else 1

include ht hplace hout in
theorem batch_agrees (hs : s.tree = tree) (hprinted : s.printed = [])
    (hc : Completes (expandFiles checker settings input out (tree.named place sourceSuffix)) s) :
    Agree (checkFiles checker settings input ((tree.named place sourceSuffix).map input.append))
      (expandFiles checker settings input out (tree.named place sourceSuffix)) s s fun code code' t t' => code = code' ∧
        ∃ count, t.log.getLast? = some (verdict input (tree.named place sourceSuffix).length count) ∧
          reported t'.printed = count.failed := by
  subst hs
  rw [checkFiles, expandFiles] at *
  generalize hfiles : s.tree.named place sourceSuffix = files at *
  cases files with
  | nil =>
    refine .inr ⟨0, 0, _, _, (tell_yields _).bind rfl, (tell_yields _).bind rfl, rfl, {}, ?_, ?_⟩
    · rw [noting, List.getLast?_concat]
      rfl
    · rw [noting, hprinted]
      rfl
  | cons parts rest =>
    have hahead : Ahead s.tree out [] (s.noting [opening input (parts :: rest).length] []) := ⟨id, fun _ _ => rfl, hprinted⟩
    have hwrite := hc.rest (tell_yields _)
    rw [if_neg (by simp), if_neg (by simp), Agree, outcome_bind_ok (tell_yields _)]
    obtain ⟨a, t, t', hchecks, hexpands⟩ | ⟨count, results, t, t', hchecks, hexpands, hcount, hprinted⟩ :=
      files_agree ht hplace hout rfl hfiles hahead hwrite.first
    · exact .inl ⟨a, t, t', outcome_bind_error hchecks, outcome_bind_error hexpands⟩
    rw [outcome_bind_ok hchecks, outcome_bind_ok hexpands]
    obtain ⟨u', hsummary, hreported⟩ := summarise_reports results hprinted
    rw [Nat.zero_add] at hcount
    have hall : results.all (fun r => r.2.succeeded) = true ↔ count.failed = 0 := by
      rw [hcount, List.countP_eq_zero]
      simp
    have hlast (line : LogLine) : (t.noting [line] []).log.getLast? = some line := List.getLast?_concat
    by_cases hzero : count.failed = 0
    · rw [if_pos (beq_iff_eq.2 hzero)]
      refine .inr ⟨0, _, _, u', (tell_yields _).bind rfl, hsummary.bind rfl, (if_pos (hall.2 hzero)).symm, count, ?_,
        hreported.trans hcount.symm⟩
      rw [hlast, verdict, if_neg (by simp), if_pos hzero, List.length_map]
    · rw [if_neg (mt beq_iff_eq.1 hzero)]
      refine .inr ⟨1, _, _, u', (tell_yields _).bind rfl, hsummary.bind rfl, (if_neg (mt hall.1 hzero)).symm, count, ?_,
        hreported.trans hcount.symm⟩
      rw [hlast, verdict, if_neg (by simp), if_neg hzero, List.length_map]

end Batch

/-! ### The commands -/

theorem get_yields : Yields (get : Run Session) s s s := Yields.get_iff.2 ⟨rfl, rfl⟩

theorem loadSettings_some {overrides : List (String × Datum)}
    (h : Yields (loadSettings input overrides) s (some settings) s') : s' = s := by
  have h := Yields.get_bind_iff.1 h
  dsimp only at h
  split at h
  · exact (Yields.pure_iff.1 h).2
  · obtain ⟨_, _, -, h⟩ := Yields.bind_iff.1 h
    cases (Yields.pure_iff.1 h).1
  · exact (Yields.not_throw h).elim

section Commands

variable {input out : TreePath} {keyword : Option String} {place : List String}

/-- What both commands do first. -/
def start (input : TreePath) (keyword : Option String) (go : Settings → Run Nat) : Run Nat := do
  if !(← get).tree.pathExists input then return ← missingInput input
  match ← loadSettings input (keywordOverride keyword) with
  | none => return 1
  | some settings => go settings

def checkInput (checker : Checker) (input : TreePath) (settings : Settings) : Run Nat := do
  if (← get).tree.pathIsDirectory input then
    checkFiles checker settings input ((← sources input).map input.append)
  else checkFiles checker settings input [input]

def expandInput (checker : Checker) (input out : TreePath) (settings : Settings) : Run Nat := do
  if !(← get).tree.pathIsDirectory input then
    let r ← expandFile checker settings input (some out) none
    return if r.succeeded then 0 else 1
  expandFiles checker settings input out (← sources input)

theorem run_check_eq : run checker tree (.check input keyword) =
    outcome (start input keyword (checkInput checker input)) { tree } := rfl

theorem run_expand_eq : run checker tree (.expand input (some out) true none keyword) =
    outcome (start input keyword (expandInput checker input out)) { tree } := by
  unfold start
  rw [← List.append_nil (keywordOverride keyword)]
  rfl

/-- Either the input or its settings end the command, or the command goes on from the same session. -/
theorem start_cases (input : TreePath) (keyword : Option String) (s : Session) :
    (∃ x s', ∀ go, outcome (start input keyword go) s = (x, s')) ∨
      ∃ settings, ∀ go, outcome (start input keyword go) s = outcome (go settings) s := by
  simp only [start, outcome_bind_ok get_yields]
  split
  · exact .inl ⟨_, _, fun _ => rfl⟩
  · obtain ⟨x, s', hload⟩ : ∃ x s', outcome (loadSettings input (keywordOverride keyword)) s = (x, s') := ⟨_, _, rfl⟩
    match x with
    | .error a => exact .inl ⟨_, _, fun go => outcome_bind_error hload⟩
    | .ok none => exact .inl ⟨_, _, fun go => outcome_bind_ok hload⟩
    | .ok (some settings) =>
      obtain rfl := loadSettings_some hload
      exact .inr ⟨settings, fun go => outcome_bind_ok hload⟩

theorem checkInput_directory (hplace : s.tree.locate? input = some place) (hdir : s.tree.isDirectory place = true) :
    outcome (checkInput checker input settings) s =
      outcome (checkFiles checker settings input ((s.tree.named place sourceSuffix).map input.append)) s := by
  rw [checkInput, outcome_bind_ok get_yields, if_pos (pathIsDirectory_of_locate hplace hdir),
    outcome_bind_ok (sources_yields hplace)]

theorem expandInput_directory (hplace : s.tree.locate? input = some place) (hdir : s.tree.isDirectory place = true) :
    outcome (expandInput checker input out settings) s =
      outcome (expandFiles checker settings input out (s.tree.named place sourceSuffix)) s := by
  rw [expandInput, outcome_bind_ok get_yields, pathIsDirectory_of_locate hplace hdir]
  exact outcome_bind_ok (sources_yields hplace)

theorem start_directory (hplace : s.tree.locate? input = some place) (hdir : s.tree.isDirectory place = true)
    (hload : Settings.load s.tree input (keywordOverride keyword) = .ok settings) (go : Settings → Run Nat) :
    outcome (start input keyword go) s = outcome (go settings) s := by
  have hpath := pathIsDirectory_of_locate hplace hdir
  rw [start, outcome_bind_ok get_yields, if_neg (by simp [pathExists_of_locate hplace hdir]),
    outcome_bind_ok (loadSettings_yields hpath hload)]

section Listed

variable {files : List (List String)} (hplace : tree.locate? input = some place) (hdir : tree.isDirectory place = true)
  (hload : Settings.load tree input (keywordOverride keyword) = .ok settings)
  (hfiles : tree.named place sourceSuffix = files)

include hplace hdir hload hfiles

theorem run_check_listed : run checker tree (.check input keyword) =
    outcome (checkFiles checker settings input (files.map input.append)) { tree } := by
  rw [run_check_eq, start_directory hplace hdir hload, checkInput_directory hplace hdir, hfiles]

theorem run_expand_listed : run checker tree (.expand input (some out) true none keyword) =
    outcome (expandFiles checker settings input out files) { tree } := by
  rw [run_expand_eq, start_directory hplace hdir hload, expandInput_directory hplace hdir, hfiles]

end Listed

theorem input_agrees (ht : s.tree.Proper) (hout : Apart s.tree input out) (hprinted : s.printed = [])
    (hc : Completes (expandInput checker input out settings) s) :
    (outcome (checkInput checker input settings) s).1 = (outcome (expandInput checker input out settings) s).1 := by
  cases hdir : s.tree.pathIsDirectory input with
  | true =>
    obtain ⟨place, hplace, hdir⟩ := (Option.any_eq_true _ _).1 hdir
    rw [Completes, expandInput_directory hplace hdir] at hc
    rw [checkInput_directory hplace hdir, expandInput_directory hplace hdir]
    obtain ⟨a, t, t', hcheck, hexpand⟩ | ⟨code, code', t, t', hcheck, hexpand, rfl, -⟩ :=
      batch_agrees ht (FileTree.locate?_eq_some.1 hplace) hout rfl hprinted hc
    · rw [hcheck, hexpand]
    · exact (congrArg Prod.fst hcheck).trans (congrArg Prod.fst hexpand).symm
  | false =>
    have hc := hc.rest get_yields
    rw [hdir] at hc
    rw [checkInput, expandInput, outcome_bind_ok get_yields, outcome_bind_ok get_yields, hdir, if_neg Bool.false_ne_true]
    obtain ⟨a, t, t', hcheck, hexpand⟩ | ⟨count, r, t, t', hcheck, hexpand, hcount, -⟩ :=
      file_agrees {} rfl hc.first
    · have hfold : outcome ([input].foldlM (checkFile checker settings) {}) s = (.error a, t) := outcome_bind_error hcheck
      exact (congrArg Prod.fst (outcome_bind_error hfold)).trans (congrArg Prod.fst (outcome_bind_error hexpand)).symm
    · have hfold : outcome ([input].foldlM (checkFile checker settings) {}) s = (.ok count, t) := outcome_bind_ok hcheck
      refine Eq.trans ?_ (congrArg Prod.fst (outcome_bind_ok hexpand)).symm
      rw [checkFiles, if_neg (by simp), outcome_bind_ok hfold, hcount]
      cases r.succeeded <;> rfl

end Commands

/-- Nothing goes where a source file is if neither place lies in the other. -/
theorem apart_of_outside {tree : FileTree} {place o : List String} (hplace : tree.locate? input = some place)
    (ho : out.resolve? = some o) (h : ¬ o <+: place) (h' : ¬ place <+: o) :
    Apart tree input out := by
  intro place' o' hplace' ho' parts _ parts' _ heq
  cases hplace.symm.trans hplace'
  cases ho.symm.trans ho'
  obtain hpre | hpre := List.prefix_or_prefix_of_prefix (List.prefix_append o parts) (heq ▸ List.prefix_append place parts')
  · exact (h hpre).elim
  · exact (h' hpre).elim

/-- A file, and one where the output of the first goes. -/
def shadowTree : FileTree :=
  ⟨[(["p", "p", "x.py"], .file (.ofText "x = 1\n")), (["p", "x.py"], .file (.ofText "x = (\n"))]⟩

end Session

end DoBlocks
