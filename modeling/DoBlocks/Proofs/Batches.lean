import Mathlib
import DoBlocks.CommandLine.Session
import DoBlocks.Proofs.Steps
import DoBlocks.Proofs.Trees

/-!
# A batch and its files

Both commands take the source files below a directory one after another. A file that cannot be read counts
as a failed one, like a file with reports, and the rest go on; only a file whose bytes spell no text, or
whose expansion has no outcome, ends the batch. An output is written exactly for the files that pass.
-/

namespace DoBlocks.Session

variable {checker : Checker} {settings : Settings} {tree : FileTree} {s : Session} {p : TreePath}
  {r : Option Expansion}
variable {c : FileContent} {t' t₁ : FileTree} {target : TreePath}

/-! ### One file -/

/-- What a source file of a tree comes to: `none` if it cannot be read. -/
def outcomeOf (checker : Checker) (settings : Settings) (tree : FileTree) (p : TreePath) :
    Except Abort (Option Expansion) :=
  match tree.read p with
  | .error _ => .ok none
  | .ok c =>
    match c.text? with
    | none => .error .undecodable
    | some code =>
      match (Expansion.run settings (.host settings checker) (Expansion.freshNames settings) p.render code).1 with
      | .error e => .error (.expansion e)
      | .ok e => .ok (some e)

/-- The file was expanded and nothing is reported. -/
def passed (r : Option Expansion) : Bool := r.any Expansion.succeeded

/-- What is logged when a file is read and expanded. -/
def sourceLog (tree : FileTree) (p : TreePath) : Option Expansion → List LogLine
  | some e => e.warnings.map .warning
  | none =>
    match tree.read p with
    | .error e => [.error (Markup.escape s!"Failed to read {p.render}: {e.message}")]
    | .ok _ => []

/-- The reports of a file in the log. -/
def reportLog (r : Option Expansion) : List LogLine :=
  (r.elim [] fun e => if e.succeeded then [] else e.errors).map fun m => .error (Markup.escape m)

/-- The calls of the type checker for a file. -/
def callsOf (r : Option Expansion) : List (List String) := r.elim [] fun e => e.call.toList

/-- The session with more in the log and more calls. -/
def noting (s : Session) (lines : List LogLine) (calls : List (List String)) : Session :=
  { s with log := s.log ++ lines, calls := s.calls ++ calls }

theorem noting_noting (s : Session) (lines lines' : List LogLine) (calls calls' : List (List String)) :
    (s.noting lines calls).noting lines' calls' = s.noting (lines ++ lines') (calls ++ calls') := by
  simp [noting]

theorem noting_nil (s : Session) : s.noting [] [] = s := by
  simp [noting]

theorem tell_yields (l : LogLine) : Yields (tell l) s () (s.noting [l] []) := by
  refine Yields.modify_iff.2 ?_
  simp [noting]

theorem tell_noting_yields (lines : List LogLine) (calls : List (List String)) (l : LogLine) :
    Yields (tell l) (s.noting lines calls) () (s.noting (lines ++ [l]) calls) := by
  have h := tell_yields (s := s.noting lines calls) l
  rwa [noting_noting, List.append_nil] at h

theorem forM_tell_yields {α : Type} (f : α → LogLine) (as : List α) :
    Yields (as.forM fun a => tell (f a)) s () (s.noting (as.map f) []) := by
  induction as generalizing s with
  | nil =>
    rw [List.map_nil, noting_nil]
    exact Yields.pure_iff.2 ⟨rfl, rfl⟩
  | cons a as ih =>
    have hrest := @ih (s.noting [f a] [])
    rw [noting_noting] at hrest
    exact Yields.bind_iff.2 ⟨(), _, tell_yields _, hrest⟩

theorem readSource_yields {code : String} (hread : s.tree.read p = .ok c) (hcode : c.text? = some code) :
    Yields (readSource p) s (some code) s := by
  refine Yields.get_bind_iff.2 ?_
  rw [hread]
  dsimp only
  rw [hcode]
  exact Yields.pure_iff.2 ⟨rfl, rfl⟩

theorem readSource_yields_none {e : FileError} (hread : s.tree.read p = .error e) :
    Yields (readSource p) s none (s.noting (sourceLog s.tree p none) []) := by
  refine Yields.get_bind_iff.2 ?_
  rw [sourceLog, hread]
  exact (tell_yields _).bind (Yields.pure_iff.2 ⟨rfl, rfl⟩)

/-- A file has an outcome in two ways: it cannot be read, or it is expanded. -/
theorem outcomeOf_cases (h : outcomeOf checker settings tree p = .ok r) :
    (∃ e, tree.read p = .error e ∧ r = none) ∨ ∃ c code e, tree.read p = .ok c ∧ c.text? = some code ∧
      (Expansion.run settings (.host settings checker) (Expansion.freshNames settings) p.render code).1 = .ok e ∧
      r = some e := by
  unfold outcomeOf at h
  split at h
  · rename_i e hread
    cases h
    exact .inl ⟨e, hread, rfl⟩
  · rename_i c hread
    split at h
    · cases h
    · rename_i code hcode
      split at h
      · cases h
      · rename_i e hrun
        cases h
        exact .inr ⟨c, code, e, hread, hcode, hrun, rfl⟩

theorem expandSource_yields (h : outcomeOf checker settings s.tree p = .ok r) :
    Yields (expandSource checker settings p) s r (s.noting (sourceLog s.tree p r) (callsOf r)) := by
  obtain ⟨e, hread, rfl⟩ | ⟨c, code, e, hread, hcode, hrun, rfl⟩ := outcomeOf_cases h
  · exact (readSource_yields_none hread).bind (Yields.pure_iff.2 ⟨rfl, rfl⟩)
  · have hwarn := forM_tell_yields (s := s.noting [] e.call.toList) LogLine.warning e.warnings
    rw [noting_noting, List.nil_append, List.append_nil] at hwarn
    refine (readSource_yields hread hcode).bind ?_
    dsimp only
    rw [hrun]
    refine Yields.bind_iff.2 ⟨(), s.noting [] e.call.toList, Yields.modify_iff.2 ?_,
      hwarn.bind (Yields.pure_iff.2 ⟨rfl, rfl⟩)⟩
    simp [noting]

theorem report_yields (e : Expansion) :
    Yields (report e) s () (s.noting (e.errors.map fun m => .error (Markup.escape m)) []) :=
  forM_tell_yields (fun m => .error (Markup.escape m)) e.errors

/-! ### Checking -/

/-- The count with one more file. -/
def CheckCount.add (count : CheckCount) (r : Option Expansion) : CheckCount :=
  ⟨count.failed + (if passed r then 0 else 1), count.sites + r.elim 0 Expansion.sites⟩

theorem checkFile_yields {count : CheckCount} (h : outcomeOf checker settings s.tree p = .ok r) :
    Yields (checkFile checker settings count p) s (count.add r)
      (s.noting (sourceLog s.tree p r ++ reportLog r) (callsOf r)) := by
  refine (expandSource_yields h).bind ?_
  cases r with
  | none =>
    refine Yields.pure_iff.2 ⟨rfl, ?_⟩
    simp [reportLog]
  | some e =>
    cases hpass : e.succeeded with
    | true =>
      simp only [hpass, if_true]
      refine Yields.pure_iff.2 ⟨?_, ?_⟩
      · simp [CheckCount.add, passed, hpass]
      · simp [reportLog, hpass]
    | false =>
      have hreport := report_yields (s := s.noting (sourceLog s.tree p (some e)) (callsOf (some e))) e
      rw [noting_noting, List.append_nil] at hreport
      simp only [hpass, Bool.false_eq_true, if_false]
      refine Yields.bind_iff.2 ⟨(), _, hreport, Yields.pure_iff.2 ⟨?_, ?_⟩⟩
      · simp [CheckCount.add, passed, hpass]
      · simp [reportLog, hpass]

theorem foldlM_checkFile_yields {result : TreePath → Option Expansion} {ps : List TreePath} {count : CheckCount}
    (h : ∀ p ∈ ps, outcomeOf checker settings s.tree p = .ok (result p)) :
    Yields (ps.foldlM (checkFile checker settings) count) s (ps.foldl (fun c p => c.add (result p)) count)
      (s.noting (ps.flatMap fun p => sourceLog s.tree p (result p) ++ reportLog (result p))
        (ps.flatMap fun p => callsOf (result p))) := by
  induction ps generalizing s count with
  | nil =>
    rw [List.flatMap_nil, List.flatMap_nil, noting_nil]
    exact Yields.pure_iff.2 ⟨rfl, rfl⟩
  | cons p ps ih =>
    obtain ⟨hp, hps⟩ := List.forall_mem_cons.1 h
    rw [List.foldlM_cons, List.foldl_cons, List.flatMap_cons, List.flatMap_cons, ← noting_noting]
    exact (checkFile_yields hp).bind (ih hps)

/-- The count of all files: those that do not pass, and the sites. -/
def CheckCount.tally {α : Type} (result : α → Option Expansion) (files : List α) : CheckCount :=
  ⟨files.countP fun p => !passed (result p), (files.map fun p => (result p).elim 0 Expansion.sites).sum⟩

theorem foldl_add_eq {result : TreePath → Option Expansion} (ps : List TreePath) (count : CheckCount) :
    ps.foldl (fun c p => c.add (result p)) count =
      ⟨count.failed + (CheckCount.tally result ps).failed, count.sites + (CheckCount.tally result ps).sites⟩ := by
  induction ps generalizing count with
  | nil => rfl
  | cons p ps ih =>
    rw [List.foldl_cons, ih, CheckCount.tally, CheckCount.tally, List.countP_cons, List.map_cons, List.sum_cons]
    simp only [CheckCount.add, CheckCount.mk.injEq]
    constructor
    · cases passed (result p) <;> simp only [Bool.not_false, Bool.not_true, Bool.false_eq_true, if_false, if_true] <;> omega
    · omega

theorem failed_tally {result : TreePath → Option Expansion} {ps : List TreePath} :
    (CheckCount.tally result ps).failed = 0 ↔ ps.all (fun p => passed (result p)) = true := by
  rw [CheckCount.tally, List.countP_eq_zero]
  simp

/-- The last line of the log: what the command says of all files. -/
def verdict (input : TreePath) (total : Nat) (count : CheckCount) : LogLine :=
  if total = 0 then .warning s!"No .py files found in {input.render}"
  else if count.failed = 0 then .success s!"Checked {total} file(s), {count.sites} extended block(s)."
  else .error s!"{count.failed} of {total} file(s) have problems."

section Commands

variable {input : TreePath} {place : List String} {keyword : Option String} {overrides : List (String × Datum)}

theorem pathIsDirectory_of_locate (hplace : tree.locate? input = some place) (hdir : tree.isDirectory place = true) :
    tree.pathIsDirectory input = true := by
  rw [FileTree.pathIsDirectory, hplace]
  exact hdir

theorem pathExists_of_locate (hplace : tree.locate? input = some place) (hdir : tree.isDirectory place = true) :
    tree.pathExists input = true := by
  rw [FileTree.pathExists, hplace]
  simp [hdir]

theorem loadSettings_yields (hdir : s.tree.pathIsDirectory input = true)
    (hload : Settings.load s.tree input overrides = .ok settings) :
    Yields (loadSettings input overrides) s (some settings) s := by
  refine Yields.get_bind_iff.2 ?_
  dsimp only
  rw [if_pos hdir, hload]
  exact Yields.pure_iff.2 ⟨rfl, rfl⟩

theorem sources_yields (hplace : s.tree.locate? input = some place) :
    Yields (sources input) s (s.tree.named place sourceSuffix) s := by
  refine Yields.get_bind_iff.2 ?_
  rw [hplace]
  exact Yields.pure_iff.2 ⟨rfl, rfl⟩

theorem check_yields (hplace : s.tree.locate? input = some place) (hdir : s.tree.isDirectory place = true)
    (hload : Settings.load s.tree input (keywordOverride keyword) = .ok settings)
    {result : TreePath → Option Expansion} {ps : List TreePath}
    (hps : ps = (s.tree.named place sourceSuffix).map input.append)
    (h : ∀ p ∈ ps, outcomeOf checker settings s.tree p = .ok (result p)) :
    Yields (check checker input keyword) s (if ps.all fun p => passed (result p) then 0 else 1)
      (s.noting ((ps.flatMap fun p => sourceLog s.tree p (result p) ++ reportLog (result p)) ++
          [verdict input ps.length (.tally result ps)])
        (ps.flatMap fun p => callsOf (result p))) := by
  have hpath := pathIsDirectory_of_locate hplace hdir
  unfold check
  refine Yields.get_bind_iff.2 ?_
  rw [pathExists_of_locate hplace hdir]
  refine (loadSettings_yields hpath hload).bind ?_
  refine Yields.get_bind_iff.2 ?_
  dsimp only
  rw [if_pos hpath]
  refine (sources_yields hplace).bind ?_
  rw [← hps]
  refine Yields.pure_bind_iff.2 ?_
  cases hempty : ps.isEmpty with
  | true =>
    obtain rfl := List.isEmpty_iff.1 hempty
    exact (tell_yields _).bind (Yields.pure_iff.2 ⟨rfl, rfl⟩)
  | false =>
    have hlength : ps.length ≠ 0 := by simpa [List.isEmpty_iff] using hempty
    have hfold := @foldlM_checkFile_yields _ _ _ result ps {} h
    have htally : ps.foldl (fun c p => c.add (result p)) {} = CheckCount.tally result ps := by
      rw [foldl_add_eq, Nat.zero_add, Nat.zero_add]
    rw [htally] at hfold
    refine hfold.bind ?_
    rw [verdict, if_neg hlength]
    have hfailed := @failed_tally result ps
    by_cases hall : ps.all (fun p => passed (result p)) = true
    · rw [if_pos (beq_iff_eq.2 (hfailed.2 hall)), if_pos hall, if_pos (hfailed.2 hall)]
      exact (tell_noting_yields _ _ _).bind (Yields.pure_iff.2 ⟨rfl, rfl⟩)
    · rw [if_neg fun hzero => hall (hfailed.1 (beq_iff_eq.1 hzero)), if_neg hall, if_neg fun hzero => hall (hfailed.1 hzero)]
      exact (tell_noting_yields _ _ _).bind (Yields.pure_iff.2 ⟨rfl, rfl⟩)

end Commands

/-! ### Expanding -/

/-- What remains of the expansion of a file. -/
def resultOf (r : Option Expansion) : FileResult :=
  r.elim ⟨false, 0, []⟩ fun e => ⟨e.succeeded, e.sites, e.errors⟩

theorem succeeded_resultOf (r : Option Expansion) : (resultOf r).succeeded = passed r := by
  cases r <;> rfl

theorem onTree_yields {f : FileTree → Except FileError FileTree} (h : f s.tree = .ok t') :
    Yields (onTree f) s (.ok ()) { s with tree := t' } := by
  refine Yields.get_bind_iff.2 ?_
  rw [h]
  exact Yields.bind_iff.2 ⟨(), _, Yields.set_iff.2 rfl, Yields.pure_iff.2 ⟨rfl, rfl⟩⟩

theorem save_yields (hmake : s.tree.ensureDirectories p.parent = .ok t₁) (hwrite : t₁.write p c = .ok t') :
    Yields (save p c) s (.ok ()) { s with tree := t' } :=
  Yields.bind_iff.2 ⟨.ok (), { s with tree := t₁ }, onTree_yields hmake, onTree_yields (s := { s with tree := t₁ }) hwrite⟩

/-- The log line of a file that was written. -/
def writtenLine (p target : TreePath) : LogLine :=
  .success s!"Expanded: [path]{p.render}[/path] -> [path]{target.render}[/path]"

theorem expandFile_yields_failed (h : outcomeOf checker settings s.tree p = .ok r) (hr : passed r = false) :
    Yields (expandFile checker settings p (some target) none) s (resultOf r)
      (s.noting (sourceLog s.tree p r ++ reportLog r) (callsOf r)) := by
  refine (expandSource_yields h).bind ?_
  cases r with
  | none =>
    refine Yields.pure_iff.2 ⟨rfl, ?_⟩
    simp [reportLog]
  | some e =>
    have hfail : e.succeeded = false := hr
    have hreport := report_yields (s := s.noting (sourceLog s.tree p (some e)) (callsOf (some e))) e
    rw [noting_noting, List.append_nil] at hreport
    refine Yields.bind_iff.2 ⟨(), _, Yields.pure_iff.2 ⟨rfl, rfl⟩, ?_⟩
    rw [hfail]
    refine Yields.bind_iff.2 ⟨(), _, hreport, Yields.pure_iff.2 ⟨?_, ?_⟩⟩
    · simp [resultOf, hfail]
    · simp [reportLog, hfail]

theorem expandFile_yields_passed {e : Expansion} (h : outcomeOf checker settings s.tree p = .ok (some e))
    (he : e.succeeded = true) (hmake : s.tree.ensureDirectories target.parent = .ok t₁)
    (hwrite : t₁.write target (.ofText e.code) = .ok t') :
    Yields (expandFile checker settings p (some target) none) s (resultOf (some e))
      (noting { s with tree := t' } (sourceLog s.tree p (some e) ++ [writtenLine p target]) (callsOf (some e))) := by
  refine (expandSource_yields h).bind ?_
  refine Yields.bind_iff.2 ⟨(), _, Yields.pure_iff.2 ⟨rfl, rfl⟩, ?_⟩
  rw [he]
  have hsave : Yields (save target (.ofText e.code)) (s.noting (sourceLog s.tree p (some e)) (callsOf (some e))) (.ok ())
      (noting { s with tree := t' } (sourceLog s.tree p (some e)) (callsOf (some e))) := save_yields hmake hwrite
  refine Yields.bind_iff.2 ⟨(), _, hsave.bind (tell_noting_yields _ _ _), Yields.pure_iff.2 ⟨?_, rfl⟩⟩
  simp [resultOf, he]

/-! ### Outputs -/

/-- The source files below `place` can be written below `out`: there is no directory where an output goes and
no file on the way to it, and no output goes where another source file is. -/
structure Receives (tree : FileTree) (place : List String) (out : TreePath) : Prop where
  plain : out.Plain
  free : ∀ parts ∈ tree.named place sourceSuffix, tree.isFile (place ++ parts) = true →
    tree.isDirectory (out.parts ++ parts) = false ∧
      ∀ l, l <+: out.parts ++ parts → l ≠ out.parts ++ parts → tree.isFile l = false
  apart : ∀ parts ∈ tree.named place sourceSuffix, ∀ parts' ∈ tree.named place sourceSuffix,
    out.parts ++ parts = place ++ parts' → parts = parts'

/-- The tree `t` is the tree `tree` with the outputs below `o` of those files among `done` that pass. -/
structure Delivered (tree : FileTree) (o : List String) (result : List String → Option Expansion)
    (done : List (List String)) (t : FileTree) : Prop where
  directory : ∀ {l}, tree.isDirectory l = true → t.isDirectory l = true
  made : ∀ {l}, t.isDirectory l = true → tree.isDirectory l = true ∨
    ∃ parts ∈ done, passed (result parts) = true ∧ l <+: o ++ parts ∧ l ≠ o ++ parts
  written : ∀ parts ∈ done, ∀ e, result parts = some e → e.succeeded = true →
    t.file? (o ++ parts) = some (.ofText e.code)
  kept : ∀ l, (∀ parts ∈ done, passed (result parts) = true → l ≠ o ++ parts) → t.file? l = tree.file? l

namespace Delivered

variable {o : List String} {result : List String → Option Expansion} {done : List (List String)} {t t' : FileTree}
  {parts : List String}

theorem nil : Delivered tree o result [] tree :=
  ⟨id, .inl, nofun, fun _ _ => rfl⟩

theorem failed (h : Delivered tree o result done t) (hr : passed (result parts) = false) :
    Delivered tree o result (done ++ [parts]) t where
  directory := h.directory
  made hl := by
    obtain hl | ⟨parts', hdone, hp⟩ := h.made hl
    · exact .inl hl
    · exact .inr ⟨parts', List.mem_append_left _ hdone, hp⟩
  written parts' hmem e he hpass := by
    obtain hmem | hmem := List.mem_append.1 hmem
    · exact h.written parts' hmem e he hpass
    · rw [List.mem_singleton.1 hmem] at he
      rw [he, passed, Option.any_some, hpass] at hr
      cases hr
  kept l hl := h.kept l fun parts' hmem => hl parts' (List.mem_append_left _ hmem)

theorem wrote {e : Expansion} (h : Delivered tree o result done t) (hnew : parts ∉ done)
    (hr : result parts = some e) (he : e.succeeded = true)
    (hw : FileTree.Wrote (o ++ parts) (.ofText e.code) t t') : Delivered tree o result (done ++ [parts]) t' where
  directory hl := hw.directory (h.directory hl)
  made hl := by
    have hpass : passed (result parts) = true := by rw [hr, passed, Option.any_some, he]
    obtain hl | hl := hw.made hl
    · obtain hl | ⟨parts', hdone, hp⟩ := h.made hl
      · exact .inl hl
      · exact .inr ⟨parts', List.mem_append_left _ hdone, hp⟩
    · exact .inr ⟨parts, List.mem_append_right _ (.head _), hpass, hl⟩
  written parts' hmem e' he' hpass := by
    rw [hw.file]
    obtain hmem | hmem := List.mem_append.1 hmem
    · rw [if_neg, h.written parts' hmem e' he' hpass]
      intro heq
      exact hnew (List.append_cancel_left heq ▸ hmem)
    · obtain rfl := List.mem_singleton.1 hmem
      rw [hr] at he'
      cases he'
      exact if_pos rfl
  kept l hl := by
    have hpass : passed (result parts) = true := by rw [hr, passed, Option.any_some, he]
    rw [hw.file, if_neg (hl parts (List.mem_append_right _ (.head _)) hpass)]
    exact h.kept l fun parts' hmem => hl parts' (List.mem_append_left _ hmem)

end Delivered

section Batch

variable {input out : TreePath} {place parts : List String} {result : List String → Option Expansion}
  {done : List (List String)} {t : FileTree}

theorem isFile_of_passed (hlocate : tree.locate p = .ok place) (h : outcomeOf checker settings tree p = .ok r)
    (hr : passed r = true) : tree.isFile place = true := by
  cases hfile : tree.file? place with
  | some c => rw [FileTree.isFile, hfile, Option.isSome_some]
  | none =>
    obtain ⟨e, -, rfl⟩ | ⟨c, code, e, hread, -⟩ := outcomeOf_cases h
    · cases hr
    · cases hread.symm.trans (FileTree.read_of_none hlocate hfile)

variable (ht : tree.Proper) (hplace : tree.locate input = .ok place) (hout : Receives tree place out)
  (hd : Delivered tree out.parts result done t) (hdone : done ⊆ tree.named place sourceSuffix)
  (hparts : parts ∈ tree.named place sourceSuffix) (hnew : parts ∉ done)
  (hresult : ∀ parts ∈ tree.named place sourceSuffix,
    outcomeOf checker settings tree (input.append parts) = .ok (result parts))

include ht hplace hparts in
/-- A source file reads the same in a tree with more directories, if it is the same there. -/
theorem read_named_congr (hdirs : ∀ {l}, tree.isDirectory l = true → t.isDirectory l = true)
    (hfile : t.file? (place ++ parts) = tree.file? (place ++ parts)) :
    t.read (input.append parts) = tree.read (input.append parts) := by
  have hlocate := FileTree.locate_named ht hplace hparts
  have hlocate' := FileTree.locate_congr hdirs hlocate
  cases hc : tree.file? (place ++ parts) with
  | some c => rw [FileTree.read_of_file hlocate hc, FileTree.read_of_file hlocate' (hfile.trans hc)]
  | none =>
    have hdir : tree.isDirectory (place ++ parts) = true := by
      refine (FileTree.mem_named.1 hparts).2.2.resolve_left fun h => ?_
      rw [FileTree.isFile, hc] at h
      cases h
    rw [FileTree.read_of_none hlocate hc, FileTree.read_of_none hlocate' (hfile.trans hc), hdir, hdirs hdir]

include ht hplace hout hd hdone hparts hnew in
/-- A source file that is still to come reads as it did. -/
theorem read_delivered : t.read (input.append parts) = tree.read (input.append parts) := by
  refine read_named_congr ht hplace hparts hd.directory (hd.kept _ fun parts' hmem _ heq => hnew ?_)
  rw [← hout.apart parts' (hdone hmem) parts hparts heq.symm]
  exact hmem

include ht hplace hparts hresult in
/-- A file that passes lies on the way to no other source file. -/
theorem eq_of_passed {parts' : List String} (hparts' : parts' ∈ tree.named place sourceSuffix)
    (hpass : passed (result parts) = true) (h : parts <+: parts') : parts = parts' := by
  by_contra hne
  have hfile := isFile_of_passed (FileTree.locate_named ht hplace hparts) (hresult parts hparts) hpass
  have hdir := FileTree.isDirectory_of_named hparts' ((List.prefix_append_right_inj place).2 h)
    fun heq => hne (List.append_cancel_left heq)
  rw [ht.kinds _ hfile] at hdir
  cases hdir

include ht hplace hout hd hdone hparts hresult in
/-- The output of a file that passes can be written. -/
theorem exists_write_delivered (c : FileContent) (hpass : passed (result parts) = true) :
    ∃ t₁ t', t.ensureDirectories (out.append parts).parent = .ok t₁ ∧ t₁.write (out.append parts) c = .ok t' ∧
      FileTree.Wrote (out.parts ++ parts) c t t' := by
  have hfile := isFile_of_passed (FileTree.locate_named ht hplace hparts) (hresult parts hparts) hpass
  obtain ⟨hdir, hfree⟩ := hout.free parts hparts hfile
  refine FileTree.exists_write (p := out.append parts) ⟨hout.plain.root, fun h => ?_⟩ (fun h => ?_) c ?_ fun l hl hne => ?_
  · obtain h | h := List.mem_append.1 h
    · exact hout.plain.parts h
    · exact ht.notMem_of_named hparts h
  · exact (FileTree.mem_named.1 hparts).1 (List.append_eq_nil_iff.1 h).2
  · refine Bool.eq_false_iff.2 fun h => ?_
    obtain h | ⟨parts', hmem, -, hpre, hne⟩ := hd.made h
    · exact Bool.false_ne_true (hdir.symm.trans h)
    · refine hne (congrArg _ (eq_of_passed ht hplace hparts hresult (hdone hmem) hpass ?_))
      exact (List.prefix_append_right_inj _).1 hpre
  · by_cases hother : ∃ parts' ∈ done, passed (result parts') = true ∧ l = out.parts ++ parts'
    · obtain ⟨parts', hmem, hpass', rfl⟩ := hother
      refine absurd (congrArg _ ?_) hne
      exact eq_of_passed ht hplace (hdone hmem) hresult hparts hpass' ((List.prefix_append_right_inj _).1 hl)
    · rw [FileTree.isFile, hd.kept l fun parts' hmem hp heq => hother ⟨parts', hmem, hp, heq⟩]
      exact hfree l hl hne

/-- What is logged for a file of a batch. -/
def batchLog (tree : FileTree) (input out : TreePath) (parts : List String) (r : Option Expansion) : List LogLine :=
  sourceLog tree (input.append parts) r ++
    if passed r then [writtenLine (input.append parts) (out.append parts)] else reportLog r

theorem outcomeOf_congr {tree' : FileTree} (h : tree'.read p = tree.read p) :
    outcomeOf checker settings tree' p = outcomeOf checker settings tree p := by
  rw [outcomeOf, h, outcomeOf]

theorem sourceLog_congr {tree' : FileTree} (h : tree'.read p = tree.read p) :
    sourceLog tree' p r = sourceLog tree p r := by
  cases r with
  | some e => rfl
  | none => rw [sourceLog, h, sourceLog]

include ht hplace hout hd hdone hparts hnew hresult in
/-- One file of a batch. -/
theorem expandFile_yields (lines : List LogLine) (calls : List (List String)) :
    ∃ t', Yields (expandFile checker settings (input.append parts) (some (out.append parts)) none)
        (noting { s with tree := t } lines calls) (resultOf (result parts))
        (noting { s with tree := t' } (lines ++ batchLog tree input out parts (result parts))
          (calls ++ callsOf (result parts))) ∧
      Delivered tree out.parts result (done ++ [parts]) t' := by
  have hread := read_delivered ht hplace hout hd hdone hparts hnew
  have hrun : outcomeOf checker settings (noting { s with tree := t } lines calls).tree (input.append parts) =
      .ok (result parts) := (outcomeOf_congr hread).trans (hresult parts hparts)
  have hlog : sourceLog (noting { s with tree := t } lines calls).tree (input.append parts) (result parts) =
      sourceLog tree (input.append parts) (result parts) := sourceLog_congr hread
  cases hpass : passed (result parts) with
  | false =>
    have hy : Yields (expandFile checker settings (input.append parts) (some (out.append parts)) none) _ _ _ :=
      expandFile_yields_failed hrun hpass
    rw [hlog, noting_noting] at hy
    refine ⟨t, ?_, hd.failed hpass⟩
    rw [batchLog, hpass]
    exact hy
  | true =>
    cases hr : result parts with
    | none =>
      rw [hr] at hpass
      cases hpass
    | some e =>
      have he : e.succeeded = true := by rwa [hr] at hpass
      obtain ⟨t₁, t', hmake, hwrite, hwrote⟩ :=
        exists_write_delivered ht hplace hout hd hdone hparts hresult (.ofText e.code) hpass
      rw [hr] at hrun hlog hpass
      have hy : Yields (expandFile checker settings (input.append parts) (some (out.append parts)) none) _ _
          (noting (noting { s with tree := t' } lines calls) _ _) := expandFile_yields_passed hrun he hmake hwrite
      rw [hlog, noting_noting] at hy
      refine ⟨t', ?_, hd.wrote hnew hr he hwrote⟩
      rw [batchLog, hpass]
      exact hy

include ht hplace hout hresult in
/-- A batch comes to its end, whatever becomes of its files. -/
theorem mapM_expandFile_yields {rest : List (List String)} (lines : List LogLine) (calls : List (List String))
    (hfiles : tree.named place sourceSuffix = done ++ rest) (hd : Delivered tree out.parts result done t) :
    ∃ t', Yields (rest.mapM fun parts => do
          let r ← expandFile checker settings (input.append parts) (some (out.append parts)) none
          return ("/".intercalate parts, r))
        (noting { s with tree := t } lines calls)
        (rest.map fun parts => ("/".intercalate parts, resultOf (result parts)))
        (noting { s with tree := t' } (lines ++ rest.flatMap fun parts => batchLog tree input out parts (result parts))
          (calls ++ rest.flatMap fun parts => callsOf (result parts))) ∧
      Delivered tree out.parts result (done ++ rest) t' := by
  induction rest generalizing done t lines calls with
  | nil =>
    refine ⟨t, ?_, by rwa [List.append_nil]⟩
    simp only [List.flatMap_nil, List.append_nil]
    exact Yields.pure_iff.2 ⟨rfl, rfl⟩
  | cons parts rest ih =>
    have hnodup := tree.nodup_named place sourceSuffix
    rw [hfiles] at hnodup
    have hparts : parts ∈ tree.named place sourceSuffix := hfiles ▸ List.mem_append_right _ (.head _)
    have hnew : parts ∉ done := fun hmem => List.disjoint_of_nodup_append hnodup hmem (.head _)
    have hdone : done ⊆ tree.named place sourceSuffix := hfiles ▸ List.subset_append_left _ _
    obtain ⟨t₁, hfirst, hd₁⟩ := expandFile_yields (s := s) ht hplace hout hd hdone hparts hnew hresult lines calls
    obtain ⟨t', hrest, hd'⟩ := ih (lines ++ batchLog tree input out parts (result parts))
      (calls ++ callsOf (result parts)) (by simpa using hfiles) hd₁
    refine ⟨t', ?_, by simpa using hd'⟩
    rw [List.mapM_cons]
    simp only [List.flatMap_cons, List.map_cons, ← List.append_assoc]
    refine Yields.bind (a := ("/".intercalate parts, resultOf (result parts)))
      (hfirst.bind (Yields.pure_iff.2 ⟨rfl, rfl⟩)) ?_
    exact hrest.bind (Yields.pure_iff.2 ⟨rfl, rfl⟩)

/-- The first line of the log of a batch. -/
def opening (input : TreePath) (total : Nat) : LogLine := .info s!"Processing {total} files from {input.render}..."

/-- The last line of the log of a batch in which every file passes. -/
def closing (total : Nat) (clean : Bool) : List LogLine :=
  if clean then [.success s!"Batch Complete: {total}/{total} files expanded."] else []

theorem summarise_yields (results : List (String × FileResult)) :
    ∃ s', Yields (summarise results) s () s' ∧ s'.tree = s.tree ∧
      s'.log = s.log ++ closing results.length (results.all fun x => x.2.succeeded) := by
  have hall : (results.filter fun x => !x.2.succeeded).isEmpty = results.all fun x => x.2.succeeded := by
    rw [Bool.eq_iff_iff, List.isEmpty_iff, List.filter_eq_nil_iff]
    simp
  unfold summarise closing
  dsimp only
  rw [hall]
  split
  · exact ⟨_, tell_yields _, rfl, rfl⟩
  · refine ⟨_, Yields.bind_iff.2 ⟨(), _, Yields.modify_iff.2 rfl, Yields.modify_iff.2 rfl⟩, rfl, ?_⟩
    exact (List.append_nil _).symm

include ht hplace hout hresult in
theorem expandDirectory_yields {files : List (List String)} (hs : s.tree = tree)
    (hfiles : tree.named place sourceSuffix = files) :
    ∃ s', Yields (expandDirectory checker settings input out false) s
        (if files.all fun parts => passed (result parts) then 0 else 1) s' ∧
      Delivered tree out.parts result files s'.tree ∧
      (files ≠ [] → s'.log = s.log ++ [opening input files.length] ++
        (files.flatMap fun parts => batchLog tree input out parts (result parts)) ++
        closing files.length (files.all fun parts => passed (result parts))) := by
  subst hs
  have hsources := sources_yields (s := s) (FileTree.locate?_eq_some.2 hplace)
  rw [hfiles] at hsources
  cases hempty : files.isEmpty with
  | true =>
    obtain rfl := List.isEmpty_iff.1 hempty
    refine ⟨_, hsources.bind ((tell_yields _).bind (Yields.pure_iff.2 ⟨rfl, rfl⟩)), .nil, nofun⟩
  | false =>
    obtain ⟨t', hmap, hd⟩ := mapM_expandFile_yields (s := s) ht hplace hout hresult [opening input files.length] []
      (hfiles.trans (List.nil_append _).symm) .nil
    obtain ⟨s', hsummary, htree, hlog⟩ := summarise_yields
      (s := noting { s with tree := t' } ([opening input files.length] ++
        files.flatMap fun parts => batchLog s.tree input out parts (result parts))
        ([] ++ files.flatMap fun parts => callsOf (result parts)))
      (files.map fun parts => ("/".intercalate parts, resultOf (result parts)))
    have hall : (files.map fun parts => ("/".intercalate parts, resultOf (result parts))).all
        (fun x => x.2.succeeded) = files.all fun parts => passed (result parts) := by
      rw [List.all_map]
      congr 1
      funext parts
      exact succeeded_resultOf _
    refine ⟨s', ?_, htree ▸ hd, fun _ => ?_⟩
    · refine hsources.bind ?_
      dsimp only
      rw [hempty]
      refine Yields.bind_iff.2 ⟨(), _, tell_yields _, hmap.bind (hsummary.bind (Yields.pure_iff.2 ⟨?_, rfl⟩))⟩
      rw [hall]
    · rw [hlog, hall, List.length_map]
      simp [noting]

end Batch

/-! ### Commands -/

theorem expand_yields {input out : TreePath} {place : List String} {check : Bool} {keyword : Option String} {code : Nat}
    {s' : Session} (hplace : s.tree.locate? input = some place) (hdir : s.tree.isDirectory place = true)
    (hload : Settings.load s.tree input (keywordOverride keyword ++
      if check then [] else [("check_exhaustiveness", .bool false)]) = .ok settings)
    (h : Yields (expandDirectory checker settings input out false) s code s') :
    Yields (expand checker input (some out) check none keyword) s code s' := by
  have hpath := pathIsDirectory_of_locate hplace hdir
  unfold expand
  refine Yields.get_bind_iff.2 ?_
  rw [pathExists_of_locate hplace hdir]
  refine (loadSettings_yields hpath hload).bind (Yields.get_bind_iff.2 ?_)
  rw [hpath]
  exact h

/-- If the file can be read, its bytes spell a text and the expansion of the text comes to an outcome. -/
def Endures (checker : Checker) (settings : Settings) (tree : FileTree) (p : TreePath) : Prop :=
  ∀ c, tree.read p = .ok c → ∃ code e, c.text? = some code ∧
    (Expansion.run settings (.host settings checker) (Expansion.freshNames settings) p.render code).1 = .ok e

/-- The expansion of a source file of a tree, if it has one. -/
def expansion? (checker : Checker) (settings : Settings) (tree : FileTree) (p : TreePath) : Option Expansion :=
  (outcomeOf checker settings tree p).toOption.join

theorem outcomeOf_of_endures (h : Endures checker settings tree p) :
    outcomeOf checker settings tree p = .ok (expansion? checker settings tree p) := by
  have hok : ∃ r, outcomeOf checker settings tree p = .ok r := by
    unfold outcomeOf
    cases hread : tree.read p with
    | error e => exact ⟨none, rfl⟩
    | ok c =>
      obtain ⟨code, e, hcode, hrun⟩ := h c hread
      refine ⟨some e, ?_⟩
      dsimp only
      rw [hcode]
      dsimp only
      rw [hrun]
  obtain ⟨r, hr⟩ := hok
  rw [expansion?, hr]
  rfl

/-- What checking files comes to: the code, the tree as it was, and the log of each file in turn. -/
structure Checked (tree : FileTree) (input : TreePath) (files : List (List String))
    (result : List String → Option Expansion) (code : Nat) (s : Session) : Prop where
  code : code = if files.all fun parts => passed (result parts) then 0 else 1
  unchanged : s.tree = tree
  log : s.log = (files.flatMap fun parts =>
      sourceLog tree (input.append parts) (result parts) ++ reportLog (result parts)) ++
    [verdict input files.length (.tally result files)]

/-- What expanding files comes to: the code, the outputs, and the log of each file in turn. -/
structure Expanded (tree : FileTree) (input out : TreePath) (files : List (List String))
    (result : List String → Option Expansion) (code : Nat) (s : Session) : Prop where
  code : code = if files.all fun parts => passed (result parts) then 0 else 1
  outputs : ∀ parts ∈ files, s.tree.file? (out.parts ++ parts) =
    if passed (result parts) then (result parts).map fun e => .ofText e.code else tree.file? (out.parts ++ parts)
  others : ∀ l, (∀ parts ∈ files, l ≠ out.parts ++ parts) → s.tree.file? l = tree.file? l
  log : files ≠ [] → s.log = [opening input files.length] ++
    (files.flatMap fun parts => batchLog tree input out parts (result parts)) ++
    closing files.length (files.all fun parts => passed (result parts))

theorem endures_of_isSome (h : (outcomeOf checker settings tree p).toOption.isSome = true) :
    Endures checker settings tree p := by
  intro c hread
  cases hout : outcomeOf checker settings tree p with
  | error e =>
    rw [hout] at h
    cases h
  | ok r =>
    obtain ⟨e, hnone, -⟩ | ⟨c', code, e, hread', hcode, hrun, -⟩ := outcomeOf_cases hout
    · cases hread.symm.trans hnone
    · cases hread.symm.trans hread'
      exact ⟨code, e, hcode, hrun⟩

/-- A directory named like a source file, a file with a block, and one with a block in the wrong place. -/
def mixedTree : FileTree :=
  ⟨[(["d", "a.py"], .directory), (["d", "b.py"], .file (.ofText "x = do \x7b 1 \x7d\n")),
    (["d", "c.py"], .file (.ofText "f(do \x7b 1 \x7d)\n"))]⟩

end DoBlocks.Session
