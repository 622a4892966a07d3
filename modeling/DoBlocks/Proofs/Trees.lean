import DoBlocks.FileTree
import Mathlib.Data.List.Nodup

/-!
# File trees under reading and writing

Making directories and writing files keeps every directory, and changes no file but the one that is
written. A path without `..` leads to the place that its parts name, whatever the tree holds; so a file can
be written there as soon as no file is in the way, and what was read from a place can be read again after
files were written elsewhere.
-/

namespace DoBlocks

/-- What a file holds. -/
def TreeEntry.content? : TreeEntry → Option FileContent
  | .directory => none
  | .file c => some c

/-- The path is relative and steps out of no directory. -/
structure TreePath.Plain (p : TreePath) : Prop where
  root : p.root = ""
  parts : ".." ∉ p.parts

namespace FileTree

variable {t t' : FileTree} {l l' taken parts : List String} {p : TreePath}
variable {e : TreeEntry} {c : FileContent} {place : List String} {suffix : String}

/-! ### Places -/

theorem isDirectory_iff : t.isDirectory l = true ↔
    l = [] ∨ ∃ e ∈ t.entries, l <+: e.1 ∧ (e.1 ≠ l ∨ e.2 = .directory) := by
  simp [isDirectory]

/-- What a directory lies in is a directory. -/
theorem isDirectory_mono (h : l <+: l') (hl : t.isDirectory l' = true) : t.isDirectory l = true := by
  obtain rfl | hne := eq_or_ne l l'
  · exact hl
  obtain rfl | ⟨e, he, hpre, -⟩ := isDirectory_iff.1 hl
  · rw [List.prefix_nil.1 h]
    rfl
  · refine isDirectory_iff.2 (.inr ⟨e, he, h.trans hpre, .inl fun heq => hne ?_⟩)
    exact h.eq_of_length_le (heq ▸ hpre.length_le)

theorem file?_set (t : FileTree) (l l' : List String) (e : TreeEntry) : (t.set l e).file? l' =
    if l' = l then e.content? else t.file? l' := by
  unfold file? set
  rw [List.find?_append]
  by_cases h : l' = l
  · subst h
    have hnone : (t.entries.filter fun x => x.1 != l').find? (fun e => e.1 == l') = none := by
      simp [List.find?_eq_none]
    rw [hnone, if_pos rfl]
    cases e <;> simp [TreeEntry.content?]
  · have hsame : (t.entries.filter fun x => x.1 != l).find? (fun e => e.1 == l') =
        t.entries.find? fun e => e.1 == l' := by
      rw [List.find?_filter]
      congr 1
      funext x
      by_cases hx : x.1 = l'
      · simp [hx, h]
      · simp [hx]
    have hlast : [(l, e)].find? (fun e => e.1 == l') = none := by simp [Ne.symm h]
    rw [hsame, hlast, if_neg h, Option.or_none]

/-- A directory stays one if something is put where it is not. -/
theorem isDirectory_set_of_ne (h : t.isDirectory l' = true) (hne : l ≠ l') :
    (t.set l e).isDirectory l' = true := by
  obtain rfl | ⟨x, hx, hpre, hkind⟩ := isDirectory_iff.1 h
  · rfl
  by_cases hxl : x.1 = l
  · refine isDirectory_iff.2 (.inr ⟨(l, e), by simp [set], hxl ▸ hpre, .inl hne⟩)
  · exact isDirectory_iff.2 (.inr ⟨x, by simp [set, hx, hxl], hpre, hkind⟩)

theorem isDirectory_set (h : (t.set l e).isDirectory l' = true) :
    t.isDirectory l' = true ∨ l' <+: l ∧ (l' = l → e = .directory) := by
  obtain rfl | ⟨x, hx, hpre, hkind⟩ := isDirectory_iff.1 h
  · exact .inl rfl
  simp only [set, List.mem_append, List.mem_filter, List.mem_singleton] at hx
  obtain ⟨hx, -⟩ | rfl := hx
  · exact .inl (isDirectory_iff.2 (.inr ⟨x, hx, hpre, hkind⟩))
  · exact .inr ⟨hpre, fun heq => hkind.resolve_left fun hne => hne heq.symm⟩

/-! ### Paths -/

theorem walk_append (more : List String) :
    t.walk taken (parts ++ more) = (t.walk taken parts).bind fun l => t.walk l more := by
  induction parts generalizing taken with
  | nil => rfl
  | cons part parts ih =>
    rw [List.cons_append, walk, walk]
    split
    · split
      · exact ih
      · split
        · rfl
        · exact ih
    · rfl

/-- A path without `..` leads on to the place that its parts name, if what it passes is directories. -/
theorem walk_plain (h : ".." ∉ parts) (hdir : parts ≠ [] → t.isDirectory (taken ++ parts.dropLast) = true) :
    t.walk taken parts = .ok (taken ++ parts) := by
  induction parts generalizing taken with
  | nil => simp [walk]
  | cons part parts ih =>
    obtain ⟨hpart, hparts⟩ := (by simpa using h : ".." ≠ part ∧ ".." ∉ parts)
    have hlast := hdir (List.cons_ne_nil _ _)
    have hfirst : t.isDirectory taken = true := isDirectory_mono (List.prefix_append _ _) hlast
    rw [walk, if_pos hfirst, if_pos (by simpa using hpart.symm), ih hparts]
    · simp
    · intro hne
      rwa [List.append_assoc, List.singleton_append, ← List.dropLast_cons_of_ne_nil hne]

/-- A path without `..` leads nowhere else, and the walk fails for a file on the way or for something missing. -/
theorem walk_spec (h : ".." ∉ parts) :
    (t.walk taken parts = .ok (taken ++ parts) ∧ (parts ≠ [] → t.isDirectory (taken ++ parts.dropLast) = true)) ∨
      t.walk taken parts = .error .missing ∨
      ∃ l, taken <+: l ∧ l <+: taken ++ parts ∧ l ≠ taken ++ parts ∧ t.isFile l = true := by
  induction parts generalizing taken with
  | nil => simp [walk]
  | cons part parts ih =>
    obtain ⟨hpart, hparts⟩ := (by simpa using h : ".." ≠ part ∧ ".." ∉ parts)
    rw [walk]
    cases hdir : t.isDirectory taken with
    | true =>
      rw [if_pos rfl, if_pos (by simpa using hpart.symm)]
      have heq : taken ++ part :: parts = taken ++ [part] ++ parts := by simp
      obtain ⟨hwalk, hlast⟩ | hmissing | ⟨l, hl, hl', hne, hfile⟩ := @ih (taken ++ [part]) hparts
      · refine .inl ⟨heq ▸ hwalk, fun _ => ?_⟩
        obtain rfl | hne := eq_or_ne parts []
        · simpa using hdir
        · rw [List.dropLast_cons_of_ne_nil hne]
          simpa using hlast hne
      · exact .inr (.inl hmissing)
      · exact .inr (.inr ⟨l, (List.prefix_append _ _).trans hl, heq ▸ hl', heq ▸ hne, hfile⟩)
    | false =>
      rw [if_neg Bool.false_ne_true]
      cases hfile : t.isFile taken with
      | true => exact .inr (.inr ⟨taken, List.prefix_rfl, List.prefix_append _ _, by simp, hfile⟩)
      | false => exact .inr (.inl rfl)

theorem locate_eq_ok : t.locate p = .ok l ↔ p.root.isEmpty = true ∧ t.walk [] p.parts = .ok l := by
  unfold locate
  cases p.root.isEmpty with
  | false => simp
  | true => cases t.walk [] p.parts <;> simp

theorem locate?_eq_some : t.locate? p = some l ↔ t.locate p = .ok l := by
  unfold locate?
  cases t.locate p <;> simp [Except.toOption]

theorem locate_plain (hp : p.Plain) (h : p.parts ≠ [] → t.isDirectory p.parts.dropLast = true) :
    t.locate p = .ok p.parts :=
  locate_eq_ok.2 ⟨by rw [hp.root]; rfl, walk_plain hp.parts (by simpa using h)⟩

theorem locate_append (hl : t.locate p = .ok l) (h : ".." ∉ parts)
    (hdir : parts ≠ [] → t.isDirectory (l ++ parts.dropLast) = true) :
    t.locate (p.append parts) = .ok (l ++ parts) := by
  obtain ⟨hroot, hwalk⟩ := locate_eq_ok.1 hl
  refine locate_eq_ok.2 ⟨hroot, ?_⟩
  rw [TreePath.append, walk_append, hwalk]
  exact walk_plain h hdir

/-! ### What operations keep -/

/-- What was a directory is one, and every file is as it was. -/
structure Keeps (t t' : FileTree) : Prop where
  directory : ∀ {l}, t.isDirectory l = true → t'.isDirectory l = true
  file : ∀ l, t'.file? l = t.file? l

theorem Keeps.refl (t : FileTree) : Keeps t t := ⟨id, fun _ => rfl⟩

theorem Keeps.trans {t₁ t₂ t₃ : FileTree} (h : Keeps t₁ t₂) (h' : Keeps t₂ t₃) : Keeps t₁ t₃ :=
  ⟨fun hl => h'.directory (h.directory hl), fun l => (h'.file l).trans (h.file l)⟩

theorem Keeps.isFile (h : Keeps t t') (l : List String) : t'.isFile l = t.isFile l := by
  rw [FileTree.isFile, h.file, FileTree.isFile]

theorem file?_eq_none_of_isFile (h : t.isFile l = false) : t.file? l = none := by
  simpa [isFile] using h

theorem keeps_set_directory (hl : t.isFile l = false) : Keeps t (t.set l .directory) where
  directory {l'} h := by
    obtain rfl | hne := eq_or_ne l l'
    · exact isDirectory_iff.2 (.inr ⟨(l, .directory), by simp [set], List.prefix_rfl, .inr rfl⟩)
    · exact isDirectory_set_of_ne h hne
  file l' := by
    rw [file?_set]
    split
    · rename_i h
      rw [h, file?_eq_none_of_isFile hl]
      rfl
    · rfl

theorem walk_congr (hdir : ∀ {l}, t.isDirectory l = true → t'.isDirectory l = true)
    (h : t.walk taken parts = .ok l) : t'.walk taken parts = .ok l := by
  induction parts generalizing taken with
  | nil => exact h
  | cons part parts ih =>
    rw [walk] at h ⊢
    split at h
    · rename_i hfirst
      rw [if_pos (hdir hfirst)]
      split at h
      · rename_i hpart
        rw [if_pos hpart]
        exact ih h
      · rename_i hpart
        rw [if_neg hpart]
        split at h
        · cases h
        · rename_i hempty
          rw [if_neg hempty]
          exact ih h
    · cases h

theorem locate_congr (hdir : ∀ {l}, t.isDirectory l = true → t'.isDirectory l = true)
    (h : t.locate p = .ok l) : t'.locate p = .ok l := by
  obtain ⟨hroot, hwalk⟩ := locate_eq_ok.1 h
  exact locate_eq_ok.2 ⟨hroot, walk_congr hdir hwalk⟩

/-! ### Making directories -/

/-- Directories were made, all of them on the way to a place. -/
structure Paved (place : List String) (t t' : FileTree) : Prop extends Keeps t t' where
  made : ∀ {l}, t'.isDirectory l = true → t.isDirectory l = true ∨ l <+: place

theorem Paved.refl (place : List String) (t : FileTree) : Paved place t t := ⟨.refl t, .inl⟩

theorem makeDirectory_eq (h : t.locate p = .ok l) : t.makeDirectory p =
    if t.isDirectory l || t.isFile l then .error ⟨.alreadyThere, p.render⟩ else .ok (t.set l .directory) := by
  rw [makeDirectory, h]
  show (if _ then _ else _ : Except _ _) = _
  split <;> rfl

theorem ensureDirectory_of_isDirectory (hlocate : t.locate p = .ok l) (hdir : t.isDirectory l = true) :
    t.ensureDirectory p = .ok t := by
  have hpath : t.pathIsDirectory p = true := by
    rw [pathIsDirectory, locate?_eq_some.2 hlocate]
    exact hdir
  rw [ensureDirectory, makeDirectory_eq hlocate, hdir]
  exact if_pos hpath

/-- A directory can be made where no file is, if what it lies in is a directory. -/
theorem exists_ensureDirectory (hp : p.Plain) (hlast : p.parts ≠ [] → t.isDirectory p.parts.dropLast = true)
    (hfile : t.isFile p.parts = false) :
    ∃ t', t.ensureDirectory p = .ok t' ∧ Paved p.parts t t' ∧ t'.isDirectory p.parts = true := by
  have hlocate := locate_plain hp hlast
  cases hdir : t.isDirectory p.parts with
  | true => exact ⟨t, ensureDirectory_of_isDirectory hlocate hdir, .refl _ _, hdir⟩
  | false =>
    refine ⟨t.set p.parts .directory, ?_, ⟨keeps_set_directory hfile, fun h => (isDirectory_set h).imp id And.left⟩, ?_⟩
    · rw [ensureDirectory, makeDirectory_eq hlocate, hdir, hfile]
      rfl
    · exact isDirectory_iff.2 (.inr ⟨(p.parts, .directory), by simp [set], List.prefix_rfl, .inr rfl⟩)

/-- A directory can be made with all that it lies in, if no file is in the way. -/
theorem exists_ensureDirectories (hp : p.Plain) (hfree : ∀ l, l <+: p.parts → t.isFile l = false) :
    ∃ t', t.ensureDirectories p = .ok t' ∧ Paved p.parts t t' ∧ t'.isDirectory p.parts = true := by
  obtain ⟨root, parts⟩ := p
  obtain ⟨rfl, hparts⟩ := hp
  dsimp only at hparts hfree ⊢
  unfold ensureDirectories
  -- the recursion takes the parts from the last one on
  induction hrev : parts.reverse generalizing parts with
  | nil =>
    obtain rfl : parts = [] := by simpa using hrev
    have hdir : t.isDirectory [] = true := rfl
    exact ⟨t, ensureDirectory_of_isDirectory (locate_plain ⟨rfl, hparts⟩ nofun) hdir, .refl _ _, hdir⟩
  | cons last outer ih =>
    obtain rfl : parts = outer.reverse ++ [last] := by simpa using congrArg List.reverse hrev
    have hpath : (last :: outer).reverse = outer.reverse ++ [last] := by simp
    have hplain : TreePath.Plain ⟨"", outer.reverse ++ [last]⟩ := ⟨rfl, hparts⟩
    rw [ensureAlong, hpath]
    have hfile := hfree _ List.prefix_rfl
    obtain ⟨-, hlast⟩ | hmissing | ⟨l, -, hl, -, hl'⟩ := @walk_spec t [] _ hparts
    · obtain ⟨t', hensure, hpaved, hdir⟩ := exists_ensureDirectory hplain hlast hfile
      have hlocate := locate_plain hplain hlast
      rw [ensureDirectory, makeDirectory_eq hlocate] at hensure
      rw [makeDirectory_eq hlocate]
      refine ⟨t', ?_, hpaved, hdir⟩
      cases hthere : t.isDirectory (outer.reverse ++ [last]) || t.isFile (outer.reverse ++ [last]) <;>
        rw [hthere] at hensure <;> exact hensure
    · have hmake : t.makeDirectory ⟨"", outer.reverse ++ [last]⟩ =
          .error ⟨.missing, (⟨"", outer.reverse ++ [last]⟩ : TreePath).render⟩ := by
        have hlocate : t.locate ⟨"", outer.reverse ++ [last]⟩ =
            .error ⟨.missing, (⟨"", outer.reverse ++ [last]⟩ : TreePath).render⟩ := by
          have hroot : ("" : String).isEmpty = true := by decide
          rw [locate, if_pos hroot, hmissing]
        rw [makeDirectory, hlocate]
        rfl
      obtain ⟨t₁, hensure, hpaved, hdir⟩ := ih outer.reverse
        (fun l hl => hfree l (hl.trans (List.prefix_append _ _))) (fun h => hparts (List.mem_append_left _ h))
        (List.reverse_reverse _)
      obtain ⟨t₂, hlast, hpaved', hdir'⟩ := @exists_ensureDirectory t₁ _ hplain (fun _ => by simpa using hdir)
        (by rw [hpaved.isFile, hfile])
      refine ⟨t₂, ?_, ⟨hpaved.toKeeps.trans hpaved'.toKeeps, fun h => ?_⟩, hdir'⟩
      · rw [hmake]
        show (t.ensureAlong "" outer >>= fun t => t.ensureDirectory _) = _
        rw [hensure]
        exact hlast
      · obtain h | h := hpaved'.made h
        · exact (hpaved.made h).imp id fun h => h.trans (List.prefix_append _ _)
        · exact .inr h
    · rw [hfree l hl] at hl'
      cases hl'

/-! ### Writing and reading -/

theorem write_eq (h : t.locate p = .ok l) : t.write p c =
    if t.isDirectory l then .error ⟨.isDirectory, p.render⟩ else .ok (t.set l (.file c)) := by
  rw [write, h]
  show (if _ then _ else _ : Except _ _) = _
  split <;> rfl

theorem read_of_file (h : t.locate p = .ok l) (hfile : t.file? l = some c) :
    t.read p = .ok c := by
  simp only [read, h, Bind.bind, Except.bind, hfile]
  rfl

theorem read_of_none (h : t.locate p = .ok l) (hfile : t.file? l = none) :
    t.read p = .error ⟨if t.isDirectory l then .isDirectory else .missing, p.render⟩ := by
  simp only [read, h, Bind.bind, Except.bind, hfile]
  rfl

/-- The file was written at the place, and directories were made on the way to it. -/
structure Wrote (place : List String) (c : FileContent) (t t' : FileTree) : Prop where
  directory : ∀ {l}, t.isDirectory l = true → t'.isDirectory l = true
  made : ∀ {l}, t'.isDirectory l = true → t.isDirectory l = true ∨ l <+: place ∧ l ≠ place
  file : ∀ l, t'.file? l = if l = place then some c else t.file? l

/-- A file can be written where no directory is, if no file is in the way. -/
theorem exists_write (hp : p.Plain) (hne : p.parts ≠ []) (c : FileContent) (hdir : t.isDirectory p.parts = false)
    (hfree : ∀ l, l <+: p.parts → l ≠ p.parts → t.isFile l = false) :
    ∃ t₁ t', t.ensureDirectories p.parent = .ok t₁ ∧ t₁.write p c = .ok t' ∧ Wrote p.parts c t t' := by
  have hshort : p.parts.dropLast ≠ p.parts := fun h => by
    have hlength := congrArg List.length h
    have hpos := List.length_pos_iff.2 hne
    rw [List.length_dropLast] at hlength
    omega
  have hnotMade {l : List String} (h : l <+: p.parts.dropLast) : l ≠ p.parts := by
    rintro rfl
    exact hshort ((List.dropLast_prefix _).eq_of_length_le h.length_le)
  have hparent : p.parent.Plain := ⟨hp.root, fun h => hp.parts (List.dropLast_subset _ h)⟩
  obtain ⟨t₁, hensure, hpaved, hlast⟩ := exists_ensureDirectories hparent fun l hl =>
    hfree l (hl.trans (List.dropLast_prefix _)) (hnotMade hl)
  have hdir₁ : t₁.isDirectory p.parts = false := by
    refine Bool.eq_false_iff.2 fun h => ?_
    obtain h | h := hpaved.made h
    · rw [hdir] at h
      cases h
    · exact hnotMade h rfl
  have hlocate := locate_plain hp fun _ => hlast
  refine ⟨t₁, t₁.set p.parts (.file c), hensure, by rw [write_eq hlocate, hdir₁]; rfl, ?_, ?_, fun l => ?_⟩
  · intro l hl
    refine isDirectory_set_of_ne (hpaved.directory hl) fun heq => ?_
    rw [← heq, hdir] at hl
    cases hl
  · intro l hl
    obtain h | ⟨h, hkind⟩ := isDirectory_set hl
    · exact (hpaved.made h).imp id fun h => ⟨h.trans (List.dropLast_prefix _), hnotMade h⟩
    · exact .inr ⟨h, fun heq => by cases hkind heq⟩
  · rw [file?_set, hpaved.file]
    rfl

/-! ### Listing -/

/-- No name is `..`, and nothing is a file and a directory. -/
structure Proper (t : FileTree) : Prop where
  names : ∀ e ∈ t.entries, ".." ∉ e.1
  kinds : ∀ l, t.isFile l = true → t.isDirectory l = false

theorem exists_of_isFile (h : t.isFile l = true) : ∃ c, (l, .file c) ∈ t.entries := by
  unfold isFile file? at h
  split at h
  · rename_i l' c hfind
    have heq : l' = l := by simpa using List.find?_some hfind
    exact ⟨c, heq ▸ List.mem_of_find?_eq_some hfind⟩
  · cases h

/-- Only the entries have to be looked at. -/
theorem proper_of_entries (hnames : ∀ e ∈ t.entries, ".." ∉ e.1)
    (hkinds : ∀ e ∈ t.entries, e.2 ≠ .directory → t.isDirectory e.1 = false) : t.Proper where
  names := hnames
  kinds l hl := by
    obtain ⟨c, hc⟩ := exists_of_isFile hl
    exact hkinds _ hc nofun

/-- Something is at a place if it is on the way to an entry. -/
theorem isFile_or_isDirectory_iff (hl : l ≠ []) :
    t.isFile l = true ∨ t.isDirectory l = true ↔ ∃ e ∈ t.entries, l <+: e.1 := by
  constructor
  · rintro (h | h)
    · obtain ⟨c, hc⟩ := exists_of_isFile h
      exact ⟨_, hc, List.prefix_rfl⟩
    · obtain rfl | ⟨e, he, hpre, -⟩ := isDirectory_iff.1 h
      · exact absurd rfl hl
      · exact ⟨e, he, hpre⟩
  · rintro ⟨e, he, hpre⟩
    by_cases hdir : t.isDirectory l = true
    · exact .inr hdir
    · have hkinds : ∀ x ∈ t.entries, l <+: x.1 → x.1 = l ∧ x.2 ≠ .directory := by
        intro x hx hlx
        have hno := mt isDirectory_iff.2 hdir
        refine ⟨by_contra fun hne => hno (.inr ⟨x, hx, hlx, .inl hne⟩), fun hd => hno (.inr ⟨x, hx, hlx, .inr hd⟩)⟩
      refine .inl ?_
      unfold isFile file?
      cases hfind : t.entries.find? fun e => e.1 == l with
      | none => exact absurd (hkinds e he hpre).1 (by simpa using List.find?_eq_none.1 hfind e he)
      | some x =>
        obtain ⟨l', kind⟩ := x
        have hmem := List.mem_of_find?_eq_some hfind
        have heq : l' = l := by simpa using List.find?_some hfind
        cases kind with
        | directory => exact absurd rfl (hkinds _ hmem (heq ▸ List.prefix_rfl)).2
        | file c => rfl

theorem mem_below :
    l ∈ t.below place ↔ place <+: l ∧ l ≠ place ∧ ∃ e ∈ t.entries, l <+: e.1 := by
  simp only [below, List.mem_eraseDups, List.mem_flatMap, List.mem_filter, List.isPrefixOf_iff_prefix, List.mem_map]
  constructor
  · rintro ⟨e, ⟨he, hplace⟩, n, hn, rfl⟩
    obtain ⟨k, hk, rfl⟩ := List.mem_iff_getElem.1 hn
    simp only [List.length_drop, List.length_range] at hk
    simp only [List.getElem_drop, List.getElem_range]
    refine ⟨List.prefix_take_iff.2 ⟨hplace, by omega⟩, fun h => ?_, e, he, List.take_prefix _ _⟩
    have := congrArg List.length h
    rw [List.length_take] at this
    omega
  · rintro ⟨hplace, hne, e, he, hpre⟩
    have hlength : place.length < l.length := by
      exact Nat.lt_of_le_of_ne hplace.length_le fun h => hne (hplace.eq_of_length h).symm
    have hle := hpre.length_le
    refine ⟨e, ⟨he, hplace.trans hpre⟩, l.length, List.mem_iff_getElem.2 ⟨l.length - (place.length + 1), ?_, ?_⟩,
      (List.prefix_iff_eq_take.1 hpre).symm⟩
    · simp only [List.length_drop, List.length_range]
      omega
    · simp only [List.getElem_drop, List.getElem_range]
      omega

/-- The listing has what is below the directory and has a name with the suffix. -/
theorem mem_named : parts ∈ t.named place suffix ↔
    parts ≠ [] ∧ (parts.getLast?.getD "").endsWith suffix = true ∧
      (t.isFile (place ++ parts) = true ∨ t.isDirectory (place ++ parts) = true) := by
  have hlast (hne : parts ≠ []) : (place ++ parts).getLast? = parts.getLast? := List.getLast?_append_of_ne_nil _ hne
  simp only [named, List.mem_map, List.mem_mergeSort, List.mem_filter, mem_below]
  constructor
  · rintro ⟨l, ⟨⟨⟨parts', rfl⟩, hne, he⟩, hsuffix⟩, rfl⟩
    rw [List.drop_left]
    have hparts : parts' ≠ [] := by
      rintro rfl
      exact hne (List.append_nil _)
    refine ⟨hparts, by rwa [← List.getLast?_append_of_ne_nil place hparts], ?_⟩
    exact (isFile_or_isDirectory_iff (by simp [hparts])).2 he
  · rintro ⟨hne, hsuffix, hthere⟩
    refine ⟨place ++ parts, ⟨⟨List.prefix_append _ _, by simpa using hne, ?_⟩, by rwa [hlast hne]⟩, List.drop_left⟩
    exact (isFile_or_isDirectory_iff (by simp [hne])).1 hthere

theorem exists_entry_of_named (h : parts ∈ t.named place suffix) :
    ∃ e ∈ t.entries, place ++ parts <+: e.1 := by
  obtain ⟨hne, -, hthere⟩ := mem_named.1 h
  exact (isFile_or_isDirectory_iff (by simp [hne])).1 hthere

/-- What a listed place lies in is a directory. -/
theorem isDirectory_of_named (h : parts ∈ t.named place suffix) (hl : l <+: place ++ parts) (hne : l ≠ place ++ parts)
    : t.isDirectory l = true := by
  obtain ⟨e, he, hpre⟩ := exists_entry_of_named h
  refine isDirectory_iff.2 (.inr ⟨e, he, hl.trans hpre, .inl fun heq => hne ?_⟩)
  exact hl.eq_of_length_le (heq ▸ hpre.length_le)

theorem Proper.notMem_of_named (ht : t.Proper) (h : parts ∈ t.named place suffix) : ".." ∉ parts := by
  obtain ⟨e, he, hpre⟩ := exists_entry_of_named h
  exact fun hmem => ht.names e he (hpre.subset (List.mem_append_right _ hmem))

/-- A listed path leads to its place. -/
theorem locate_named (ht : t.Proper) (hplace : t.locate p = .ok place) (h : parts ∈ t.named place suffix) :
    t.locate (p.append parts) = .ok (place ++ parts) := by
  refine locate_append hplace (ht.notMem_of_named h) fun hne => isDirectory_of_named h ?_ ?_
  · exact (List.prefix_append_right_inj _).2 (List.dropLast_prefix _)
  · intro heq
    have := congrArg List.length (List.append_cancel_left heq)
    have := List.length_pos_iff.2 hne
    rw [List.length_dropLast] at *
    omega

theorem nodup_eraseDups {α : Type} [BEq α] [LawfulBEq α] (as : List α) : as.eraseDups.Nodup := by
  induction hn : as.length using Nat.strongRecOn generalizing as with
  | ind n ih =>
    cases as with
    | nil => exact List.nodup_nil
    | cons a as =>
      rw [List.eraseDups_cons]
      refine List.nodup_cons.2 ⟨fun h => ?_, ih _ ?_ _ rfl⟩
      · rw [List.mem_eraseDups, List.mem_filter] at h
        simp at h
      · have := List.length_filter_le (fun b => !b == a) as
        rw [List.length_cons] at hn
        omega

/-- The listing has everything once. -/
theorem nodup_named (t : FileTree) (place : List String) (suffix : String) : (t.named place suffix).Nodup := by
  have hbelow : (t.below place).Nodup := nodup_eraseDups _
  refine List.Nodup.map_on ?_ ((List.mergeSort_perm _ _).nodup_iff.2 (hbelow.filter _))
  intro x hx y hy heq
  simp only [List.mem_mergeSort, List.mem_filter, mem_below] at hx hy
  obtain ⟨⟨⟨xs, rfl⟩, -⟩, -⟩ := hx
  obtain ⟨⟨⟨ys, rfl⟩, -⟩, -⟩ := hy
  rw [List.drop_left, List.drop_left] at heq
  rw [heq]

end FileTree

end DoBlocks
