import Mathlib.Data.List.ReduceOption
import DoBlocks.Exhaustiveness
import DoBlocks.Proofs.Accepted
import DoBlocks.Proofs.Naming

/-!
# The lines of catch-all calls

The type checker numbers the lines of a module by its line feeds. The calls of catch-alls are looked up in
the lines of the module as they are cut at every line end, and there are more line ends than line feeds.
As far as a module has no other ones, both agree: a line number leads to a catch-all exactly if its call
stands on that line, and errors on such a line are reported at the match of the catch-all.
-/

namespace DoBlocks

/-! ### Lines by line feeds -/

namespace Text

/-- `line` is the line number `n` of a text: it stands between line feeds or the ends of the text, and
`n` is one more than the number of line feeds before it. -/
def HostLine (text : List Char) (n : Nat) (line : List Char) : Prop :=
  ∃ before after, text = before ++ line ++ after ∧ '\n' ∉ line ∧
    (before = [] ∨ ∃ earlier, before = earlier ++ ['\n']) ∧ (after = [] ∨ ∃ later, after = '\n' :: later) ∧
    n = 1 + before.count '\n'

/-- The first `n` lines of a text have no line ends but line feeds. -/
def OnlyLineFeeds (text : List Char) (n : Nat) : Prop :=
  ∀ before after, text = before ++ after → before.count '\n' < n →
    ∀ c ∈ before, isLineEnd c = true → c = '\n'

theorem isLineEnd_lineFeed : isLineEnd '\n' = true := by decide

theorem isLineEnd_carriageReturn : isLineEnd '\r' = true := by decide

/-- What stands before the first line feed is determined by the whole, and so is the rest. -/
theorem append_lineFeed_inj {a b x y : List Char} (ha : '\n' ∉ a) (hb : '\n' ∉ b)
    (h : a ++ '\n' :: x = b ++ '\n' :: y) : a = b ∧ x = y := by
  induction a generalizing b with
  | nil =>
    cases b with
    | nil => exact ⟨rfl, (List.cons.inj h).2⟩
    | cons c b =>
      have hc : '\n' = c := (List.cons.inj h).1
      exact absurd (hc ▸ List.mem_cons_self) hb
  | cons d a ih =>
    cases b with
    | nil =>
      have hd : d = '\n' := (List.cons.inj h).1
      exact absurd (hd ▸ List.mem_cons_self) ha
    | cons c b =>
      obtain ⟨rfl, htail⟩ := List.cons.inj h
      obtain ⟨rfl, rfl⟩ := ih (fun h => ha (.tail _ h)) (fun h => hb (.tail _ h)) htail
      exact ⟨rfl, rfl⟩

/-- A text without line feeds is its only line. -/
theorem hostLine_of_notMem {text line : List Char} {n : Nat} (h : '\n' ∉ text) :
    HostLine text n line ↔ n = 1 ∧ line = text := by
  constructor
  · rintro ⟨before, after, rfl, -, hbefore, hafter, rfl⟩
    have hb : before = [] := by
      rcases hbefore with hb | ⟨earlier, rfl⟩
      · exact hb
      · exact absurd (by simp) h
    have ha : after = [] := by
      rcases hafter with ha | ⟨later, rfl⟩
      · exact ha
      · exact absurd (by simp) h
    subst hb ha
    simp
  · rintro ⟨rfl, rfl⟩
    exact ⟨[], [], by simp, h, .inl rfl, .inl rfl, rfl⟩

/-- The lines of a text are the first one and those after the first line feed. -/
theorem hostLine_append_lineFeed {first rest line : List Char} {n : Nat} (h : '\n' ∉ first) :
    HostLine (first ++ '\n' :: rest) n line ↔
      n = 1 ∧ line = first ∨ ∃ m, n = m + 1 ∧ HostLine rest m line := by
  constructor
  · rintro ⟨before, after, heq, hline, hbefore, hafter, rfl⟩
    rcases hbefore with rfl | ⟨earlier, rfl⟩
    · left
      rcases hafter with rfl | ⟨later, rfl⟩
      · have hmem : '\n' ∈ line := by
          have : '\n' ∈ first ++ '\n' :: rest := by simp
          simpa [heq] using this
        exact absurd hmem hline
      · obtain ⟨rfl, -⟩ := append_lineFeed_inj h hline heq
        exact ⟨rfl, rfl⟩
    · right
      have heq : first ++ '\n' :: rest = earlier ++ '\n' :: (line ++ after) := by simpa using heq
      by_cases he : '\n' ∈ earlier
      · obtain ⟨start, more, rfl, hstart⟩ := List.eq_append_cons_of_mem he
        have heq : first ++ '\n' :: rest = start ++ '\n' :: (more ++ '\n' :: (line ++ after)) := by
          simpa using heq
        obtain ⟨rfl, rfl⟩ := append_lineFeed_inj h hstart heq
        refine ⟨1 + (more ++ ['\n']).count '\n', ?_, more ++ ['\n'], after, by simp, hline,
          .inr ⟨more, rfl⟩, hafter, rfl⟩
        simp [List.count_eq_zero_of_not_mem h]
        omega
      · obtain ⟨rfl, rfl⟩ := append_lineFeed_inj h he heq
        refine ⟨1, ?_, [], after, by simp, hline, .inl rfl, hafter, rfl⟩
        simp [List.count_eq_zero_of_not_mem h]
  · rintro (⟨rfl, rfl⟩ | ⟨m, rfl, before, after, rfl, hline, hbefore, hafter, rfl⟩)
    · exact ⟨[], '\n' :: rest, by simp, h, .inl rfl, .inr ⟨rest, rfl⟩, rfl⟩
    · refine ⟨first ++ '\n' :: before, after, by simp, hline, ?_, hafter, ?_⟩
      · rcases hbefore with rfl | ⟨earlier, rfl⟩
        · exact .inr ⟨first, rfl⟩
        · exact .inr ⟨first ++ '\n' :: earlier, by simp⟩
      · simp [List.count_eq_zero_of_not_mem h]
        omega

namespace OnlyLineFeeds

variable {first rest : List Char} {n : Nat}

/-- The line end after the first line is a line feed. -/
theorem eq_lineFeed {c : Char} (h : OnlyLineFeeds (first ++ c :: rest) n) (hfirst : '\n' ∉ first)
    (hn : 0 < n) (hc : isLineEnd c = true) : c = '\n' := by
  by_contra hne
  apply hne
  refine h (first ++ [c]) rest (by simp) ?_ c (by simp) hc
  have : (first ++ [c]).count '\n' = 0 := by
    simp [List.count_eq_zero_of_not_mem hfirst, hne]
  omega

theorem tail (h : OnlyLineFeeds (first ++ '\n' :: rest) (n + 1)) (hfirst : '\n' ∉ first) :
    OnlyLineFeeds rest n := by
  intro before after heq hcount c hc
  refine h (first ++ '\n' :: before) after (by simp [heq]) ?_ c (by simp [hc])
  simp [List.count_eq_zero_of_not_mem hfirst]
  omega

theorem of_all {text : List Char} (h : ∀ c ∈ text, isLineEnd c = true → c = '\n') (n : Nat) :
    OnlyLineFeeds text n := by
  rintro before after rfl _ c hc
  exact h c (List.mem_append_left _ hc)

end OnlyLineFeeds

/-- Where all line ends are line feeds, cutting a text at line ends gives its lines. -/
theorem getElem?_linesFrom_iff {current cs line : List Char} {i : Nat} (hcurrent : '\n' ∉ current)
    (honly : OnlyLineFeeds (current.reverse ++ cs) (i + 1)) (hline : line ≠ []) :
    (linesFrom current cs)[i]? = some line ↔ HostLine (current.reverse ++ cs) (i + 1) line := by
  have hreverse : '\n' ∉ current.reverse := by simpa using hcurrent
  fun_induction linesFrom current cs generalizing i with
  | case1 current hempty =>
    obtain rfl : current = [] := by simpa using hempty
    rw [hostLine_of_notMem (by simp)]
    simpa using fun _ => hline
  | case2 current hne =>
    rw [List.append_nil, hostLine_of_notMem hreverse]
    cases i with
    | zero => simp [eq_comm]
    | succ i => simp
  | case3 current rest ih =>
    have := honly.eq_lineFeed hreverse (Nat.succ_pos i) isLineEnd_carriageReturn
    exact absurd this (by decide)
  | case4 current c rest hnot hend ih =>
    obtain rfl := honly.eq_lineFeed hreverse (Nat.succ_pos i) hend
    rw [hostLine_append_lineFeed hreverse]
    cases i with
    | zero =>
      have hno : ¬ HostLine rest 0 line := by
        rintro ⟨_, _, -, -, -, -, hcount⟩
        omega
      simp [hno, eq_comm]
    | succ i =>
      have hrest := ih (by simp) (honly.tail hreverse) (by simp)
      rw [List.reverse_nil, List.nil_append] at hrest
      simp [hrest]
  | case5 current c rest hnot hend ih =>
    have hc : '\n' ≠ c := by
      rintro rfl
      exact hend isLineEnd_lineFeed
    have hsame : (c :: current).reverse ++ rest = current.reverse ++ c :: rest := by simp
    have hmore := ih (by simp [hc, hcurrent]) (hsame ▸ honly) (by simp [hc, hcurrent])
    rwa [hsame] at hmore

end Text

/-! ### Calls on lines -/

namespace Exhaustiveness

open Text (HostLine OnlyLineFeeds)

variable {s u : CatchAllSite} {line code filename : String} {n : Nat} {calls : List (Nat × CatchAllSite)}

/-- The call of a catch-all is all that the line number `n` of the module holds. -/
def CallOnLine (callee : String) (s : CatchAllSite) (code : String) (n : Nat) : Prop :=
  ∃ line, HostLine code.toList n line ∧ Text.strip (String.ofList line) = callText callee s

theorem callText_injective {callee : String} (h : callText callee s = callText callee u) : s.subject = u.subject := by
  have h : callee ++ "(" ++ s.subject ++ ")" = callee ++ "(" ++ u.subject ++ ")" := h
  simpa using h

theorem callText_ne_strip_nil (callee : String) (s : CatchAllSite) :
    Text.strip (String.ofList []) ≠ callText callee s := by
  intro h
  have h : "" = callee ++ "(" ++ s.subject ++ ")" := h
  have hlength := congrArg String.length h
  rw [String.length_append, show ")".length = 1 from rfl] at hlength
  simp at hlength

variable {callee : String} {sites : List CatchAllSite}

theorem siteAt?_some (h : siteAt? callee sites line = some s) :
    s ∈ sites ∧ Text.strip line = callText callee s := by
  unfold siteAt? at h
  have htest := List.find?_some h
  exact ⟨List.mem_reverse.1 (List.mem_of_find?_eq_some h), (beq_iff_eq.1 htest).symm⟩

/-- Among catch-alls with different subjects a line leads to the one whose call it holds. -/
theorem siteAt?_eq_some_iff (hsites : (sites.map CatchAllSite.subject).Nodup) :
    siteAt? callee sites line = some s ↔ s ∈ sites ∧ Text.strip line = callText callee s := by
  constructor
  · exact siteAt?_some
  · rintro ⟨hs, hcall⟩
    have hsome : (siteAt? callee sites line).isSome := by
      rw [siteAt?, List.find?_isSome]
      exact ⟨s, List.mem_reverse.2 hs, beq_iff_eq.2 hcall.symm⟩
    obtain ⟨u, hu⟩ := Option.isSome_iff_exists.1 hsome
    obtain ⟨hmem, hcall'⟩ := siteAt?_some hu
    have heq : u = s :=
      List.inj_on_of_nodup_map hsites hmem hs (callText_injective (hcall'.symm.trans hcall))
    rwa [heq] at hu

theorem mem_linesFrom_iff {k : Nat} {lines : List String} :
    (n, s) ∈ linesFrom callee sites k lines ↔
      ∃ i line, n = k + i ∧ lines[i]? = some line ∧ siteAt? callee sites line = some s := by
  induction lines generalizing k with
  | nil => simp [linesFrom]
  | cons line rest ih =>
    rw [linesFrom, List.mem_append, ih]
    constructor
    · rintro (h | ⟨i, line', rfl, hline, hsite⟩)
      · obtain ⟨u, hu, heq⟩ := Option.map_eq_some_iff.1 (Option.mem_toList.1 h)
        cases heq
        exact ⟨0, line, rfl, rfl, hu⟩
      · exact ⟨i + 1, line', by omega, hline, hsite⟩
    · rintro ⟨i, line', rfl, hline, hsite⟩
      cases i with
      | zero =>
        cases hline
        exact .inl (Option.mem_toList.2 (by rw [hsite]; rfl))
      | succ i => exact .inr ⟨i, line', by omega, hline, hsite⟩

/-- Where all line ends are line feeds, a line number leads to the catch-all whose call is on that line,
and to nothing else. -/
theorem mem_callLines_iff (hsites : (sites.map CatchAllSite.subject).Nodup) (honly : OnlyLineFeeds code.toList n) :
    (n, s) ∈ callLines callee sites code ↔ s ∈ sites ∧ CallOnLine callee s code n := by
  rw [callLines, mem_linesFrom_iff]
  constructor
  · rintro ⟨i, line, rfl, hline, hsite⟩
    obtain ⟨hs, hcall⟩ := siteAt?_some hsite
    rw [Text.splitLines, List.getElem?_map, Option.map_eq_some_iff] at hline
    obtain ⟨cs, hcs, rfl⟩ := hline
    have hne : cs ≠ [] := by
      rintro rfl
      exact callText_ne_strip_nil callee s hcall
    rw [Nat.add_comm] at honly ⊢
    exact ⟨hs, cs, (Text.getElem?_linesFrom_iff (by simp) honly hne).1 hcs, hcall⟩
  · rintro ⟨hs, cs, hhost, hcall⟩
    have hne : cs ≠ [] := by
      rintro rfl
      exact callText_ne_strip_nil callee s hcall
    obtain ⟨i, rfl⟩ : ∃ i, n = i + 1 := by
      obtain ⟨_, _, -, -, -, -, rfl⟩ := hhost
      exact ⟨_, Nat.add_comm _ _⟩
    have hcs : (Text.linesFrom [] code.toList)[i]? = some cs :=
      (Text.getElem?_linesFrom_iff (by simp) honly hne).2 hhost
    refine ⟨i, String.ofList cs, Nat.add_comm _ _, ?_, (siteAt?_eq_some_iff hsites).2 ⟨hs, hcall⟩⟩
    rw [Text.splitLines, List.getElem?_map, hcs]
    rfl

/-! ### Verdicts of the type checker -/

/-- Each line number is listed once. -/
theorem eq_of_mem_callLines (hs : (n, s) ∈ callLines callee sites code) (hu : (n, u) ∈ callLines callee sites code) :
    s = u := by
  obtain ⟨i, line, hi, hline, hs⟩ := mem_linesFrom_iff.1 hs
  obtain ⟨j, line', hj, hline', hu⟩ := mem_linesFrom_iff.1 hu
  obtain rfl : i = j := by omega
  cases hline.symm.trans hline'
  exact Option.some.inj (hs.symm.trans hu)

/-- The report of an error that the type checker has found on the line of a catch-all. -/
def uncovered (filename message : String) (s : CatchAllSite) : Diagnostic :=
  .atSpan .exhaustiveness s!"Patterns do not cover every value of the source ({message})" (some s.span) none
    filename

/-- What a line of the type checker has to lead to: an error on the line of a call to one report at the
match of its catch-all, anything else to none. -/
def Verdict (callee : String) (sites : List CatchAllSite) (code filename line : String)
    (d : Option Diagnostic) : Prop :=
  match ReportLine.ofString? line with
  | some ⟨n, .error, message⟩ =>
    (∀ s ∈ sites, CallOnLine callee s code n → d = some (uncovered filename message s)) ∧
      ((∀ s ∈ sites, ¬ CallOnLine callee s code n) → d = none)
  | _ => d = none

theorem finding?_of_error {message : String} (h : ReportLine.ofString? line = some ⟨n, .error, message⟩) :
    finding? calls filename line =
      (calls.find? fun c => c.1 == n).map fun c => uncovered filename message c.2 := by
  unfold finding?
  rw [h]
  change (calls.find? fun c => c.1 == n).bind (fun c => some (uncovered filename message c.2)) = _
  cases calls.find? fun c => c.1 == n <;> rfl

theorem finding?_of_not_error (h : ∀ n message, ReportLine.ofString? line ≠ some ⟨n, .error, message⟩) :
    finding? calls filename line = none := by
  unfold finding?
  cases hr : ReportLine.ofString? line with
  | none => rfl
  | some r =>
    obtain ⟨n, severity, message⟩ := r
    cases severity with
    | error => exact absurd hr (h n message)
    | note => rfl

theorem finding?_verdict (hsites : (sites.map CatchAllSite.subject).Nodup)
    (honly : ∀ r, ReportLine.ofString? line = some r → r.severity = .error → OnlyLineFeeds code.toList r.line) :
    Verdict callee sites code filename line (finding? (callLines callee sites code) filename line) := by
  unfold Verdict
  split
  · rename_i n message hr
    have hlines {s : CatchAllSite} : (n, s) ∈ callLines callee sites code ↔ _ :=
      mem_callLines_iff hsites (honly _ hr rfl)
    rw [finding?_of_error hr]
    constructor
    · intro s hs hcall
      have hmem : (n, s) ∈ callLines callee sites code := hlines.2 ⟨hs, hcall⟩
      have hsome : ((callLines callee sites code).find? fun c => c.1 == n).isSome := by
        rw [List.find?_isSome]
        exact ⟨(n, s), hmem, beq_self_eq_true n⟩
      obtain ⟨⟨m, u⟩, hu⟩ := Option.isSome_iff_exists.1 hsome
      have htest := List.find?_some hu
      have hm : m = n := beq_iff_eq.1 htest
      have heq : u = s := eq_of_mem_callLines (hm ▸ List.mem_of_find?_eq_some hu) hmem
      rw [hu, heq]
      rfl
    · intro hno
      rw [Option.map_eq_none_iff, List.find?_eq_none]
      rintro ⟨m, u⟩ hmem hm
      obtain rfl : m = n := beq_iff_eq.1 hm
      obtain ⟨hu, hcall⟩ := hlines.1 hmem
      exact hno u hu hcall
  · rename_i hr
    exact finding?_of_not_error hr

theorem check_diagnostics {settings : Settings} {checker : List String → CheckerReport}
    (h : (checker (checkerFlags ++ settings.checkerArgs ++ ["-c", code])).status ≠ failedStatus) :
    (check settings checker code sites callee filename).diagnostics =
      findings (callLines callee sites code) filename
        (checker (checkerFlags ++ settings.checkerArgs ++ ["-c", code])) := by
  unfold check
  dsimp only
  split
  · rename_i hempty
    rw [List.isEmpty_iff.1 hempty]
    symm
    rw [findings, List.filterMap_eq_nil_iff]
    intro line _
    by_cases herror : ∃ n message, ReportLine.ofString? line = some ⟨n, .error, message⟩
    · obtain ⟨n, message, hr⟩ := herror
      exact finding?_of_error hr
    · apply finding?_of_not_error
      intro n message hr
      exact herror ⟨n, message, hr⟩
  · rw [if_neg (by simpa using h)]

/-- An error of the type checker on the line of a catch-all is reported once, at the match of the
catch-all, and nothing else is reported, as far as the lines before it end in line feeds only. -/
theorem errors_reach_their_match {guards : Bool} {names : Allocator} {st : Lowering.State}
    (h : Lowering.Reached guards names st) (callee code : String) :
    (∀ n s, OnlyLineFeeds code.toList n →
      ((n, s) ∈ callLines callee (st.obligations.map Obligation.site) code ↔
        s ∈ st.obligations.map Obligation.site ∧ CallOnLine callee s code n)) ∧
    ∀ settings checker filename report,
      report = checker (checkerFlags ++ settings.checkerArgs ++ ["-c", code]) →
      report.status ≠ failedStatus →
      (∀ line ∈ Text.splitLines report.stdout, ∀ r, ReportLine.ofString? line = some r →
        r.severity = .error → OnlyLineFeeds code.toList r.line) →
      ∃ verdicts,
        List.Forall₂ (Verdict callee (st.obligations.map Obligation.site) code filename)
          (Text.splitLines report.stdout) verdicts ∧
        (check settings checker code (st.obligations.map Obligation.site) callee filename).diagnostics =
          verdicts.reduceOption := by
  have hsites : ((st.obligations.map Obligation.site).map CatchAllSite.subject).Nodup := by
    have hall := h.nodup_recorded
    rw [Lowering.State.recorded, List.map_append, List.map_append] at hall
    have hsubjects := hall.of_append_left.of_append_right
    simpa [List.map_map, Function.comp_def, Obligation.site] using hsubjects
  refine ⟨fun n s honly => mem_callLines_iff hsites honly, ?_⟩
  rintro settings checker filename report rfl hstatus honly
  generalize hlines : Text.splitLines _ = lines at honly ⊢
  refine ⟨lines.map (finding? (callLines callee (st.obligations.map Obligation.site) code) filename), ?_, ?_⟩
  · rw [List.forall₂_map_right_iff, List.forall₂_same]
    intro line hline
    exact finding?_verdict hsites (honly line hline)
  · rw [check_diagnostics hstatus, findings, hlines, List.reduceOption, List.filterMap_map]
    rfl

/-- A type checker that finds errors on the second and on the first line of every module. -/
def twoErrors : List String → CheckerReport :=
  fun _ => ⟨"m.py:2: error: no\nm.py:1: error: other\n", "", 1⟩

/-- The call of the first catch-all, on a second line. -/
def callBelow : String := "pass\n  _lm_assert_never_1(_lm_unmatched_0)\n"

/-- Of two errors the one on the line of the call is reported. -/
theorem errors_reach_their_match_second_line :
    ∃ b st s, Block.parse "do" "\x7b let 1 match x\n y \x7d" = .ok b ∧
      st = (outcome (Lowering.lowerSite true .returning b) (.initial ⟨"_lm", 0, []⟩)).2 ∧
      st.obligations.map Obligation.site = [s] ∧ CallOnLine "_lm_assert_never_1" s callBelow 2 ∧
      (check .default twoErrors callBelow (st.obligations.map Obligation.site) "_lm_assert_never_1"
        "m.py").diagnostics = [uncovered "m.py" "no" s] := by
  let site : CatchAllSite := ⟨"_lm_unmatched_0", ⟨⟨1, 2⟩, ⟨1, 15⟩⟩⟩
  obtain ⟨b, hb, hsites⟩ := Block.exists_parse_of_reads
    (show Block.reads "do" "\x7b let 1 match x\n y \x7d" (fun b =>
      (outcome (Lowering.lowerSite true .returning b) (.initial ⟨"_lm", 0, []⟩)).2.obligations.map
        Obligation.site == [site]) = true by decide +kernel)
  rw [beq_iff_eq] at hsites
  refine ⟨b, _, site, hb, rfl, hsites, ?_⟩
  have hreached : Lowering.Reached true ⟨"_lm", 0, []⟩ _ :=
    .lowered .returning (Block.Accepted.wellFormed (.inl ⟨_, _, hb⟩)) .start
  obtain ⟨hlines, hverdicts⟩ := errors_reach_their_match hreached "_lm_assert_never_1" callBelow
  rw [hsites] at hlines hverdicts ⊢
  have honly (n : Nat) : OnlyLineFeeds callBelow.toList n := .of_all (Text.forall_mem_of_all (by decide)) n
  have hcall : CallOnLine "_lm_assert_never_1" site callBelow 2 :=
    ((hlines 2 site (honly 2)).1 (by decide)).2
  refine ⟨hcall, ?_⟩
  have hno : ∀ s ∈ [site], ¬ CallOnLine "_lm_assert_never_1" s callBelow 1 := by
    intro s hs hfirst
    obtain rfl := List.mem_singleton.1 hs
    exact absurd ((hlines 1 site (honly 1)).2 ⟨hs, hfirst⟩) (by decide)
  obtain ⟨verdicts, hall, heq⟩ := hverdicts .default twoErrors "m.py" _ rfl (by decide)
    (fun _ _ r _ _ => honly r.line)
  have hstdout (args : List String) :
      Text.splitLines (twoErrors args).stdout = ["m.py:2: error: no", "m.py:1: error: other"] := by
    show Text.splitLines (twoErrors []).stdout = _
    decide
  rw [hstdout] at hall
  obtain ⟨d, rest, hd, hrest, rfl⟩ := List.forall₂_cons_left_iff.1 hall
  obtain ⟨e, rest, he, hnil, rfl⟩ := List.forall₂_cons_left_iff.1 hrest
  obtain rfl := List.forall₂_nil_left_iff.1 hnil
  have hd : d = some (uncovered "m.py" "no" site) := hd.1 site (by simp) hcall
  have he : e = none := he.2 hno
  rw [heq, hd, he]
  rfl

/-- A form feed ends a line, but does not count as one: the call on the second line is looked for on the
third. -/
theorem call_after_form_feed :
    ∃ (s : CatchAllSite) (code : String), '\r' ∉ code.toList ∧
      CallOnLine "_lm_assert_never_1" s code 2 ∧ callLines "_lm_assert_never_1" [s] code = [(3, s)] := by
  refine ⟨⟨"_lm_unmatched_0", ⟨⟨1, 0⟩, ⟨1, 5⟩⟩⟩,
    "s = '\x0c'\n_lm_assert_never_1(_lm_unmatched_0)\n", by decide, ?_, by decide⟩
  refine ⟨"_lm_assert_never_1(_lm_unmatched_0)".toList, ⟨"s = '\x0c'\n".toList, ['\n'], by decide, by decide,
    ?_, ?_, by decide⟩, by decide⟩
  · exact .inr ⟨"s = '\x0c'".toList, by decide⟩
  · exact .inr ⟨[], rfl⟩

end Exhaustiveness

end DoBlocks
