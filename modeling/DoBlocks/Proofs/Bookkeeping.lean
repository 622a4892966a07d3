import DoBlocks.Proofs.Accepted
import DoBlocks.Proofs.Accounts
import DoBlocks.Proofs.Naming

/-!
# The books of lowering

Obligations and wrappers are recorded while blocks are lowered. Each obligation belongs to one match that
its cases leave open, and each wrapper to one block with escapes; the code has a catch-all and a wrapper
for each of them that is kept. Only what follows a test that always escapes is recorded and not kept.
-/

namespace DoBlocks

/-- A match that its cases leave open, and whether its code is kept. -/
structure OpenMatch where
  kept : Bool
  cases : List CaseHead
  span : Span

/-- A boundary block with escapes, and whether its code is kept. -/
structure WrappedBlock where
  kept : Bool
  block : Block

mutual

/-- A landmark and all those inside it, each with whether its code is kept. -/
def Landmark.nodes (kept : Bool) : Landmark → List (Bool × Landmark)
  | .exit operand => [(kept, .exit operand)]
  | .openMatch cases span => [(kept, .openMatch cases span)]
  | .boundary b inside => (kept, .boundary b inside) :: nodesOf kept inside
  | .loop inside => (kept, .loop inside) :: nodesOf kept inside
  | .dropped inside => (kept, .dropped inside) :: nodesOf false inside

def Landmark.nodesOf (kept : Bool) : List Landmark → List (Bool × Landmark)
  | [] => []
  | m :: ms => m.nodes kept ++ nodesOf kept ms

end

mutual

/-- A sight and all those inside it. -/
def Sight.nodes : Sight → List Sight
  | .exit w value => [.exit w value]
  | .guarded cases c => [.guarded cases c]
  | .wrapped w inside => .wrapped w inside :: nodesOf inside
  | .loop next inside => .loop next inside :: nodesOf inside

def Sight.nodesOf : List Sight → List Sight
  | [] => []
  | s :: ss => s.nodes ++ nodesOf ss

end

namespace Landmark

/-- The open matches among landmarks. -/
def matchesOf (kept : Bool) (ms : List Landmark) : List OpenMatch :=
  (nodesOf kept ms).filterMap fun
    | (kept, .openMatch cases span) => some ⟨kept, cases, span⟩
    | _ => none

/-- The blocks with escapes among landmarks. -/
def wrappedOf (kept : Bool) (ms : List Landmark) : List WrappedBlock :=
  (nodesOf kept ms).filterMap fun
    | (kept, .boundary b _) => if b.containsEscape then some ⟨kept, b⟩ else none
    | _ => none

end Landmark

namespace Sight

/-- The catch-alls in sight, each with the cases before it. -/
def catchAllsOf (ss : List Sight) : List (List CaseHead × CatchAll) :=
  (nodesOf ss).filterMap fun
    | .guarded cases c => some (cases, c)
    | _ => none

/-- The wrappers in sight. -/
def wrappersOf (ss : List Sight) : List WrapperNames :=
  (nodesOf ss).filterMap fun
    | .wrapped w _ => some w
    | _ => none

theorem nodesOf_append (xs ys : List Sight) : nodesOf (xs ++ ys) = nodesOf xs ++ nodesOf ys := by
  induction xs with
  | nil => rfl
  | cons s xs ih =>
    show s.nodes ++ nodesOf (xs ++ ys) = s.nodes ++ nodesOf xs ++ nodesOf ys
    rw [ih, List.append_assoc]

theorem catchAllsOf_append (xs ys : List Sight) :
    catchAllsOf (xs ++ ys) = catchAllsOf xs ++ catchAllsOf ys := by
  rw [catchAllsOf, nodesOf_append, List.filterMap_append]
  rfl

theorem wrappersOf_append (xs ys : List Sight) : wrappersOf (xs ++ ys) = wrappersOf xs ++ wrappersOf ys := by
  rw [wrappersOf, nodesOf_append, List.filterMap_append]
  rfl

end Sight

namespace Lowering

/-- The books for landmarks and their sights: one entry for each open match, with the subject of its
catch-all, and one for each block with escapes, with the names of its wrapper. -/
structure Books (callee : HiddenName) (kept : Bool) (ms : List Landmark) (ss : List Sight)
    (os : List Obligation) (ws : List WrapperNames) (es : List (OpenMatch × HiddenName))
    (fs : List (WrappedBlock × WrapperNames)) : Prop where
  openMatches : Landmark.matchesOf kept ms = es.map Prod.fst
  obligations : os = es.map fun e => ⟨e.2, e.1.span⟩
  catchAlls : (es.filter fun e => e.1.kept).map (fun e => (e.1.cases, ⟨callee, e.2⟩)) =
    if kept then Sight.catchAllsOf ss else []
  wrappedBlocks : Landmark.wrappedOf kept ms = fs.map Prod.fst
  wrappers : ws = fs.map Prod.snd
  shownWrappers : (fs.filter fun f => f.1.kept).map Prod.snd = if kept then Sight.wrappersOf ss else []

namespace Books

variable {callee : HiddenName} {kept : Bool} {m : Landmark} {ms : List Landmark} {ss ss' : List Sight}
  {os os' : List Obligation} {ws ws' : List WrapperNames} {es es' : List (OpenMatch × HiddenName)}
  {fs fs' : List (WrappedBlock × WrapperNames)}

theorem nil : Books callee kept [] [] [] [] [] [] :=
  ⟨rfl, rfl, by cases kept <;> rfl, rfl, rfl, by cases kept <;> rfl⟩

theorem cons (h : Books callee kept [m] ss os ws es fs) (h' : Books callee kept ms ss' os' ws' es' fs') :
    Books callee kept (m :: ms) (ss ++ ss') (os ++ os') (ws ++ ws') (es ++ es') (fs ++ fs') where
  openMatches := by
    rw [List.map_append, ← h.openMatches, ← h'.openMatches]
    simp [Landmark.matchesOf, Landmark.nodesOf]
  obligations := by rw [List.map_append, ← h.obligations, ← h'.obligations]
  catchAlls := by
    rw [List.filter_append, List.map_append, h.catchAlls, h'.catchAlls]
    cases kept with
    | false => rfl
    | true => exact (Sight.catchAllsOf_append ss ss').symm
  wrappedBlocks := by
    rw [List.map_append, ← h.wrappedBlocks, ← h'.wrappedBlocks]
    simp [Landmark.wrappedOf, Landmark.nodesOf]
  wrappers := by rw [List.map_append, ← h.wrappers, ← h'.wrappers]
  shownWrappers := by
    rw [List.filter_append, List.map_append, h.shownWrappers, h'.shownWrappers]
    cases kept with
    | false => rfl
    | true => exact (Sight.wrappersOf_append ss ss').symm

/-- What has no entry of its own has the books of what is inside. -/
theorem inside {inside : List Landmark} {inside' : List Sight}
    (h : Books callee kept inside inside' os ws es fs)
    (hm : Landmark.matchesOf kept [m] = Landmark.matchesOf kept inside)
    (hw : Landmark.wrappedOf kept [m] = Landmark.wrappedOf kept inside)
    (hc : Sight.catchAllsOf ss = Sight.catchAllsOf inside')
    (hs : Sight.wrappersOf ss = Sight.wrappersOf inside') : Books callee kept [m] ss os ws es fs :=
  ⟨hm ▸ h.openMatches, h.obligations, hc ▸ h.catchAlls, hw ▸ h.wrappedBlocks, h.wrappers, hs ▸ h.shownWrappers⟩

end Books

/-- Every account has its books. -/
theorem Account.books {guards : Bool} {callee : HiddenName} {w : Option WrapperNames} {ms : List Landmark}
    {ss : List Sight} {os : List Obligation} {ws : List WrapperNames}
    (h : Account guards callee w ms ss os ws) (kept : Bool) :
    ∃ es fs, Books callee kept ms ss os ws es fs := by
  induction h generalizing kept with
  | nil => exact ⟨[], [], .nil⟩
  | @exit w operand value ms ss os ws _ _ ih =>
    obtain ⟨es, fs, h⟩ := ih kept
    have hexit : Books callee kept [.exit operand] [.exit w value] [] [] [] [] :=
      Books.nil.inside rfl rfl rfl rfl
    exact ⟨es, fs, hexit.cons h⟩
  | @guarded w cases span subject ms ss os ws _ ih =>
    obtain ⟨es, fs, h⟩ := ih kept
    have hmatch : Books callee kept [.openMatch cases span] [.guarded cases ⟨callee, subject⟩]
        [⟨subject, span⟩] [] [(⟨kept, cases, span⟩, subject)] [] := by
      cases kept <;> exact ⟨rfl, rfl, rfl, rfl, rfl, rfl⟩
    exact ⟨_, _, hmatch.cons h⟩
  | @wrapped w w' sink b t t' r before after inside inside' ms ss os os' ws ws' hy _ hr _ _ _ ihi ih =>
    obtain ⟨es, fs, hin⟩ := ihi kept
    obtain ⟨es', fs', h⟩ := ih kept
    have hc : b.containsEscape = true := by
      rw [wrapper_lower hy] at hr
      by_contra hc
      rw [if_neg hc] at hr
      cases hr
    have hblock : Books callee kept [.boundary b inside] [.wrapped w' inside'] os (w' :: ws) es
        ((⟨kept, b⟩, w') :: fs) := by
      refine ⟨?_, hin.obligations, ?_, ?_, congrArg (w' :: ·) hin.wrappers, ?_⟩
      · rw [← hin.openMatches]
        simp [Landmark.matchesOf, Landmark.nodesOf, Landmark.nodes]
      · rw [hin.catchAlls]
        simp [Sight.catchAllsOf, Sight.nodesOf, Sight.nodes]
      · rw [List.map_cons, ← hin.wrappedBlocks]
        simp [Landmark.wrappedOf, Landmark.nodesOf, Landmark.nodes, hc]
      · have hshown := hin.shownWrappers
        cases kept with
        | false => simpa using hshown
        | true => simpa [Sight.wrappersOf, Sight.nodesOf, Sight.nodes] using hshown
    exact ⟨_, _, hblock.cons h⟩
  | @unwrapped w sink b t t' r before after inside inside' ms ss os os' ws ws' hy hr _ _ _ ihi ih =>
    obtain ⟨es, fs, hin⟩ := ihi kept
    obtain ⟨es', fs', h⟩ := ih kept
    have hc : b.containsEscape = false := by
      rw [wrapper_lower hy] at hr
      by_contra hc
      rw [if_pos (by simpa using hc)] at hr
      cases hr
    have hblock : Books callee kept [.boundary b inside] inside' os ws es fs := by
      refine hin.inside ?_ ?_ rfl rfl
      · simp [Landmark.matchesOf, Landmark.nodesOf, Landmark.nodes]
      · simp [Landmark.wrappedOf, Landmark.nodesOf, Landmark.nodes, hc]
    exact ⟨_, _, hblock.cons h⟩
  | @loop w next inside inside' ms ss os os' ws ws' _ _ _ ihi ih =>
    obtain ⟨es, fs, hin⟩ := ihi kept
    obtain ⟨es', fs', h⟩ := ih kept
    have hloop : Books callee kept [.loop inside] [.loop next inside'] os ws es fs := by
      refine hin.inside ?_ ?_ ?_ ?_
      · simp [Landmark.matchesOf, Landmark.nodesOf, Landmark.nodes]
      · simp [Landmark.wrappedOf, Landmark.nodesOf, Landmark.nodes]
      · simp [Sight.catchAllsOf, Sight.nodesOf, Sight.nodes]
      · simp [Sight.wrappersOf, Sight.nodesOf, Sight.nodes]
    exact ⟨_, _, hloop.cons h⟩
  | @dropped w inside inside' ms ss os os' ws ws' _ _ ihi ih =>
    obtain ⟨es, fs, hin⟩ := ihi false
    obtain ⟨es', fs', h⟩ := ih kept
    have hdropped : Books callee kept [.dropped inside] [] os ws es fs := by
      refine ⟨?_, hin.obligations, ?_, ?_, hin.wrappers, ?_⟩
      · rw [← hin.openMatches]
        simp [Landmark.matchesOf, Landmark.nodesOf, Landmark.nodes]
      · rw [hin.catchAlls]
        cases kept <;> rfl
      · rw [← hin.wrappedBlocks]
        simp [Landmark.wrappedOf, Landmark.nodesOf, Landmark.nodes]
      · rw [hin.shownWrappers]
        cases kept <;> rfl
    exact ⟨_, _, hdropped.cons h⟩

/-! ### Blocks lowered one after another -/

variable {guards : Bool} {names : Allocator} {steps : List (Sink × Block)} {results : List Result}
  {st st' : State}

/-- Lowers blocks one after another, each for its sink. -/
def lowerInOrder (guards : Bool) (steps : List (Sink × Block)) : Lower (List Result) :=
  steps.mapM fun p => lowerSite guards p.1 p.2

/-- The landmarks of blocks that are lowered one after another. -/
def landmarksOf (guards : Bool) (steps : List (Sink × Block)) : List Landmark :=
  steps.map fun p => .boundary p.2 (p.2.landmarks guards)

/-- The sights of the code of all results. -/
def sightsOfResults (results : List Result) : List Sight :=
  results.flatMap fun r => Lowered.sightsOf [] [] r.statements

theorem yields_lower_of_lowerSite {sink : Sink} {b : Block} {r : Result}
    (h : Yields (lowerSite guards sink b) st r st') : Yields (lower guards sink b) st r st' := by
  have hout : settle st (outcome (lower guards sink b) st) = (.ok r, st') := h
  unfold settle at hout
  split at hout
  · cases hout
  · exact hout

/-- How blocks are lowered one after another. -/
theorem lowerInOrder_cons {p : Sink × Block} (h : Yields (lowerInOrder guards (p :: steps)) st results st') :
    ∃ r t rest, Yields (lowerSite guards p.1 p.2) st r t ∧ Yields (lowerInOrder guards steps) t rest st' ∧
      results = r :: rest := by
  rw [lowerInOrder, List.mapM_cons] at h
  obtain ⟨r, t, hr, h⟩ := Yields.bind_iff.1 h
  obtain ⟨rest, t', hrest, h⟩ := Yields.bind_iff.1 h
  obtain ⟨rfl, rfl⟩ := Yields.pure_iff.1 h
  exact ⟨r, t, rest, hr, hrest, rfl⟩

theorem written_lowerInOrder (h : Yields (lowerInOrder guards steps) st results st') :
    Written guards (landmarksOf guards steps) st (sightsOfResults results) st' := by
  induction steps generalizing st results with
  | nil =>
    obtain ⟨rfl, rfl⟩ := Yields.pure_iff.1 h
    exact .refl _
  | cons p steps ih =>
    obtain ⟨r, t, rest, hr, hrest, rfl⟩ := lowerInOrder_cons h
    have hfirst := written_lower guards (yields_lower_of_lowerSite hr) [] []
    have hall := hfirst.append (ih hrest)
    simpa [sightsOfResults, landmarksOf, Result.statements] using hall

theorem Reached.lowerInOrder (hsteps : ∀ p ∈ steps, p.2.wellFormed true = true)
    (h : Yields (lowerInOrder guards steps) st results st') (hst : Reached guards names st) :
    Reached guards names st' := by
  induction steps generalizing st results with
  | nil =>
    obtain ⟨rfl, rfl⟩ := Yields.pure_iff.1 h
    exact hst
  | cons p steps ih =>
    obtain ⟨r, t, rest, hr, hrest, rfl⟩ := lowerInOrder_cons h
    have ht := Reached.lowered p.1 (hsteps p List.mem_cons_self) hst
    rw [show outcome (lowerSite guards p.1 p.2) st = (.ok r, t) from hr] at ht
    exact ih (fun q hq => hsteps q (.tail _ hq)) hrest ht

/-! ### The books and the code -/

/-- The elements of a list that pass a test are all of them just if all pass. -/
theorem map_filter_eq_map_iff {α β : Type} {p : α → Bool} {f : α → β} {xs : List α} :
    (xs.filter p).map f = xs.map f ↔ ∀ x ∈ xs, p x = true := by
  constructor
  · intro h
    have hlength := congrArg List.length h
    rw [List.length_map, List.length_map] at hlength
    exact List.length_filter_eq_length_iff.1 hlength
  · intro h
    rw [List.filter_eq_self.2 h]

/-- All catch-alls in the code call the function that has its name in the state. -/
theorem Written.callee {ms : List Landmark} {ss : List Sight} (h : Written guards ms st ss st')
    (hne : Sight.catchAllsOf ss ≠ []) : st'.callee.isSome = true := by
  by_contra hnone
  have hcalls (k : HiddenName) : st'.Calls k := by
    intro c hc
    rw [hc] at hnone
    exact absurd rfl hnone
  obtain ⟨os, ws, -, ha⟩ := h
  have hcallee (k : HiddenName) : ∀ c ∈ Sight.catchAllsOf ss, c.2.callee = k := by
    intro c hc
    obtain ⟨es, fs, hbooks⟩ := (ha k (hcalls k)).books true
    have hshown : _ = Sight.catchAllsOf ss := hbooks.catchAlls
    rw [← hshown] at hc
    obtain ⟨e, -, rfl⟩ := List.mem_map.1 hc
    rfl
  -- with no name in the state, the name in the code could be any
  obtain ⟨c, hc⟩ := List.exists_mem_of_ne_nil _ hne
  have hsame := (hcallee ⟨"", "", 0⟩ c hc).symm.trans (hcallee ⟨"", "", 1⟩ c hc)
  exact absurd hsame (by decide)

/-- Each obligation belongs to one open match of the blocks, in their order and with its place, and each
wrapper to one block with escapes. The catch-alls and wrappers in the code are those of the matches and
blocks that are kept. -/
theorem books_match_code (hsteps : ∀ p ∈ steps, p.2.Accepted)
    (h : Yields (lowerInOrder guards steps) (.initial names) results st') :
    ∃ callee es fs,
      Books callee true (landmarksOf guards steps) (sightsOfResults results) st'.obligations st'.wrappers
        es fs ∧
      (Sight.catchAllsOf (sightsOfResults results) ≠ [] → st'.callee = some callee) ∧
      (st'.obligations.map fun o => o.subject.render).Nodup ∧
      ((st'.wrappers.flatMap WrapperNames.toList).map HiddenName.render).Nodup ∧
      ((Sight.catchAllsOf (sightsOfResults results)).map (fun c => c.2.subject) =
          st'.obligations.map Obligation.subject ↔
        ∀ m ∈ Landmark.matchesOf true (landmarksOf guards steps), m.kept = true) ∧
      (Sight.wrappersOf (sightsOfResults results) = st'.wrappers ↔
        ∀ b ∈ Landmark.wrappedOf true (landmarksOf guards steps), b.kept = true) := by
  have hwritten := written_lowerInOrder h
  have hcallee := hwritten.callee
  obtain ⟨os, ws, hrecords, haccount⟩ := hwritten
  have hos : st'.obligations = os := by simpa [State.initial] using hrecords.obligations
  have hws : st'.wrappers = ws := by simpa [State.initial] using hrecords.wrappers
  have hreached : Reached guards names st' := .lowerInOrder (fun p hp => (hsteps p hp).wellFormed) h .start
  have hnodup := hreached.nodup_recorded
  rw [State.recorded, List.map_append, List.map_append] at hnodup
  obtain ⟨callee, hk, hcalls⟩ := st'.exists_calls
  obtain ⟨es, fs, hbooks⟩ := (haccount callee hk).books true
  subst hos hws
  have hcatchAlls : _ = Sight.catchAllsOf (sightsOfResults results) := hbooks.catchAlls
  have hwrappers : _ = Sight.wrappersOf (sightsOfResults results) := hbooks.shownWrappers
  refine ⟨callee, es, fs, hbooks, fun hne => hcalls (hcallee hne), ?_, ?_, ?_, ?_⟩
  · simpa [Function.comp_def] using hnodup.of_append_left.of_append_right
  · exact hnodup.of_append_left.of_append_left
  · rw [← hcatchAlls, hbooks.openMatches, List.map_map, show st'.obligations.map Obligation.subject =
      es.map Prod.snd by rw [hbooks.obligations, List.map_map]; rfl]
    exact map_filter_eq_map_iff.trans (by simp)
  · rw [← hwrappers, hbooks.wrappers, hbooks.wrappedBlocks]
    exact map_filter_eq_map_iff.trans (by simp)

/-- A block with an open match and an escape that is lowered twice: both times are in the code. -/
theorem books_match_code_twice :
    ∃ b results st', Block.parse "do" "\x7b let 1 match x else 2 => ^3\n y \x7d" = .ok b ∧
      Yields (lowerInOrder true [(.returning, b), (.discard, b)]) (.initial ⟨"_lm", 0, []⟩) results st' ∧
      st'.obligations.length = 2 ∧ st'.wrappers.length = 2 ∧
      (Sight.catchAllsOf (sightsOfResults results)).map (fun c => c.2.subject) =
        st'.obligations.map Obligation.subject ∧
      Sight.wrappersOf (sightsOfResults results) = st'.wrappers := by
  obtain ⟨b, hb, htest⟩ := Block.exists_parse_of_reads
    (show Block.reads "do" "\x7b let 1 match x else 2 => ^3\n y \x7d" (fun b =>
      let steps := [(.returning, b), (.discard, b)]
      passes (lowerInOrder true steps) (.initial ⟨"_lm", 0, []⟩)
          (fun _ st' => st'.obligations.length == 2 && st'.wrappers.length == 2) &&
        (Landmark.matchesOf true (landmarksOf true steps)).all (fun m => m.kept) &&
        (Landmark.wrappedOf true (landmarksOf true steps)).all (fun w => w.kept)) = true by decide +kernel)
  rw [Bool.and_eq_true, Bool.and_eq_true, List.all_eq_true, List.all_eq_true] at htest
  obtain ⟨⟨hpasses, hmatches⟩, hwrapped⟩ := htest
  obtain ⟨results, st', hy, hlengths⟩ := exists_yields_of_passes hpasses
  rw [Bool.and_eq_true, beq_iff_eq, beq_iff_eq] at hlengths
  have haccepted : ∀ p ∈ [(Sink.returning, b), (Sink.discard, b)], p.2.Accepted := by
    intro p hp
    have hp : p.2 = b := by
      simp only [List.mem_cons, List.not_mem_nil, or_false] at hp
      rcases hp with rfl | rfl <;> rfl
    rw [hp]
    exact .inl ⟨_, _, hb⟩
  obtain ⟨_, _, _, -, -, -, -, hcatchAlls, hwrappers⟩ := books_match_code haccepted hy
  exact ⟨b, results, st', hb, hy, hlengths.1, hlengths.2, hcatchAlls.2 hmatches, hwrappers.2 hwrapped⟩

/-- A match in the `else` of a test that always escapes is recorded, and the code has no catch-all. -/
theorem obligation_without_catchAll :
    ∃ b r st', Block.parse "do" "\x7b if ^1 \x7b a \x7d else \x7b let 1 match x else 2 => ^3\n y \x7d \x7d" = .ok b ∧
      Yields (lowerSite true .returning b) (.initial ⟨"_lm", 0, []⟩) r st' ∧
      st'.obligations.length = 1 ∧ Sight.catchAllsOf (Lowered.sightsOf [] [] r.statements) = [] := by
  obtain ⟨b, hb, htest⟩ := Block.exists_parse_of_reads
    (show Block.reads "do" "\x7b if ^1 \x7b a \x7d else \x7b let 1 match x else 2 => ^3\n y \x7d \x7d" (fun b =>
      passes (lowerSite true .returning b) (.initial ⟨"_lm", 0, []⟩) (fun r st' =>
        st'.obligations.length == 1 && (Sight.catchAllsOf (Lowered.sightsOf [] [] r.statements)).isEmpty)) = true
      by decide +kernel)
  obtain ⟨r, st', hy, hbooks⟩ := exists_yields_of_passes htest
  rw [Bool.and_eq_true, beq_iff_eq, List.isEmpty_iff] at hbooks
  exact ⟨b, r, st', hb, hy, hbooks.1, hbooks.2⟩

end Lowering

end DoBlocks
