import DoBlocks.Proofs.Containment

/-!
# Reading is total

Reading comes to its end from every place in a text. It gives a block or a fault, unless some range of the text is
unreadable.
-/

namespace DoBlocks

namespace BlockReader

variable {st : State}

/-- What reading from `st` on comes to does not depend on the bounds of its loops, and whatever it comes to, it has
moved past tokens to come and not past the end of the text. -/
structure Total (keyword : String) (st : State) : Prop where
  depth : ∀ boundary depth, st.rest.length < depth →
    outcome (blockAt keyword depth boundary) st = outcome (nextBlock keyword boundary) st
  unfolds : ∀ boundary,
    outcome (nextBlock keyword boundary) st = outcome (blockBody keyword (nextBlock keyword) boundary) st
  statements : ∀ opener fuel, st.rest.length < fuel →
    outcome (statements keyword (nextBlock keyword) opener fuel) st =
      outcome (statements keyword (nextBlock keyword) opener (st.rest.length + 1)) st
  arms : ∀ fuel, st.rest.length ≤ fuel →
    outcome (moreArms keyword (nextBlock keyword) fuel) st =
      outcome (moreArms keyword (nextBlock keyword) st.rest.length) st
  branches : ∀ fuel, st.rest.length ≤ fuel →
    outcome (moreBranches keyword (nextBlock keyword) fuel) st =
      outcome (moreBranches keyword (nextBlock keyword) st.rest.length) st
  sites : ∀ before brackets fuel, st.rest.length < fuel →
    outcome (Site.locateFrom keyword fuel before brackets) st =
      outcome (Site.locateFrom keyword (st.rest.length + 1) before brackets) st
  block_moved : ∀ boundary, ∃ ts, Moved st ts (outcome (nextBlock keyword boundary) st).2
  text_moved : ∃ ts, Moved st ts (outcome (wholeText keyword) st).2
  sites_moved : ∀ before brackets fuel, st.rest.length < fuel →
    ∃ ts, Moved st ts (outcome (Site.locateFrom keyword fuel before brackets) st).2
  statement_moved : ∃ ts, Moved st ts (outcome (statement keyword (nextBlock keyword)) st).2
  /-- A statement that is read takes a token. -/
  progress : ∀ s st', Yields (statement keyword (nextBlock keyword)) st s st' → ∃ ts, ts ≠ [] ∧ Moved st ts st'

theorem total_of_sound (keyword : String) (hs : Sound st) : Total keyword st := by
  have hst : Within (.any st) st.rest.length st := .refl hs
  have hread : ∀ boundary, Reads (nextBlock keyword boundary) (BlockLayout keyword sized) := nextBlock_moved sized_read
  have hcalm : ¬ (Ground.any st).calm := id
  have hblocks : BlocksAgree (.any st) st.rest.length (nextBlock keyword) (nextBlock keyword) :=
    fun _ _ boundary => nextBlock_stays boundary
  exact {
    depth := fun boundary depth hd => (nextBlock_agree hd boundary hst).same.symm
    unfolds := fun boundary => (nextBlock_unfold boundary hst).same
    statements := fun opener fuel hf => (statements_agree hread hblocks opener hf (Nat.lt_succ_self _) hst).same
    arms := fun fuel hf => (moreArms_agree hblocks hf (Nat.le_refl _) hst).same
    branches := fun fuel hf => (moreBranches_agree hblocks hf (Nat.le_refl _) hst).same
    sites := fun before brackets fuel hf => (Site.locateFrom_agree hcalm hf (Nat.lt_succ_self _) hst).same
    block_moved := fun boundary => (nextBlock_stays boundary hst).stays.moved
    text_moved := (wholeText_stays hst).stays.moved
    sites_moved := fun before brackets fuel hf => (Site.locateFrom_agree hcalm hf hf hst).stays.moved
    statement_moved := (statement_agree hblocks hst).stays.moved
    progress := fun s st' hy => by
      obtain ⟨ts, hm, hlayout⟩ := BlockReader.statement_moved sized_read hread hs hy
      exact ⟨ts, ne_nil_of_statementLayout hlayout, hm⟩ }

end BlockReader

open BlockReader

/-- Some range of the tokens of the text stops the reader, and not with a fault. -/
def HasUnreadable (text : String) : Prop :=
  ∃ s ts, Script.ofText text = .ok s ∧ ts <:+: s.tokens ∧ Unreadable ts

/-- Reading the text gives a result or a fault, unless some range of it stops the reader. -/
def Settles (text : String) (r : Except BlockFailure α) : Prop :=
  (∃ a, r = .ok a) ∨ (∃ e, r = .error (.fault e)) ∨ HasUnreadable text

theorem settles_of_readable {text : String} {r : Except BlockFailure α}
    (hfault : ∀ e, Script.ofText text = .error e → r = .error (.fault e))
    (h : ∀ s, Script.ofText text = .ok s → (∀ ts, ts <:+: s.tokens → ¬ Unreadable ts) →
      ∀ e, r = .error e → ∃ p, e = .fault p) : Settles text r := by
  cases hs : Script.ofText text with
  | error e => exact .inr (.inl ⟨e, hfault e hs⟩)
  | ok s =>
    by_cases hun : HasUnreadable text
    · exact .inr (.inr hun)
    · have hfaults := h s hs fun ts hts hu => hun ⟨s, ts, hs, hts, hu⟩
      cases hr : r with
      | ok a => exact .inl ⟨a, rfl⟩
      | error e =>
        obtain ⟨p, rfl⟩ := hfaults e hr
        exact .inr (.inl ⟨p, rfl⟩)

theorem parse_settles (keyword text : String) : Settles text (Block.parse keyword text) := by
  refine settles_of_readable (fun e he => by rw [Block.parse, he]) fun s hs hall e he => ?_
  rw [Block.parse, hs] at he
  have hst : Within (.ofReadable (.start s 0) hall) _ (.start s 0) := .refl (sound_start hs 0)
  exact (wholeText_stays hst).faults trivial he

theorem parseAt_settles (keyword text : String) (index : Nat) (boundary : Bool) :
    Settles text (Block.parseAt keyword text index boundary) := by
  refine settles_of_readable (fun e he => by rw [Block.parseAt, he]) fun s hs hall e he => ?_
  have hrest (ts : List SpacedToken) (hts : ts <:+: (State.start s index).rest) : ¬ Unreadable ts :=
    hall ts (hts.trans (List.drop_suffix _ _).isInfix)
  have hst : Within (.ofReadable (.start s index) hrest) _ (.start s index) := .refl (sound_start hs index)
  rw [Block.parseAt, hs] at he
  dsimp only at he
  split at he
  · cases he
  · rename_i hrun
    cases he
    exact (nextBlock_stays boundary hst).faults trivial (congrArg Prod.fst hrun)

theorem locateSites_settles (keyword text : String) : Settles text (locateSites keyword text) := by
  refine settles_of_readable (fun e he => by rw [locateSites, he]) fun s hs hall e he => ?_
  obtain ⟨ss, st', hy⟩ := @Site.exists_locateFrom keyword [] s.tokens _ (s.tokens.length + 1) 0 (sound_start hs 0)
    (List.suffix_refl _) fun ts hts => hall ts hts.isInfix
  rw [locateSites, hs] at he
  cases (congrArg Prod.fst hy).symm.trans he

/-- Reading ends by itself from every place in a text, and gives a block, a fault or the range that stops it. -/
theorem reading_total (keyword text : String) :
    (∀ s, Script.ofText text = .ok s → ∀ ts, ts <:+ s.tokens → ∀ last markers,
      Total keyword ⟨ts, last, s.stop, markers⟩) ∧
    Settles text (Block.parse keyword text) ∧
    (∀ index boundary, Settles text (Block.parseAt keyword text index boundary)) ∧
    Settles text (locateSites keyword text) := by
  refine ⟨fun s hs ts hts last markers => total_of_sound keyword ?_, parse_settles keyword text,
    parseAt_settles keyword text, locateSites_settles keyword text⟩
  have hsound := sound_start hs 0
  exact ⟨hsound.stop, fun t ht => hsound.genuine t (hts.subset ht)⟩

/-- A byte string next to a string is refused by the host, and in the text for the host a marker before a string with
nested quotes can take the number of a later call. -/
theorem parse_unsettled :
    (Block.parse "do" "\x7b b\"a\" \"b\" \x7d").map (fun _ => ()) = .error .spelling ∧
      (Block.parse "do" "\x7b g(^f\"\x7ba[\", (\"]\x7d\", 7)) \x7d").map (fun _ => ()) = .error .unknownMark := by
  decide +kernel

end DoBlocks
