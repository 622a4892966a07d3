import DoBlocks.Proofs.Layout
import DoBlocks.Site

/-!
# Where sites stand

A site starts at the line of its statement and ends with its block. So the sites of a module stand one
after another, except that blocks in one statement give sites with one start: `Located` says which
ranges the walk over the tokens can give. Sites that all start at different places are disjoint.
-/

namespace DoBlocks

open BlockReader

/-- Nothing is asked of fragments. -/
def Fragments.any : Fragments :=
  ⟨fun _ _ => True, fun _ _ => True, fun _ _ => True, fun _ _ => True, fun _ _ => True, fun _ _ => True⟩

theorem Fragments.any_read : Fragments.any.Read :=
  ⟨fun _ _ => trivial, fun _ _ _ => trivial, fun _ _ => trivial, fun _ _ _ => trivial,
    fun _ _ _ => trivial, fun _ _ => trivial⟩

/-! ### Tokens in order -/

/-- The tokens stand one after another, the first after its gap from `cursor` on, all up to `limit`. -/
inductive Ordered (limit : Nat) : Nat → List SpacedToken → Prop
  | nil {cursor : Nat} : cursor ≤ limit → Ordered limit cursor []
  | cons {cursor : Nat} {t : SpacedToken} {ts : List SpacedToken} :
    t.offset = cursor + t.gap.length → t.offset < t.stop → Ordered limit t.stop ts →
    Ordered limit cursor (t :: ts)

theorem Placed.ordered {offset : Nat} {cs : List Char} {ts : List SpacedToken}
    (h : Placed offset cs ts) (hgenuine : ∀ t ∈ ts, t.Genuine) :
    Ordered (offset + cs.length) offset ts := by
  induction h with
  | nil => exact .nil (by omega)
  | @cons offset cs after t ts hcs hoffset hstop _ ih =>
    have hpos := (hgenuine t (by simp)).length_pos
    refine .cons hoffset (by omega) ?_
    have hlength : offset + cs.length = t.stop + after.length := by
      rw [hcs, hstop, hoffset]
      simp only [List.length_append, String.length_toList]
      omega
    rw [hlength]
    exact ih fun u hu => hgenuine u (by simp [hu])

/-- Where the last of the tokens ends. -/
def endOf (cursor : Nat) (ts : List SpacedToken) : Nat := ts.foldl (fun _ t => t.stop) cursor

@[simp] theorem endOf_nil (cursor : Nat) : endOf cursor [] = cursor := rfl

@[simp] theorem endOf_cons (cursor : Nat) (t : SpacedToken) (ts : List SpacedToken) :
    endOf cursor (t :: ts) = endOf t.stop ts := rfl

@[simp] theorem endOf_append (cursor : Nat) (ts us : List SpacedToken) :
    endOf cursor (ts ++ us) = endOf (endOf cursor ts) us := List.foldl_append

theorem endOf_of_getLast? {cursor : Nat} {ts : List SpacedToken} {t : Token} (h : ts ≠ []) :
    ((ts.getLast?.map SpacedToken.toToken).getD t).stop = endOf cursor ts := by
  obtain ⟨us, u, rfl⟩ := List.eq_nil_or_concat ts |>.resolve_left h
  simp

namespace Ordered

variable {limit cursor : Nat} {ts us : List SpacedToken}

theorem le (h : Ordered limit cursor ts) : cursor ≤ limit := by
  induction h with
  | nil h => exact h
  | cons hoffset hstop _ ih => omega

theorem append (h : Ordered limit cursor (ts ++ us)) : Ordered limit (endOf cursor ts) us := by
  induction ts generalizing cursor with
  | nil => exact h
  | cons t ts ih =>
    cases h with
    | cons _ _ h => exact ih h

theorem le_endOf (h : Ordered limit cursor (ts ++ us)) : cursor ≤ endOf cursor ts := by
  induction ts generalizing cursor with
  | nil => exact Nat.le_refl _
  | cons t ts ih =>
    cases h with
    | cons hoffset hstop h =>
      have := ih h
      rw [endOf_cons]
      omega

theorem lt_endOf (h : Ordered limit cursor (ts ++ us)) (hts : ts ≠ []) : cursor < endOf cursor ts := by
  cases ts with
  | nil => exact absurd rfl hts
  | cons t ts =>
    cases h with
    | cons hoffset hstop h =>
      have := le_endOf h
      rw [endOf_cons]
      omega

end Ordered

namespace Site

variable {limit cursor fuel line : Nat} {ts : List SpacedToken} {s : Site} {ss : List Site}

/-! ### Reading one site -/

/-- The start of the line in which the first of the tokens stands. -/
def lineStart (ts : List SpacedToken) : Nat :=
  (ts.headD default).offset - (lastLine (ts.headD default).gap).length

theorem length_lastLine_le (s : String) : (lastLine s).length ≤ s.length := by
  have := (List.takeWhile_prefix (· != '\n') (l := s.toList.reverse)).length_le
  simpa [lastLine, ← String.length_toList] using this

/-- The line of a statement starts after the tokens before it. -/
theorem le_lineStart (h : Ordered limit cursor ts) (hts : ts ≠ []) : cursor ≤ lineStart ts := by
  cases h with
  | nil => exact absurd rfl hts
  | @cons _ t ts hoffset hstop h =>
    have := length_lastLine_le t.gap
    simp only [lineStart, List.headD_cons]
    omega

theorem lineStart_lt_endOf {us : List SpacedToken} (h : Ordered limit cursor (ts ++ us)) (hts : ts ≠ []) :
    lineStart (ts ++ us) < endOf cursor ts := by
  cases ts with
  | nil => exact absurd rfl hts
  | cons t ts =>
    cases h with
    | cons hoffset hstop h =>
      have := h.le_endOf
      simp only [lineStart, List.cons_append, List.headD_cons, endOf_cons]
      omega

theorem throughBraces_prefix (depth : Nat) (ts : List SpacedToken) : throughBraces depth ts <+: ts := by
  fun_induction throughBraces depth ts with
  | case1 => exact List.prefix_refl _
  | case2 depth t rest _ ih => exact (List.prefix_cons_inj t).2 ih
  | case3 depth t rest => exact ⟨rest, rfl⟩
  | case4 depth t rest _ _ _ ih => exact (List.prefix_cons_inj t).2 ih
  | case5 depth t rest _ _ ih => exact (List.prefix_cons_inj t).2 ih

variable {keyword : String} {before : List SpacedToken} {depth : Nat} {st st' : State}

/-- A site that is read is a sink, the keyword and a block. -/
theorem content?_moved {F : Fragments} {indent : String} {c : Sink × Block} (hF : F.Read) (hs : Sound st)
    (hstarts : startsBlock keyword st.rest = true)
    (h : Yields (content? keyword before depth indent) st c st') :
    ∃ u ts s₁, Moved st (u :: ts) st' ∧ Yields (sinkBefore keyword before st.next) st c.1 s₁ ∧
      BlockLayout keyword F c.2 ts := by
  rw [content?, Yields.peek_bind_iff] at h
  obtain ⟨-, h⟩ := Yields.refuse_iff.1 h
  obtain ⟨sink, s₁, hsink, hy⟩ := Yields.bind_iff.1 h
  have hstill := still_sinkBefore _ _ _ hsink
  obtain ⟨t, s₂, hc, hy⟩ := Yields.bind_iff.1 hy
  have hword : s₁.next.isName keyword = true := by
    obtain ⟨k, brace, _, hrest, hk, -⟩ := startsBlock_spec hstarts
    rw [hstill.next_eq]
    simpa [State.next, hrest] using hk
  have hs₁ := hstill.sound hs
  obtain ⟨u, -, hm₂⟩ := consume_name hc hs₁ hword
  obtain ⟨b, s₃, hb, hy⟩ := Yields.bind_iff.1 hy
  obtain ⟨ts, hm₃, hlayout⟩ := nextBlock_moved hF true (hm₂.sound hs₁) hb
  rw [Yields.peek_bind_iff] at hy
  obtain ⟨-, hy⟩ := Yields.refuse_iff.1 hy
  obtain ⟨rfl, rfl⟩ := Yields.pure_iff.1 hy
  exact ⟨u, ts, s₁, hstill.trans (hm₂.trans hm₃), hsink, hlayout⟩

theorem throughBraces_ne_nil {brace : SpacedToken} {rest : List SpacedToken}
    (h : brace.isSymbol "\x7b" = true) : throughBraces 0 (brace :: rest) ≠ [] := by
  simp [throughBraces, h]

/-- A site that cannot be read ends at the brace that matches its first one. -/
theorem throughBraces_moved (hstarts : startsBlock keyword st.rest = true) (markers : List Span) :
    ∃ k, Moved st (k :: throughBraces 0 (st.rest.drop 1))
      ⟨st.rest.drop ((throughBraces 0 (st.rest.drop 1)).length + 1),
        ((throughBraces 0 (st.rest.drop 1)).getLast?.map SpacedToken.toToken).getD st.last, st.stop, markers⟩ := by
  obtain ⟨k, brace, more, hrest, -, hbrace⟩ := startsBlock_spec hstarts
  have htaken : throughBraces 0 (brace :: more) ≠ [] := throughBraces_ne_nil hbrace
  have hprefix := throughBraces_prefix 0 (brace :: more)
  simp only [hrest, List.drop_succ_cons, List.drop_zero]
  generalize throughBraces 0 (brace :: more) = taken at htaken hprefix
  obtain ⟨after, hafter⟩ := hprefix
  refine ⟨k, ?_, ?_, rfl⟩
  · rw [hrest, ← hafter, List.drop_left, List.cons_append]
  · cases taken with
    | nil => exact absurd rfl htaken
    | cons u taken => rw [List.getLast?_cons_cons]

/-- A site starts at the line of its statement and ends with the tokens it takes. -/
theorem read_spec (hs : Sound st) (hstarts : startsBlock keyword st.rest = true)
    (h : Yields (read keyword before depth) st s st') :
    ∃ ts, ts ≠ [] ∧ st.rest = ts ++ st'.rest ∧ Sound st' ∧ s.start = lineStart (before ++ st.rest) ∧
      ∀ cursor, s.stop = endOf cursor ts := by
  change read keyword before depth st = _ at h
  unfold read at h
  dsimp only at h
  split at h
  · rename_i c s₁ hc
    cases h
    obtain ⟨u, ts, -, hm, -⟩ := content?_moved Fragments.any_read hs hstarts hc
    refine ⟨u :: ts, List.cons_ne_nil u ts, hm.rest, hm.sound hs, rfl, fun cursor => ?_⟩
    rw [← endOf_of_getLast? (List.cons_ne_nil u ts), hm.last]
  · rename_i e s₁ hc
    cases h
    obtain ⟨k, hm⟩ := throughBraces_moved hstarts s₁.markers
    refine ⟨_, List.cons_ne_nil k _, hm.rest, hm.sound hs, rfl, fun cursor => ?_⟩
    rw [← endOf_of_getLast? (List.cons_ne_nil k _), ← hm.last]
  · cases h

/-! ### The walk over the tokens -/

/-- The site was read where the reader stood at `st`, among the tokens `all`; `before` are the tokens of its
statement before the block. -/
structure ReadAt (keyword : String) (all before : List SpacedToken) (depth : Nat) (st : State) (s : Site)
    (st' : State) : Prop where
  tokens : ∃ earlier, all = earlier ++ before ++ st.rest
  sound : Sound st
  starts : startsBlock keyword st.rest = true
  read : Yields (Site.read keyword before depth) st s st'

theorem ReadAt.mono {all all' : List SpacedToken} (h : ReadAt keyword all' before depth st s st')
    (hall : all' <:+ all) : ReadAt keyword all before depth st s st' := by
  obtain ⟨earlier, hearlier⟩ := h.tokens
  obtain ⟨first, rfl⟩ := hall
  exact ⟨⟨first ++ earlier, by simp [hearlier]⟩, h.sound, h.starts, h.read⟩

/-- The walk reads every site that it gives. -/
theorem locateFrom_readAt (hs : Sound st) (h : Yields (locateFrom keyword fuel before depth) st ss st') :
    ∀ s ∈ ss, ∃ before' depth' st₁ st₂, ReadAt keyword (before.reverse ++ st.rest) before' depth' st₁ s st₂ := by
  induction fuel generalizing before depth st ss with
  | zero =>
    obtain ⟨rfl, -⟩ := Yields.pure_iff.1 h
    exact List.forall_mem_nil _
  | succ fuel ih =>
    rw [locateFrom, Yields.get_bind_iff] at h
    split at h
    · obtain ⟨rfl, -⟩ := Yields.pure_iff.1 h
      exact List.forall_mem_nil _
    · rename_i t rest hrest
      have hsrest : Sound { st with rest := rest, last := t.toToken } :=
        ⟨hs.stop, fun u hu => hs.genuine u (by simp [hrest, show u ∈ rest from hu])⟩
      have hlater {before'' : List SpacedToken} {depth' : Nat} {st'' : State} {ss' : List Site} (hs'' : Sound st'')
          (hsuffix : before''.reverse ++ st''.rest <:+ before.reverse ++ st.rest)
          (h : Yields (locateFrom keyword fuel before'' depth') st'' ss' st') : ∀ s ∈ ss', ∃ before' depth' st₁ st₂,
            ReadAt keyword (before.reverse ++ st.rest) before' depth' st₁ s st₂ := by
        intro s hmem
        obtain ⟨before', depth', st₁, st₂, hread⟩ := ih hs'' h s hmem
        exact ⟨before', depth', st₁, st₂, hread.mono hsuffix⟩
      split at h
      · obtain ⟨_, s₁, hset, hy⟩ := Yields.bind_iff.1 h
        obtain rfl := Yields.set_iff.1 hset
        refine hlater hsrest ?_ hy
        rw [hrest]
        exact (List.suffix_cons t rest).trans (List.suffix_append _ _)
      split at h
      · rename_i hstarts
        obtain ⟨s, s₁, hread, hy⟩ := Yields.bind_iff.1 h
        rw [Yields.get_bind_iff] at hy
        obtain ⟨ss', s₂, hmore, hy⟩ := Yields.bind_iff.1 hy
        obtain ⟨rfl, rfl⟩ := Yields.pure_iff.1 hy
        obtain ⟨ts, -, hrest', hs₁, -⟩ := read_spec hs hstarts hread
        have htaken : st.rest.take (st.rest.length - s₁.rest.length) = ts := by simp [hrest']
        rw [htaken] at hmore
        refine List.forall_mem_cons.2 ⟨⟨_, depth, st, s₁, ⟨⟨[], rfl⟩, hs, hstarts, hread⟩⟩, hlater hs₁ ?_ hmore⟩
        rw [hrest']
        simp
      · obtain ⟨_, s₁, hset, hy⟩ := Yields.bind_iff.1 h
        obtain rfl := Yields.set_iff.1 hset
        refine hlater hsrest ?_ hy
        rw [hrest]
        simp

/-- Sites found from `cursor` on, in a statement whose line starts at `line` or in later ones. -/
inductive Located (limit : Nat) : Nat → Nat → List Site → Prop
  | nil {line cursor : Nat} : Located limit line cursor []
  | here {line cursor : Nat} {s : Site} {ss : List Site} :
    s.start = line → s.start < s.stop → cursor < s.stop → s.stop ≤ limit →
    Located limit line s.stop ss → Located limit line cursor (s :: ss)
  | next {line line' cursor cursor' : Nat} {ss : List Site} :
    cursor ≤ cursor' → cursor' ≤ line' → Located limit line' cursor' ss → Located limit line cursor ss

theorem Located.mono {cursor' : Nat} (hle : cursor ≤ cursor') (h : Located limit line cursor' ss) :
    Located limit line cursor ss := by
  cases h with
  | nil => exact .nil
  | here hstart hlt hcursor hlimit h => exact .here hstart hlt (by omega) hlimit h
  | next hcursor hline h => exact .next (by omega) hline h

theorem exists_line (h : Ordered limit cursor ts) :
    ∃ line, cursor ≤ line ∧ (ts ≠ [] → line = lineStart ts) := by
  by_cases hts : ts = []
  · exact ⟨cursor, Nat.le_refl _, fun h => absurd hts h⟩
  · exact ⟨lineStart ts, le_lineStart h hts, fun _ => rfl⟩

theorem locateFrom_located {fuel base limit line : Nat} {ss : List Site} (hs : Sound st)
    (hordered : Ordered limit base (before.reverse ++ st.rest))
    (hline : before.reverse ++ st.rest ≠ [] → line = lineStart (before.reverse ++ st.rest))
    (h : Yields (locateFrom keyword fuel before depth) st ss st') :
    Located limit line (endOf base before.reverse) ss := by
  induction fuel generalizing before depth st base line ss with
  | zero =>
    obtain ⟨rfl, -⟩ := Yields.pure_iff.1 h
    exact .nil
  | succ fuel ih =>
    rw [locateFrom, Yields.get_bind_iff] at h
    split at h
    · obtain ⟨rfl, -⟩ := Yields.pure_iff.1 h
      exact .nil
    · rename_i t rest hrest
      rw [hrest] at hordered hline
      -- the walk moves past one token
      have hpast := hordered.append
      have hsrest : Sound { st with rest := rest, last := t.toToken } :=
        ⟨hs.stop, fun u hu => hs.genuine u (by simp [hrest, show u ∈ rest from hu])⟩
      have hcursor : endOf base before.reverse ≤ t.stop := by
        cases hpast with
        | cons hoffset hstop _ => omega
      have hafter : Ordered limit t.stop rest := by
        cases hpast with
        | cons _ _ h => exact h
      split at h
      · obtain ⟨_, s₁, hset, hy⟩ := Yields.bind_iff.1 h
        obtain rfl := Yields.set_iff.1 hset
        obtain ⟨line', hle, hline'⟩ := exists_line hafter
        exact .next hcursor hle (@ih [] depth _ t.stop line' ss hsrest hafter hline' hy)
      · split at h
        · rename_i hstarts
          obtain ⟨s, s₁, hread, hy⟩ := Yields.bind_iff.1 h
          rw [Yields.get_bind_iff] at hy
          obtain ⟨ss', s₂, hmore, hy⟩ := Yields.bind_iff.1 hy
          obtain ⟨rfl, rfl⟩ := Yields.pure_iff.1 hy
          obtain ⟨ts, hts, hrest', hs₁, hstart, hstop⟩ := read_spec hs hstarts hread
          have htaken : st.rest.take (st.rest.length - s₁.rest.length) = ts := by
            simp [hrest']
          rw [htaken] at hmore
          have hsame : (ts.reverse ++ before).reverse ++ s₁.rest = before.reverse ++ t :: rest := by
            rw [← hrest, hrest']
            simp
          have hlocated :=
            @ih (ts.reverse ++ before) _ _ base line ss' hs₁ (hsame ▸ hordered) (hsame ▸ hline) hmore
          rw [List.reverse_append, List.reverse_reverse] at hlocated hsame
          rw [endOf_append, ← hstop] at hlocated
          rw [← hsame] at hordered hline
          have hstart' : s.start = line := by
            rw [hstart, hrest', ← List.append_assoc, hline (by simp [hts])]
          have hlt : s.start < s.stop := by
            have := lineStart_lt_endOf hordered (by simp [hts])
            rw [endOf_append, ← hstop] at this
            rwa [hstart, hrest', ← List.append_assoc]
          rw [List.append_assoc] at hordered
          have hcursor' := hordered.append.lt_endOf hts
          have hlimit := hordered.append.append.le
          rw [← hstop] at hcursor' hlimit
          exact .here hstart' hlt hcursor' hlimit hlocated
        · obtain ⟨_, s₁, hset, hy⟩ := Yields.bind_iff.1 h
          obtain rfl := Yields.set_iff.1 hset
          have hsame : (t :: before).reverse ++ rest = before.reverse ++ t :: rest := by simp
          have hlocated := @ih (t :: before) _ _ base line ss hsrest (hsame ▸ hordered) (hsame ▸ hline) hy
          refine hlocated.mono ?_
          simpa using hcursor

namespace Located

variable {limit line cursor : Nat} {ss : List Site}

theorem bounds (h : Located limit line cursor ss) : ∀ s ∈ ss, s.start < s.stop ∧ s.stop ≤ limit := by
  induction h with
  | nil => simp
  | here _ hlt _ hlimit _ ih =>
    intro u hu
    rcases List.mem_cons.1 hu with rfl | hu
    · exact ⟨hlt, hlimit⟩
    · exact ih u hu
  | next _ _ _ ih => exact ih

/-- Sites in different lines are disjoint. -/
theorem pairwise_of_nodup (h : Located limit line cursor ss) (hnodup : (ss.map start).Nodup) :
    ss.Pairwise (fun s u => s.stop ≤ u.start) ∧ ∀ u ∈ ss, u.start = line ∨ cursor ≤ u.start := by
  induction h with
  | nil => simp
  | @here line cursor s ss hstart hlt hcursor hlimit h ih =>
    rw [List.map_cons, List.nodup_cons] at hnodup
    obtain ⟨hpairwise, hafter⟩ := ih hnodup.2
    have hdisjoint : ∀ u ∈ ss, s.stop ≤ u.start := by
      intro u hu
      rcases hafter u hu with hsame | hle
      · -- a second site in the line of `s` would start where `s` does
        have hmem := List.mem_map_of_mem (f := start) hu
        rw [hsame, ← hstart] at hmem
        exact absurd hmem hnodup.1
      · exact hle
    refine ⟨List.pairwise_cons.2 ⟨hdisjoint, hpairwise⟩, fun u hu => ?_⟩
    rcases List.mem_cons.1 hu with rfl | hu
    · exact .inl hstart
    · have := hdisjoint u hu
      exact .inr (by omega)
  | next hcursor hline h ih =>
    obtain ⟨hpairwise, hafter⟩ := ih hnodup
    refine ⟨hpairwise, fun u hu => .inr ?_⟩
    rcases hafter u hu with hsame | hle <;> omega

end Located

theorem nodup_of_pairwise (hlt : ∀ s ∈ ss, s.start < s.stop) (h : ss.Pairwise (fun s u => s.stop ≤ u.start)) :
    (ss.map start).Nodup := by
  refine List.pairwise_map.2 (h.imp_of_mem fun {s u} hs hu hle => ?_)
  have := hlt s hs
  omega

end Site

/-- The sites of a module stand in its text. -/
theorem locateSitesOf_located {keyword text : String} {s : Script} {ss : List Site}
    (hs : Script.ofText text = .ok s) (h : locateSitesOf keyword s = .ok ss) :
    ∃ line, Site.Located text.toList.length line 0 ss := by
  obtain ⟨hplaced, hgenuine, -⟩ := Script.ofText_spec hs
  have hordered := hplaced.ordered hgenuine
  rw [Nat.zero_add] at hordered
  obtain ⟨line, -, hline⟩ := Site.exists_line hordered
  have hy : Yields (Site.locateFrom keyword (s.tokens.length + 1) [] 0) (State.start s 0) ss
      ((Site.locateFrom keyword (s.tokens.length + 1) [] 0).run (State.start s 0)).2 := Prod.ext h rfl
  have hstart : [].reverse ++ (State.start s 0).rest = s.tokens := rfl
  rw [← hstart] at hordered hline
  exact ⟨line, Site.locateFrom_located (sound_start hs 0) hordered hline hy⟩

end DoBlocks
