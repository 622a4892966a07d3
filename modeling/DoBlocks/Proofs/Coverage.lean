import DoBlocks.Proofs.Totality
import DoBlocks.Proofs.Nesting

/-!
# Which blocks the sites cover

The walk over the tokens of a module comes to every place where the block keyword stands before a brace: a site
begins there, or the place is inside the tokens that a site has taken. `Walked` says what the walk does at each
token. From it follow the order of the sites, that each such place belongs to exactly one of them, and that a
site that was read has its lines for itself.
-/

namespace DoBlocks

open BlockReader

/-! ### The walk -/

/-- Where a site stands among the tokens: the first token of its statement, its block keyword, and the token with
which the walk goes on. -/
structure Visit where
  line : Nat
  first : Nat
  next : Nat

namespace Visit

/-- The tokens of the statement before the block keyword. -/
def before (v : Visit) (tokens : List SpacedToken) : List SpacedToken := (tokens.drop v.line).take (v.first - v.line)

/-- The block keyword and what the site takes after it. -/
def taken (v : Visit) (tokens : List SpacedToken) : List SpacedToken := (tokens.drop v.first).take (v.next - v.first)

end Visit

namespace Site

/-- The site was read at its keyword, with `depth` brackets around it, in a statement that starts after a line end. -/
structure Visited (keyword : String) (tokens : List SpacedToken) (depth : Nat) (v : Visit) (s : Site) : Prop where
  line_starts : ∀ t ∈ (tokens.take v.line).getLast?, t.kind = .newline
  line_le : v.line ≤ v.first
  next_le : v.next ≤ tokens.length
  starts : startsBlock keyword (tokens.drop v.first) = true
  read : ∃ st st', Sound st ∧ st.rest = tokens.drop v.first ∧ st'.rest = tokens.drop v.next ∧
    Yields (Site.read keyword (v.before tokens) depth) st s st'

/-- The number of open brackets after the token. -/
def depthAfter (t : SpacedToken) (depth : Nat) : Nat :=
  if t.isOpener then depth + 1 else if t.isCloser then depth - 1 else depth

/-- From the token `i` on, in a statement that starts with the token `line` and with `depth` brackets open, the walk
finds the given sites. -/
inductive Walked (keyword : String) (tokens : List SpacedToken) : Nat → Nat → Nat → List Site → List Visit → Prop
  | stop {depth line i : Nat} : tokens.drop i = [] → Walked keyword tokens depth line i [] []
  | lineEnd {line i : Nat} {t : SpacedToken} {rest : List SpacedToken} {ss : List Site} {vs : List Visit} :
    tokens.drop i = t :: rest → t.kind = .newline → Walked keyword tokens 0 (i + 1) (i + 1) ss vs →
    Walked keyword tokens 0 line i ss vs
  | site {depth line i next : Nat} {s : Site} {ss : List Site} {vs : List Visit} :
    Visited keyword tokens depth ⟨line, i, next⟩ s → Walked keyword tokens depth line next ss vs →
    Walked keyword tokens depth line i (s :: ss) (⟨line, i, next⟩ :: vs)
  | token {depth line i : Nat} {t : SpacedToken} {rest : List SpacedToken} {ss : List Site} {vs : List Visit} :
    tokens.drop i = t :: rest → (t.kind = .newline → depth ≠ 0) → startsBlock keyword (t :: rest) = false →
    Walked keyword tokens (depthAfter t depth) line (i + 1) ss vs → Walked keyword tokens depth line i ss vs

variable {keyword : String} {tokens : List SpacedToken} {depth line i : Nat}

theorem drop_of_split {earlier before rest : List SpacedToken} (h : tokens = earlier ++ before.reverse ++ rest) :
    tokens.drop (earlier.length + before.length) = rest := by
  have hlength : earlier.length + before.length = (earlier ++ before.reverse).length := by
    rw [List.length_append, List.length_reverse]
  rw [h, hlength, List.drop_left]

/-- The walk does what `Walked` says, up to the end of the tokens. -/
theorem locateFrom_walked {fuel : Nat} {earlier before : List SpacedToken} {st st' : State} {ss : List Site}
    (hs : Sound st) (htokens : tokens = earlier ++ before.reverse ++ st.rest)
    (hearlier : ∀ t ∈ earlier.getLast?, t.kind = .newline) (hf : st.rest.length < fuel)
    (h : Yields (locateFrom keyword fuel before depth) st ss st') :
    st'.rest = [] ∧ ∃ vs, Walked keyword tokens depth earlier.length (earlier.length + before.length) ss vs := by
  induction fuel generalizing earlier before depth st ss with
  | zero => omega
  | succ fuel ih =>
    have hdrop := drop_of_split htokens
    rw [locateFrom, Yields.get_bind_iff] at h
    split at h
    · rename_i hrest
      obtain ⟨rfl, rfl⟩ := Yields.pure_iff.1 h
      exact ⟨hrest, [], .stop (hdrop.trans hrest)⟩
    · rename_i t rest hrest
      have hsrest : Sound { st with rest := rest, last := t.toToken } :=
        ⟨hs.stop, fun u hu => hs.genuine u (by simp [hrest, show u ∈ rest from hu])⟩
      rw [hrest, List.length_cons] at hf
      split at h
      · rename_i hline
        simp only [Bool.and_eq_true, beq_iff_eq] at hline
        obtain ⟨hkind, rfl⟩ := hline
        obtain ⟨_, s₁, hset, hy⟩ := Yields.bind_iff.1 h
        obtain rfl := Yields.set_iff.1 hset
        obtain ⟨hend, vs, hwalk⟩ := @ih _ (earlier ++ before.reverse ++ [t]) [] _ _ hsrest
          (by simp [htokens, hrest]) (by simp [hkind]) (by simp; omega) hy
        refine ⟨hend, vs, .lineEnd (hdrop.trans hrest) hkind ?_⟩
        simpa [Nat.add_assoc] using hwalk
      · rename_i hline
        split at h
        · rename_i hstarts
          obtain ⟨s, s₁, hread, hy⟩ := Yields.bind_iff.1 h
          rw [Yields.get_bind_iff] at hy
          obtain ⟨ss', s₂, hmore, hy⟩ := Yields.bind_iff.1 hy
          obtain ⟨rfl, rfl⟩ := Yields.pure_iff.1 hy
          obtain ⟨ts, hts, hrest', hs₁, -⟩ := read_spec hs hstarts hread
          have htaken : st.rest.take (st.rest.length - s₁.rest.length) = ts := by simp [hrest']
          rw [htaken] at hmore
          have htokens' : tokens = earlier ++ (ts.reverse ++ before).reverse ++ s₁.rest := by simp [htokens, hrest']
          have hpos := List.length_pos_of_ne_nil hts
          have hcount := congrArg List.length hrest'
          rw [hrest, List.length_cons, List.length_append] at hcount
          obtain ⟨hend, vs, hwalk⟩ := @ih _ earlier (ts.reverse ++ before) s₁ ss' hs₁ htokens' hearlier (by omega) hmore
          have hbefore (next : Nat) :
              Visit.before ⟨earlier.length, earlier.length + before.length, next⟩ tokens = before.reverse := by
            rw [Visit.before, htokens, List.append_assoc, List.drop_left, Nat.add_sub_cancel_left,
              ← List.length_reverse, List.take_left]
          refine ⟨hend, _, .site ⟨?_, Nat.le_add_right _ _, ?_, ?_, st, s₁, hs, hdrop.symm, ?_, ?_⟩ hwalk⟩
          · rwa [htokens, List.append_assoc, List.take_left]
          · rw [htokens']
            simp only [List.length_append, List.length_reverse]
            omega
          · rwa [hdrop]
          · exact (drop_of_split htokens').symm
          · rwa [hbefore]
        · rename_i hstarts
          obtain ⟨_, s₁, hset, hy⟩ := Yields.bind_iff.1 h
          obtain rfl := Yields.set_iff.1 hset
          obtain ⟨hend, vs, hwalk⟩ := @ih _ earlier (t :: before) _ _ hsrest (by simp [htokens, hrest]) hearlier
            (by simp; omega) hy
          refine ⟨hend, vs, .token (hdrop.trans hrest) (fun hkind hzero => ?_) ?_ hwalk⟩
          · simp [hkind, hzero] at hline
          · rw [← hrest]
            simpa using hstarts

/-! ### What a site takes -/

/-- Counting braces ends at a closing brace or at the end of the tokens. -/
theorem throughBraces_ends (depth : Nat) (ts : List SpacedToken) :
    throughBraces depth ts = ts ∨ ∃ init c, throughBraces depth ts = init ++ [c] ∧ c.isSymbol "\x7d" = true := by
  have hcons {t : SpacedToken} {rest us : List SpacedToken}
      (ih : us = rest ∨ ∃ init c, us = init ++ [c] ∧ c.isSymbol "\x7d" = true) :
      t :: us = t :: rest ∨ ∃ init c, t :: us = init ++ [c] ∧ c.isSymbol "\x7d" = true := by
    obtain rfl | ⟨init, c, rfl, hc⟩ := ih
    · exact .inl rfl
    · exact .inr ⟨t :: init, c, rfl, hc⟩
  fun_induction throughBraces depth ts with
  | case1 => exact .inl rfl
  | case2 depth t rest _ ih => exact hcons ih
  | case3 depth t rest _ hclose => exact .inr ⟨[], t, rfl, hclose⟩
  | case4 depth t rest _ _ _ ih => exact hcons ih
  | case5 depth t rest _ _ ih => exact hcons ih

/-- A block stands between two braces. -/
theorem braces_of_blockLayout {F : Fragments} {b : Block} {ts : List SpacedToken} (h : BlockLayout keyword F b ts) :
    ∃ opener inner closer, ts = opener :: inner ++ [closer] ∧ opener.isSymbol "\x7b" = true ∧
      closer.isSymbol "\x7d" = true := by
  cases h with
  | mk hopen _ hclose => exact ⟨_, _, _, rfl, hopen, hclose⟩

variable {before : List SpacedToken} {st st' : State} {s : Site} {v w : Visit}

/-- What a site takes is more than its keyword, and ends with a closing brace or with the text. -/
theorem read_taken (hs : Sound st) (hstarts : startsBlock keyword st.rest = true)
    (h : Yields (read keyword before depth) st s st') :
    ∃ init closer, init ≠ [] ∧ st.rest = init ++ closer :: st'.rest ∧
      (closer.isSymbol "\x7d" = true ∨ st'.rest = []) := by
  change read keyword before depth st = _ at h
  unfold read at h
  dsimp only at h
  split at h
  · rename_i c s₁ hc
    cases h
    obtain ⟨u, ts, -, hm, -, hlayout⟩ := content?_moved Fragments.any_read hs hstarts hc
    obtain ⟨opener, inner, closer, rfl, -, hclose⟩ := braces_of_blockLayout hlayout
    refine ⟨u :: opener :: inner, closer, List.cons_ne_nil _ _, ?_, .inl hclose⟩
    rw [hm.rest]
    simp
  · rename_i e s₁ hc
    obtain ⟨k, hm⟩ := throughBraces_moved hstarts s₁.markers
    obtain ⟨-, hst'⟩ := Prod.mk.inj h
    rw [hst'] at hm
    obtain ⟨_, brace, more, hst, -, hbrace⟩ := startsBlock_spec hstarts
    rw [hst, List.drop_succ_cons, List.drop_zero] at hm
    have htaken : throughBraces 0 (brace :: more) ≠ [] := throughBraces_ne_nil hbrace
    obtain hall | ⟨init, c, hinit, hclose⟩ := throughBraces_ends 0 (brace :: more)
    · obtain ⟨init, c, hinit⟩ := List.eq_nil_or_concat _ |>.resolve_left htaken
      refine ⟨k :: init, c, List.cons_ne_nil _ _, by simp [hm.rest, hinit], .inr ?_⟩
      have hrest := hm.rest
      rw [hst, hall, List.cons_append, List.cons_append] at hrest
      obtain ⟨-, hnil⟩ : _ ∧ st'.rest = [] := by simpa using hrest
      exact hnil
    · exact ⟨k :: init, c, List.cons_ne_nil _ _, by simp [hm.rest, hinit], .inl hclose⟩
  · cases h

/-- A site that was read: its statement is on a line of its own and ends its line. -/
theorem read_content {c : Sink × Block} (h : Yields (read keyword before depth) st s st') (hc : s.content = .ok c) :
    s.indent = lastLine ((before ++ st.rest).headD default).gap ∧
      Yields (content? keyword before depth s.indent) st c st' := by
  change read keyword before depth st = _ at h
  unfold read at h
  dsimp only at h
  split at h
  · rename_i c' s₁ hy
    cases h
    cases hc
    exact ⟨rfl, hy⟩
  · cases h
    cases hc
  · cases h

/-- It stands in no brackets, and after it the line ends. -/
theorem content?_alone {indent : String} {c : Sink × Block}
    (h : Yields (content? keyword before depth indent) st c st') :
    depth = 0 ∧ (st'.next.kind = .newline ∨ st'.next.kind = .eof) := by
  rw [content?, Yields.peek_bind_iff] at h
  obtain ⟨hplace, h⟩ := Yields.refuse_iff.1 h
  obtain ⟨sink, s₁, -, hy⟩ := Yields.bind_iff.1 h
  obtain ⟨t, s₂, -, hy⟩ := Yields.bind_iff.1 hy
  obtain ⟨b, s₃, -, hy⟩ := Yields.bind_iff.1 hy
  rw [Yields.peek_bind_iff] at hy
  obtain ⟨hnext, hy⟩ := Yields.refuse_iff.1 hy
  obtain ⟨-, rfl⟩ := Yields.pure_iff.1 hy
  refine ⟨?_, ?_⟩
  · simp only [Bool.or_eq_true, bne_iff_ne, ne_eq, not_or, not_not] at hplace
    exact hplace.1
  · simp only [Bool.and_eq_true, bne_iff_ne, ne_eq, not_and, not_not] at hnext
    exact or_iff_not_imp_left.2 hnext

namespace Visited

/-- The keyword and the brace after it are both in what the site takes. -/
theorem first_lt_next (h : Visited keyword tokens depth v s) : v.first + 1 < v.next := by
  obtain ⟨st, st', hs, hrest, hrest', hread⟩ := h.read
  obtain ⟨init, closer, hinit, hsplit, -⟩ := read_taken hs (hrest ▸ h.starts) hread
  have hlength := congrArg List.length hsplit
  rw [hrest, hrest', List.length_append, List.length_cons, List.length_drop, List.length_drop] at hlength
  have := List.length_pos_of_ne_nil hinit
  have := h.next_le
  omega

/-- If the keyword before a brace begins in what the site takes, the brace is in it too. -/
theorem succ_lt_next (h : Visited keyword tokens depth v s) {j : Nat} (hj : v.first ≤ j) (hlt : j < v.next)
    (hstarts : startsBlock keyword (tokens.drop j) = true) : j + 1 < v.next := by
  obtain ⟨st, st', hs, hrest, hrest', hread⟩ := h.read
  obtain ⟨init, closer, hinit, hsplit, hend⟩ := read_taken hs (hrest ▸ h.starts) hread
  by_contra hnot
  have hnext : v.next = j + 1 := by omega
  -- the keyword would be the closing brace, or the brace after it would be past the end of the text
  have hlength := congrArg List.length hsplit
  rw [hrest, hrest', List.length_append, List.length_cons, List.length_drop, List.length_drop] at hlength
  have hle := h.next_le
  have hlast : tokens.drop j = closer :: st'.rest := by
    obtain rfl : j = v.first + init.length := by omega
    rw [← List.drop_drop, ← hrest, hsplit, List.drop_left]
  rw [hlast] at hstarts
  obtain ⟨k, brace, more, hcons, hk, -⟩ := startsBlock_spec hstarts
  obtain ⟨rfl, hmore⟩ := List.cons.inj hcons
  rcases hend with hclose | hnil
  · simp only [Token.isName, Token.isSymbol, Bool.and_eq_true, beq_iff_eq] at hk hclose
    simp [hk.1] at hclose
  · rw [hmore] at hnil
    cases hnil

end Visited

/-! ### Order and coverage -/

namespace Walked

variable {ss : List Site} {vs : List Visit}

/-- The sites come later than the token at which the walk stands, in its statement or in one that starts later. -/
theorem later (h : Walked keyword tokens depth line i ss vs) :
    ∀ w ∈ vs, i ≤ w.first ∧ (w.line = line ∨ i ≤ w.line) := by
  induction h with
  | stop => simp
  | lineEnd _ _ _ ih =>
    intro w hw
    have := ih w hw
    omega
  | @site depth line i next s ss vs hvisit _ ih =>
    have hlt : i + 1 < next := hvisit.first_lt_next
    refine List.forall_mem_cons.2 ⟨⟨Nat.le_refl _, .inl rfl⟩, fun w hw => ?_⟩
    have := ih w hw
    omega
  | token _ _ _ _ ih =>
    intro w hw
    have := ih w hw
    omega

/-- What one site takes ends before the next one starts. -/
theorem increasing (h : Walked keyword tokens depth line i ss vs) : vs.Pairwise fun v w => v.next ≤ w.first := by
  induction h with
  | stop => exact .nil
  | lineEnd _ _ _ ih => exact ih
  | site _ hwalk ih => exact List.pairwise_cons.2 ⟨fun w hw => (hwalk.later w hw).1, ih⟩
  | token _ _ _ _ ih => exact ih

/-- Where the keyword stands before a brace, some site takes both. -/
theorem covered (h : Walked keyword tokens depth line i ss vs) {j : Nat} (hj : i ≤ j)
    (hstarts : startsBlock keyword (tokens.drop j) = true) : ∃ v ∈ vs, v.first ≤ j ∧ j + 1 < v.next := by
  induction h with
  | @stop _ _ i hnil =>
    have : tokens.drop j = [] := List.drop_eq_nil_of_le (by have := List.drop_eq_nil_iff.1 hnil; omega)
    rw [this] at hstarts
    cases hstarts
  | @lineEnd _ i t rest _ _ hdrop hkind _ ih =>
    refine ih (Nat.lt_of_le_of_ne hj fun heq => ?_)
    subst heq
    rw [hdrop] at hstarts
    obtain ⟨k, brace, more, hcons, hk, -⟩ := startsBlock_spec hstarts
    obtain ⟨rfl, -⟩ := List.cons.inj hcons
    simp [Token.isName, hkind] at hk
  | @site _ _ i next _ _ _ hvisit _ ih =>
    by_cases hlt : j < next
    · exact ⟨_, .head _, hj, hvisit.succ_lt_next hj hlt hstarts⟩
    · obtain ⟨v, hv, hin⟩ := ih (Nat.le_of_not_lt hlt)
      exact ⟨v, .tail _ hv, hin⟩
  | @token _ _ i t rest _ _ hdrop _ hnot _ ih =>
    refine ih (Nat.lt_of_le_of_ne hj fun heq => ?_)
    subst heq
    rw [hdrop, hnot] at hstarts
    cases hstarts

theorem visited (h : Walked keyword tokens depth line i ss vs) :
    List.Forall₂ (fun s v => ∃ depth, Visited keyword tokens depth v s) ss vs := by
  induction h with
  | stop => exact .nil
  | lineEnd _ _ _ ih => exact ih
  | site hvisit _ ih => exact .cons ⟨_, hvisit⟩ ih
  | token _ _ _ _ ih => exact ih

theorem exists_visit (h : Walked keyword tokens depth line i ss vs) :
    ∀ u ∈ ss, ∃ w ∈ vs, ∃ depth, Visited keyword tokens depth w u := by
  induction h with
  | stop => simp
  | lineEnd _ _ _ ih => exact ih
  | site hvisit _ ih =>
    refine List.forall_mem_cons.2 ⟨⟨_, .head _, _, hvisit⟩, fun u hu => ?_⟩
    obtain ⟨w, hw, hvisit⟩ := ih u hu
    exact ⟨w, .tail _ hw, hvisit⟩
  | token _ _ _ _ ih => exact ih

end Walked

/-! ### Sites that were read -/

/-- After a site that was read no bracket is open and the line ends. -/
theorem Visited.line_ends {c : Sink × Block} (h : Visited keyword tokens depth v s) (hc : s.content = .ok c) :
    depth = 0 ∧ ∀ t ∈ (tokens.drop v.next).head?, t.kind = .newline := by
  obtain ⟨st, st', hs, hrest, hrest', hread⟩ := h.read
  obtain ⟨rfl, hnext⟩ := content?_alone (read_content hread hc).2
  refine ⟨rfl, fun t ht => ?_⟩
  obtain ⟨-, -, -, hs', -⟩ := read_spec hs (hrest ▸ h.starts) hread
  rw [← hrest'] at ht
  have hkind : st'.next.kind = t.kind := by simp [State.next, Option.mem_def.1 ht]
  rw [hkind] at hnext
  exact hnext.resolve_right (hs'.genuine t (List.mem_of_mem_head? ht)).kind_ne_eof

/-- From the end of a line on, the walk is in a later statement. -/
theorem Walked.after_lineEnd {ss : List Site} {vs : List Visit} (h : Walked keyword tokens 0 line i ss vs)
    (hend : ∀ t ∈ (tokens.drop i).head?, t.kind = .newline) : ∀ w ∈ vs, i < w.line := by
  cases h with
  | stop => simp
  | lineEnd _ _ hwalk =>
    intro w hw
    have := hwalk.later w hw
    omega
  | site hvisit =>
    obtain ⟨k, brace, more, hdrop, hk, -⟩ := startsBlock_spec hvisit.starts
    have hkind := hend k (by rw [show tokens.drop i = _ from hdrop]; rfl)
    simp [Token.isName, hkind] at hk
  | token hdrop hnewline =>
    have hkind := hend _ (by rw [hdrop]; rfl)
    exact absurd rfl (hnewline hkind)

end Site

/-- Where the host takes the tokens before a block for an assignment, the block keyword does not stand before a brace
in them. -/
def PrefixesBlockFree (keyword : String) (all : List SpacedToken) : Prop :=
  AssignmentPrefixes keyword (fun before => ∀ i, startsBlock keyword (before.drop i) = false) all

/-- Nowhere in the tokens does the keyword stand before a brace. -/
def blockFree (keyword : String) (ts : List SpacedToken) : Bool :=
  (List.range ts.length).all fun i => !startsBlock keyword (ts.drop i)

theorem prefixesBlockFree_of_assignmentPrefixes {keyword : String} {all : List SpacedToken}
    (h : assignmentPrefixes keyword (blockFree keyword) all = true) : PrefixesBlockFree keyword all := by
  intro earlier before rest hsplit hstarts hassign i
  have hfree := assignmentPrefixes_spec h earlier before rest hsplit hstarts hassign
  by_cases hi : i < before.length
  · simpa using List.all_eq_true.1 hfree i (List.mem_range.2 hi)
  · rw [List.drop_eq_nil_of_le (Nat.le_of_not_lt hi)]
    rfl

theorem SinkPrefix.blockFree {keyword : String} {earlier before rest : List SpacedToken} (h : SinkPrefix before)
    (hhost : PrefixesBlockFree keyword (earlier ++ before ++ rest)) (hstarts : startsBlock keyword rest = true)
    (i : Nat) : startsBlock keyword (before.drop i) = false := by
  cases h with
  | discard => rw [List.drop_nil]; rfl
  | returning => cases i <;> simp [startsBlock]
  | assign h => exact hhost _ _ _ rfl hstarts h i

namespace Site

variable {keyword : String} {tokens : List SpacedToken} {depth depth' line i : Nat} {s u : Site} {v w : Visit}

theorem before_append_drop (hv : v.line ≤ v.first) : v.before tokens ++ tokens.drop v.first = tokens.drop v.line := by
  have hdrop : tokens.drop v.first = (tokens.drop v.line).drop (v.first - v.line) := by
    rw [List.drop_drop, Nat.add_sub_cancel' hv]
  rw [Visit.before, hdrop, List.take_append_drop]

theorem take_append_before (hv : v.line ≤ v.first) :
    tokens.take v.line ++ v.before tokens ++ tokens.drop v.first = tokens := by
  rw [List.append_assoc, before_append_drop hv, List.take_append_drop]

/-- What an earlier site takes is not in the statement of a site that was read: its keyword would stand before a brace
there. -/
theorem Visited.first_lt_line {c : Sink × Block} (hv : Visited keyword tokens depth v s)
    (hw : Visited keyword tokens depth' w u) (hc : u.content = .ok c) (hhost : PrefixesBlockFree keyword tokens)
    (hle : v.next ≤ w.first) : v.first < w.line := by
  by_contra hnot
  obtain ⟨st, st', hs, hrest, -, hread⟩ := hw.read
  obtain ⟨-, hcontent⟩ := read_content hread hc
  obtain ⟨_, _, _, -, hsink, -⟩ := content?_moved Fragments.any_read hs (hrest ▸ hw.starts) hcontent
  have hfree := (sinkBefore_named hsink).sinkPrefix.blockFree (by rwa [take_append_before hw.line_le]) hw.starts
    (v.first - w.line)
  have hlt := hv.first_lt_next
  obtain ⟨k, brace, more, hdrop, hk, hbrace⟩ := startsBlock_spec hv.starts
  have hpair : (w.before tokens).drop (v.first - w.line) = k :: brace :: more.take (w.first - v.first - 2) := by
    have hcount : w.first - w.line - (v.first - w.line) = w.first - v.first - 2 + 2 := by omega
    rw [Visit.before, List.drop_take, List.drop_drop, Nat.add_sub_cancel' (Nat.le_of_not_lt hnot), hdrop, hcount]
    rfl
  rw [hpair, startsBlock, hk, hbrace] at hfree
  cases hfree

/-! ### Places in the text -/

theorem Visited.stop_eq (h : Visited keyword tokens depth v s) : s.stop = endOf 0 (tokens.take v.next) := by
  obtain ⟨st, st', hs, hrest, hrest', hread⟩ := h.read
  obtain ⟨ts, -, hsplit, -, -, hstop⟩ := read_spec hs (hrest ▸ h.starts) hread
  have hlt := h.first_lt_next
  have hle := h.next_le
  have htake : tokens.take v.next = tokens.take v.first ++ ts := by
    have hlength := congrArg List.length hsplit
    rw [hrest, hrest', List.length_append, List.length_drop, List.length_drop] at hlength
    have hnext : v.next = v.first + ts.length := by omega
    rw [hnext, List.take_add, ← hrest, hsplit, List.take_left]
  rw [htake, endOf_append, hstop]

theorem Visited.start_eq (h : Visited keyword tokens depth v s) : s.start = lineStart (tokens.drop v.line) := by
  obtain ⟨st, st', hs, hrest, hrest', hread⟩ := h.read
  obtain ⟨-, -, -, -, hstart, -⟩ := read_spec hs (hrest ▸ h.starts) hread
  rw [hstart, hrest, before_append_drop h.line_le]

/-- A site ends before the line of a statement that starts later. -/
theorem Visited.stop_le_start {limit : Nat} (hordered : Ordered limit 0 tokens) (hv : Visited keyword tokens depth v s)
    (hw : Visited keyword tokens depth' w u) (hle : v.next ≤ w.line) : s.stop ≤ u.start := by
  have hlines := hordered
  rw [← List.take_append_drop w.line tokens] at hlines
  have hne : tokens.drop w.line ≠ [] := by
    have := hw.first_lt_next
    have := hw.next_le
    have := hw.line_le
    rw [ne_eq, List.drop_eq_nil_iff]
    omega
  calc s.stop = endOf 0 (tokens.take v.next) := hv.stop_eq
    _ ≤ endOf 0 (tokens.take w.line) := by
      have htake : tokens.take w.line = tokens.take v.next ++ (tokens.drop v.next).take (w.line - v.next) := by
        rw [← List.take_add, Nat.add_sub_cancel' hle]
      rw [htake, List.append_assoc] at hlines
      rw [htake, endOf_append]
      exact hlines.append.le_endOf
    _ ≤ lineStart (tokens.drop w.line) := le_lineStart hlines.append hne
    _ = u.start := hw.start_eq.symm

/-- Sites of which one was read do not overlap. -/
theorem Walked.apart {limit : Nat} {ss : List Site} {vs : List Visit} (hordered : Ordered limit 0 tokens)
    (hhost : PrefixesBlockFree keyword tokens) (h : Walked keyword tokens depth line i ss vs) :
    ss.Pairwise fun s u => ((∃ c, s.content = .ok c) ∨ ∃ c, u.content = .ok c) → s.stop ≤ u.start := by
  induction h with
  | stop => exact .nil
  | lineEnd _ _ _ ih => exact ih
  | @site depth line i next s ss vs hvisit hwalk ih =>
    refine List.pairwise_cons.2 ⟨fun u hu hok => ?_, ih⟩
    obtain ⟨w, hw, depth', hvisit'⟩ := hwalk.exists_visit u hu
    obtain ⟨hfirst, hline⟩ := hwalk.later w hw
    refine hvisit.stop_le_start hordered hvisit' ?_
    rcases hok with ⟨c, hc⟩ | ⟨c, hc⟩
    · obtain ⟨rfl, hend⟩ := hvisit.line_ends hc
      exact Nat.le_of_lt (hwalk.after_lineEnd hend w hw)
    · have hlt : i < w.line := hvisit.first_lt_line hvisit' hc hhost hfirst
      have hle : line ≤ i := hvisit.line_le
      exact hline.resolve_left (by omega)
  | token _ _ _ _ ih => exact ih

end Site

/-! ### Tokens and the text -/

/-- The characters of tokens and of the gaps before them. -/
def spacedChars (ts : List SpacedToken) : List Char := ts.flatMap fun t => t.gap.toList ++ t.text.toList

theorem toList_textOf (t : SpacedToken) (ts : List SpacedToken) :
    (SpacedToken.textOf (t :: ts)).toList = t.text.toList ++ spacedChars ts := by
  rw [SpacedToken.textOf, String.toList_append, String.toList_join]
  simp [spacedChars, List.flatMap, Function.comp_def]

/-- The characters of the first tokens, and what is left for the other ones. -/
theorem Placed.split {offset : Nat} {cs : List Char} {ts us : List SpacedToken} (h : Placed offset cs (ts ++ us)) :
    ∃ after, cs = spacedChars ts ++ after ∧ endOf offset ts = offset + (spacedChars ts).length ∧
      Placed (endOf offset ts) after us := by
  induction ts generalizing offset cs with
  | nil => exact ⟨cs, rfl, rfl, h⟩
  | cons t ts ih =>
    cases h with
    | @cons _ _ after _ _ hcs hoffset hstop h =>
      obtain ⟨after', rfl, hend, hplaced⟩ := ih h
      refine ⟨after', ?_, ?_, hplaced⟩
      · simp [hcs, spacedChars]
      · rw [endOf_cons, hend, hstop, hoffset]
        simp only [spacedChars, List.flatMap_cons, List.length_append, String.length_toList]
        omega

theorem Lexer.take_of_newline {cs : List Char} {n : Nat} (h : lexeme? cs = some (.newline, n)) :
    ∃ first, cs.take n = first ++ ['\n'] := by
  obtain ⟨cl, hcl, hsome⟩ := List.exists_of_findSome?_eq_some h
  obtain ⟨m, hm, heq⟩ := Option.map_eq_some_iff.1 hsome
  simp only [classes, List.mem_cons, List.not_mem_nil, or_false] at hcl
  rcases hcl with rfl | rfl | rfl | rfl | rfl | rfl | rfl | rfl | rfl | rfl <;> cases heq
  unfold newlineLength at hm
  dsimp only at hm
  split at hm
  · cases hm
    exact ⟨[], rfl⟩
  · cases hm
    exact ⟨['\r'], rfl⟩
  · cases hm

/-- The last line of a gap follows nothing or a line feed. -/
theorem Site.lastLine_split (gap : String) :
    ∃ pre, gap.toList = pre ++ (lastLine gap).toList ∧ (pre = [] ∨ pre.getLast? = some '\n') := by
  refine ⟨(gap.toList.reverse.dropWhile (· != '\n')).reverse, ?_, ?_⟩
  · rw [lastLine, String.toList_ofList, ← List.reverse_append, List.takeWhile_append_dropWhile, List.reverse_reverse]
  · rw [List.getLast?_reverse, List.reverse_eq_nil_iff]
    cases hrest : gap.toList.reverse.dropWhile (· != '\n') with
    | nil => exact .inl rfl
    | cons c rest =>
      have hnot := List.head?_dropWhile_not (· != '\n') gap.toList.reverse
      rw [hrest] at hnot
      have hc : c = '\n' := by simpa using hnot
      exact .inr (by rw [hc]; rfl)

/-- Tokens from the start of a line on, as they stand in the text. -/
theorem Placed.line {text : List Char} {earlier mid rest : List SpacedToken} {t : SpacedToken}
    (h : Placed 0 text (earlier ++ t :: mid ++ rest)) (hgenuine : ∀ u ∈ earlier, u.Genuine)
    (hline : ∀ u ∈ earlier.getLast?, u.kind = .newline) :
    ∃ above below, text = above ++ (Site.lastLine t.gap).toList ++ (SpacedToken.textOf (t :: mid)).toList ++ below ∧
      above.length = t.offset - (Site.lastLine t.gap).length ∧ (above = [] ∨ above.getLast? = some '\n') ∧
      endOf 0 (earlier ++ t :: mid) + below.length = text.length := by
  obtain ⟨below, htext, hend, -⟩ := h.split
  rw [List.append_assoc, List.cons_append] at h
  obtain ⟨after, -, hearlier, hplaced⟩ := h.split
  obtain ⟨pre, hgap, hpre⟩ := Site.lastLine_split t.gap
  refine ⟨spacedChars earlier ++ pre, below, ?_, ?_, ?_, ?_⟩
  · rw [htext, toList_textOf]
    simp [spacedChars, hgap]
  · cases hplaced with
    | cons _ hoffset =>
      have hlength := congrArg List.length hgap
      rw [List.length_append, String.length_toList, String.length_toList] at hlength
      rw [List.length_append, hoffset, hearlier]
      omega
  · rcases hpre with rfl | hpre
    · -- the line feed is the end of the token before
      obtain rfl | ⟨us, u, rfl⟩ := List.eq_nil_or_concat earlier
      · exact .inl rfl
      · rw [List.concat_eq_append] at hgenuine hline ⊢
        obtain ⟨-, cs, n, hlex, hu⟩ := hgenuine u (by simp)
        rw [hline u (by simp)] at hlex
        obtain ⟨first, hfirst⟩ := Lexer.take_of_newline hlex
        refine .inr ?_
        simp [spacedChars, hu, hfirst]
    · exact .inr (by rw [List.getLast?_append, hpre]; rfl)
  · rw [hend, htext]
    simp

namespace Script

open Lexer

variable {offset : Nat} {cs : List Char} {ts : List Token} {gap : String}

/-- Up to the next significant token, or to the end of the text, there is only trivia. -/
theorem collect_head (h : Cuts offset cs ts) :
    ∃ trivia next after, ts = trivia ++ next :: after ∧ (∀ u ∈ trivia, u.kind.isTrivia = true) ∧
      next.kind = ((collect gap ts).head?.map fun u => u.kind).getD .eof := by
  induction h generalizing gap with
  | @stop _ t ht => exact ⟨[], t, [], rfl, by simp, by simp [collect, ht, TokenKind.isTrivia]⟩
  | @token _ _ _ _ t ts hlex _ _ _ _ _ ih =>
    rw [collect]
    split
    · rename_i htrivia
      obtain ⟨trivia, next, after, rfl, hall, hkind⟩ := @ih (gap ++ t.text)
      exact ⟨t :: trivia, next, after, rfl, List.forall_mem_cons.2 ⟨htrivia, hall⟩, hkind⟩
    · rw [if_neg (by simp [kind_ne_eof_of_lexeme? hlex])]
      exact ⟨[], t, ts, rfl, by simp, rfl⟩

theorem collect_next (h : Cuts offset cs ts) {pre post : List SpacedToken} {t : SpacedToken}
    (hcollect : collect gap ts = pre ++ t :: post) :
    ∃ before trivia next after, ts = before ++ t.toToken :: trivia ++ next :: after ∧
      (∀ u ∈ trivia, u.kind.isTrivia = true) ∧ next.kind = (post.head?.map fun u => u.kind).getD .eof := by
  induction h generalizing gap pre with
  | @stop _ e he =>
    have hnil : collect gap [e] = [] := by simp [collect, he, TokenKind.isTrivia]
    rw [hnil] at hcollect
    simp at hcollect
  | @token _ _ _ _ u ts hlex _ _ _ _ hcuts ih =>
    rw [collect] at hcollect
    split at hcollect
    · obtain ⟨before, trivia, next, after, rfl, hall⟩ := ih hcollect
      exact ⟨u :: before, trivia, next, after, rfl, hall⟩
    · rw [if_neg (by simp [kind_ne_eof_of_lexeme? hlex])] at hcollect
      cases pre with
      | nil =>
        obtain ⟨rfl, rfl⟩ := List.cons.inj hcollect
        obtain ⟨trivia, next, after, rfl, hall⟩ := @collect_head _ _ _ "" hcuts
        exact ⟨[], trivia, next, after, rfl, hall⟩
      | cons p pre =>
        obtain ⟨-, hmore⟩ := List.cons.inj hcollect
        obtain ⟨before, trivia, next, after, rfl, hall⟩ := ih hmore
        exact ⟨u :: before, trivia, next, after, rfl, hall⟩

/-- Between a significant token of a text and the next one, or the end of the text, there is only trivia. -/
theorem ofText_next {text : String} {s : Script} {pre post : List SpacedToken} {t : SpacedToken}
    (hs : ofText text = .ok s) (htokens : s.tokens = pre ++ t :: post) :
    ∃ before trivia next after, (tokenize text).tokens = before ++ t.toToken :: trivia ++ next :: after ∧
      (∀ u ∈ trivia, u.kind.isTrivia = true) ∧ next.kind = (post.head?.map fun u => u.kind).getD .eof := by
  rw [ofText] at hs
  split at hs
  · cases hs
  · rename_i hfault
    cases hs
    exact collect_next (scan_cuts hfault) htokens

end Script

namespace Site

variable {keyword text : String} {script : Script} {depth : Nat} {s : Site} {v : Visit}

/-- A site that was read has lines for itself: its blanks, what names its sink, and its block from one brace to the
other, with nothing behind it. -/
structure Clean (keyword text : String) (script : Script) (v : Visit) (s : Site) (sink : Sink) (block : Block) :
    Prop where
  lines : ∃ above below, text.toList = above ++ s.indent.toList ++
      (SpacedToken.textOf (v.before script.tokens ++ v.taken script.tokens)).toList ++ below ∧
    above.length = s.start ∧ (above = [] ∨ above.getLast? = some '\n') ∧ s.stop + below.length = text.length
  indent : ∀ c ∈ s.indent.toList, Text.isBlank c = true
  sink : SinkNamed (v.before script.tokens) sink
  /-- The block ends at the brace that closes its first one; no earlier brace does, if the host takes only nested
  tokens for an assignment. -/
  block : ∃ word opener inner closer, v.taken script.tokens = word :: opener :: inner ++ [closer] ∧
    word.isName keyword = true ∧ opener.isSymbol "\x7b" = true ∧ closer.isSymbol "\x7d" = true ∧
    BlockLayout keyword nestedFragments block (opener :: inner ++ [closer]) ∧
    (PrefixesNested keyword script.tokens → Nested inner)
  /-- Only white space, comments and continuations stand between the closing brace and the end of the line. -/
  rest : ∃ before closer trivia next after, (Lexer.tokenize text).tokens = before ++ closer :: trivia ++ next :: after ∧
    closer.isSymbol "\x7d" = true ∧ closer.stop = s.stop ∧ (∀ t ∈ trivia, t.kind.isTrivia = true) ∧
    (next.kind = .newline ∨ next.kind = .eof)

namespace Visited

theorem taken_eq {tokens ts : List SpacedToken} {st st' : State} (h : Visited keyword tokens depth v s)
    (hrest : st.rest = tokens.drop v.first) (hrest' : st'.rest = tokens.drop v.next)
    (hsplit : st.rest = ts ++ st'.rest) : v.taken tokens = ts := by
  have hlength := congrArg List.length hsplit
  rw [hrest, hrest', List.length_append, List.length_drop, List.length_drop] at hlength
  have hlt := h.first_lt_next
  have hle := h.next_le
  have hcount : v.next - v.first = ts.length := by omega
  rw [Visit.taken, hcount, ← hrest, hsplit, List.take_left]

/-- The tokens of the whole statement, up to the end of the block. -/
theorem take_next {tokens : List SpacedToken} (h : Visited keyword tokens depth v s) :
    tokens.take v.next = tokens.take v.line ++ (v.before tokens ++ v.taken tokens) := by
  have hlt := h.first_lt_next
  have hle := h.line_le
  have hfirst : v.first = v.line + (v.first - v.line) := by omega
  have hnext : v.next = v.first + (v.next - v.first) := by omega
  rw [hnext, List.take_add, ← List.append_assoc, Visit.before, Visit.taken]
  congr 1
  rw [← List.take_add, ← hfirst]

/-- The statement as it stands in the text. -/
theorem lines {c : Sink × Block} (hs : Script.ofText text = .ok script)
    (h : Visited keyword script.tokens depth v s) (hc : s.content = .ok c) :
    ∃ above below, text.toList = above ++ s.indent.toList ++
        (SpacedToken.textOf (v.before script.tokens ++ v.taken script.tokens)).toList ++ below ∧
      above.length = s.start ∧ (above = [] ∨ above.getLast? = some '\n') ∧ s.stop + below.length = text.length := by
  obtain ⟨hplaced, hgenuine, -⟩ := Script.ofText_spec hs
  obtain ⟨st, st', hsound, hrest, hrest', hread⟩ := h.read
  obtain ⟨hindent, -⟩ := read_content hread hc
  have htokens := List.take_append_drop v.next script.tokens
  have hstart := h.start_eq
  have hstop := h.stop_eq
  rw [hrest, before_append_drop h.line_le] at hindent
  obtain ⟨t, mid, hmid⟩ : ∃ t mid, v.before script.tokens ++ v.taken script.tokens = t :: mid := by
    refine List.exists_cons_of_ne_nil fun hnil => ?_
    have hlength := congrArg List.length (List.append_eq_nil_iff.1 hnil).2
    rw [Visit.taken, List.length_take, List.length_drop, List.length_nil] at hlength
    have := h.first_lt_next
    have := h.next_le
    omega
  rw [h.take_next, hmid] at htokens hstop
  have hdrop : script.tokens.drop v.line = t :: mid ++ script.tokens.drop v.next := by
    refine List.append_cancel_left ((List.take_append_drop v.line script.tokens).trans ?_)
    rw [← List.append_assoc, htokens]
  rw [hdrop] at hindent hstart
  rw [← htokens] at hplaced
  obtain ⟨above, below, hlines, habove, hfeed, hbelow⟩ :=
    hplaced.line (fun u hu => hgenuine u (List.mem_of_mem_take hu)) h.line_starts
  rw [String.length_toList] at hbelow
  rw [hmid, hindent, hstart, hstop]
  exact ⟨above, below, hlines, habove, hfeed, hbelow⟩

theorem clean {sink : Sink} {block : Block} (hs : Script.ofText text = .ok script)
    (h : Visited keyword script.tokens depth v s) (hc : s.content = .ok (sink, block)) :
    Clean keyword text script v s sink block := by
  obtain ⟨st, st', hsound, hrest, hrest', hread⟩ := h.read
  obtain ⟨-, hcontent⟩ := read_content hread hc
  obtain ⟨word, ts, s₁, hm, hsink, hlayout⟩ := content?_moved nestedFragments_read hsound (hrest ▸ h.starts) hcontent
  have htaken := h.taken_eq hrest hrest' hm.rest
  obtain ⟨opener, inner, closer, rfl, hopen, hclose⟩ := braces_of_blockLayout hlayout
  have hword : word.isName keyword = true := by
    obtain ⟨k, brace, more, hdrop, hk, -⟩ := startsBlock_spec h.starts
    rw [← hrest, hm.rest] at hdrop
    obtain ⟨rfl, -⟩ := List.cons.inj hdrop
    exact hk
  have htokens : script.tokens = (script.tokens.take v.line ++ v.before script.tokens ++ word :: opener :: inner) ++
      closer :: script.tokens.drop v.next := by
    have := List.take_append_drop v.next script.tokens
    rw [h.take_next, htaken] at this
    simpa using this.symm
  refine ⟨h.lines hs hc, Text.isBlank_of_strip (always_content?_indent _ hcontent), sinkBefore_named hsink, ?_, ?_⟩
  · refine ⟨word, opener, inner, closer, htaken, hword, hopen, hclose, hlayout, fun hnested => ?_⟩
    have hin : opener :: inner ++ [closer] <:+: script.tokens := by
      rw [htokens]
      exact ⟨script.tokens.take v.line ++ v.before script.tokens ++ [word], script.tokens.drop v.next, by simp⟩
    obtain ⟨opener', inner', closer', heq, -, -, hinner, -⟩ := hlayout.braces hnested hin
    obtain ⟨-, heq⟩ := List.cons.inj heq
    obtain ⟨rfl, -⟩ := List.append_inj' heq rfl
    exact hinner
  · obtain ⟨before, trivia, next, after, hraw, htrivia, hkind⟩ := Script.ofText_next hs htokens
    refine ⟨before, closer.toToken, trivia, next, after, hraw, hclose, ?_, htrivia, ?_⟩
    · rw [h.stop_eq, h.take_next, htaken]
      simp
    · obtain ⟨-, hend⟩ := h.line_ends hc
      rw [hkind]
      cases hhead : (script.tokens.drop v.next).head? with
      | none => exact .inr rfl
      | some t => exact .inl (hend t hhead)

end Visited

/-! ### All sites of a module -/

/-- The ranges of tokens from `first` to `next` stand one after another, and every place where the keyword stands
before a brace is in exactly one of them. -/
structure Cover (keyword : String) (tokens : List SpacedToken) (vs : List Visit) : Prop where
  increasing : vs.Pairwise fun v w => v.next ≤ w.first
  once : ∀ i, startsBlock keyword (tokens.drop i) = true → ∃! v, v ∈ vs ∧ v.first ≤ i ∧ i + 1 < v.next

theorem Walked.cover {tokens : List SpacedToken} {line : Nat} {ss : List Site} {vs : List Visit}
    (h : Walked keyword tokens depth line 0 ss vs) : Cover keyword tokens vs := by
  refine ⟨h.increasing, fun i hstarts => ?_⟩
  obtain ⟨v, hv, hfirst, hnext⟩ := h.covered (Nat.zero_le i) hstarts
  refine ⟨v, ⟨hv, hfirst, hnext⟩, fun w hw => ?_⟩
  obtain ⟨hmem, hfirst', hnext'⟩ := hw
  -- two ranges that have a token in common cannot stand one after the other
  have hapart := List.Pairwise.forall_of_forall_of_flip (R := fun v w => v = w ∨ v.next ≤ w.first ∨ w.next ≤ v.first)
    (fun _ _ => .inl rfl) (h.increasing.imp fun hlt => .inr (.inl hlt)) (h.increasing.imp fun hlt => .inr (.inr hlt))
  rcases hapart hmem hv with rfl | hlt | hlt
  · rfl
  · omega
  · omega

/-- What the walk over a text comes to: where the sites stand, that together they have every block, and that those
that were read have their lines for themselves. -/
structure Covering (keyword text : String) (script : Script) (ss : List Site) (vs : List Visit) : Prop where
  script_eq : Script.ofText text = .ok script
  visited : List.Forall₂ (fun s v => ∃ depth, Visited keyword script.tokens depth v s) ss vs
  cover : Cover keyword script.tokens vs
  clean : List.Forall₂ (fun s v => ∀ sink block, s.content = .ok (sink, block) →
    Clean keyword text script v s sink block) ss vs
  /-- A site that was read overlaps no other one, if the host takes nothing for an assignment in which the keyword
  stands before a brace. -/
  apart : PrefixesBlockFree keyword script.tokens →
    ss.Pairwise fun s u => ((∃ c, s.content = .ok c) ∨ ∃ c, u.content = .ok c) → s.stop ≤ u.start

theorem Walked.covering {ss : List Site} {vs : List Visit} (hs : Script.ofText text = .ok script)
    (h : Walked keyword script.tokens 0 0 0 ss vs) : Covering keyword text script ss vs := by
  obtain ⟨hplaced, hgenuine, -⟩ := Script.ofText_spec hs
  refine ⟨hs, h.visited, h.cover, ?_, h.apart (hplaced.ordered hgenuine)⟩
  refine h.visited.imp fun s v hv sink block hc => ?_
  obtain ⟨depth, hv⟩ := hv
  exact hv.clean hs hc

end Site

open Site

end DoBlocks
