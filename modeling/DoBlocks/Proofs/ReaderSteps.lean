import DoBlocks.Block.Parser
import DoBlocks.Proofs.Steps
import DoBlocks.Proofs.TokenStream

/-!
# The steps of the reader

Which tokens each step of the reader has moved past when it succeeds. `Moved` relates the states before
and after some tokens; the steps that look ahead or hand text to the host move past none.
-/

namespace DoBlocks

namespace BlockReader

/-- The next token; at the end of the text, its end. -/
def State.next (st : State) : Token := (st.rest.head?.map SpacedToken.toToken).getD st.stop

/-- From `st` to `st'` the reader has moved past the tokens `ts`. -/
structure Moved (st : State) (ts : List SpacedToken) (st' : State) : Prop where
  rest : st.rest = ts ++ st'.rest
  last : st'.last = (ts.getLast?.map SpacedToken.toToken).getD st.last
  stop : st'.stop = st.stop

namespace Moved

variable {st st₁ st₂ : State} {ts us : List SpacedToken}

theorem refl (st : State) : Moved st [] st := ⟨rfl, rfl, rfl⟩

theorem trans (h : Moved st ts st₁) (h' : Moved st₁ us st₂) : Moved st (ts ++ us) st₂ where
  rest := by rw [h.rest, h'.rest, List.append_assoc]
  last := by
    rw [h'.last, h.last, List.getLast?_append]
    cases us.getLast? <;> rfl
  stop := h'.stop.trans h.stop

theorem next_eq (h : Moved st [] st₁) : st₁.next = st.next := by
  have hr := h.rest
  rw [List.nil_append] at hr
  rw [State.next, State.next, hr, h.stop]

end Moved

/-- The reader stands before tokens that the lexer has cut, and the text ends after them. -/
structure Sound (st : State) : Prop where
  stop : st.stop.kind = .eof
  genuine : ∀ t ∈ st.rest, t.Genuine

theorem Moved.sound {st st' : State} {ts : List SpacedToken} (h : Moved st ts st') (hs : Sound st) :
    Sound st' where
  stop := h.stop ▸ hs.stop
  genuine t ht := hs.genuine t (h.rest ▸ List.mem_append_right ts ht)

/-- The reader can have passed the tokens inside a line: the lexer has cut them, and no line end comes first. -/
structure Passed (ts : List SpacedToken) : Prop where
  genuine : ∀ t ∈ ts, t.Genuine
  first : ∀ t ∈ ts.head?, t.kind ≠ .newline

/-- The tokens can be the range of a fragment: they are all that was found for one. -/
structure Scanned (ts : List SpacedToken) : Prop extends Passed ts where
  found : ∃ keyword stop rest, extent keyword stop [] none rest = .ok ts

end BlockReader

namespace Yields

open BlockReader

variable {α : Type} {st st' : State} {a : α} {t : Token} {b : Bool}
variable {f : Bool → Reader α} {u : Unit}

theorem peek_iff : Yields peek st t st' ↔ t = st.next ∧ st' = st := by
  rw [peek, get_bind_iff, pure_iff, State.next]

theorem last_iff : Yields BlockReader.last st t st' ↔ t = st.last ∧ st' = st := by
  rw [BlockReader.last, get_bind_iff, pure_iff]

theorem peek_bind_iff {f : Token → Reader α} :
    Yields (peek >>= f) st a st' ↔ Yields (f st.next) st a st' := bind_of_iff peek_iff

theorem last_bind_iff {f : Token → Reader α} :
    Yields (BlockReader.last >>= f) st a st' ↔ Yields (f st.last) st a st' := bind_of_iff last_iff

theorem atSymbol_bind_iff {sign : String} :
    Yields (atSymbol sign >>= f) st a st' ↔ Yields (f (st.next.isSymbol sign)) st a st' := by
  rw [atSymbol, bind_assoc, peek_bind_iff, pure_bind]

theorem atName_bind_iff {word : String} :
    Yields (atName word >>= f) st a st' ↔ Yields (f (st.next.isName word)) st a st' := by
  rw [atName, bind_assoc, peek_bind_iff, pure_bind]

theorem atStatementEnd_bind_iff :
    Yields (atStatementEnd >>= f) st a st' ↔ Yields (f (endsStatement st.next)) st a st' := by
  rw [atStatementEnd, bind_assoc, peek_bind_iff, pure_bind]

/-- The next token is moved past, unless the text ends. -/
theorem consume_moved (h : Yields consume st t st') (hs : Sound st) (ht : st.next.kind ≠ .eof) :
    t = st.next ∧ ∃ u : SpacedToken, u.toToken = t ∧ Moved st [u] st' := by
  rw [consume, get_bind_iff] at h
  obtain ⟨_, _, hset, hp⟩ := bind_iff.1 h
  obtain rfl := set_iff.1 hset
  obtain ⟨rfl, rfl⟩ := pure_iff.1 hp
  cases hrest : st.rest with
  | nil =>
    simp only [State.next, hrest, List.head?_nil, Option.map_none, Option.getD_none] at ht
    exact absurd hs.stop ht
  | cons u rest => exact ⟨by simp [State.next, hrest], u, rfl, hrest, rfl, rfl⟩

theorem advance_moved {ts : List SpacedToken} (h : Yields (BlockReader.advance ts) st u st') (ht : ts <+: st.rest) :
    Moved st ts st' := by
  obtain rfl := modify_iff.1 h
  obtain ⟨more, hm⟩ := ht
  refine ⟨?_, rfl, rfl⟩
  simp [← hm]

theorem skipWhile_moved {p : Token → Bool} (h : Yields (skipWhile p) st u st') :
    ∃ ts, Moved st ts st' ∧ ∀ t ∈ ts, p t.toToken = true := by
  rw [skipWhile, get_bind_iff] at h
  refine ⟨_, advance_moved h (List.takeWhile_prefix _), fun t ht => ?_⟩
  have := List.all_takeWhile (p := fun t : SpacedToken => p t.toToken) (l := st.rest)
  exact List.all_eq_true.1 this t ht

end Yields

namespace BlockReader

variable {t : SpacedToken} {p : List SpacedToken → Bool} {depth : Nat} {pre : List SpacedToken}

/-! ### Extents -/

/-- The token ends a fragment outside brackets. -/
def endsFragment (stop : Token → Bool) (t : Token) : Bool :=
  stop t || t.kind == .newline || t.isSymbol ";" || t.isSymbol "\x7d"

/-- How one token changes the open brackets. -/
inductive Brackets (t : SpacedToken) : List SpacedToken → List SpacedToken → Prop
  | opens {openers : List SpacedToken} : t.isOpener = true → Brackets t openers (t :: openers)
  | closes {o : SpacedToken} {outer : List SpacedToken} :
    t.isOpener = false → t.isCloser = true → Token.closerOf o.text = t.text → Brackets t (o :: outer) outer
  | keeps {openers : List SpacedToken} :
    t.isOpener = false → t.isCloser = false → Brackets t openers openers

variable {keyword : String} {stop : Token → Bool} {openers rest ts : List SpacedToken}
  {before : Option SpacedToken}

/-- The fragment ends before the token, or takes it. -/
theorem extent_cons (h : extent keyword stop openers before (t :: rest) = .ok ts) :
    (openers = [] ∧ endsFragment stop t.toToken = true ∧ ts = []) ∨
    (openers = [] → endsFragment stop t.toToken = false) ∧
      ∃ openers' ts', Brackets t openers openers' ∧ ts = t :: ts' ∧
        extent keyword stop openers' (some t) rest = .ok ts' := by
  have taken {openers' : List SpacedToken} (hb : Brackets t openers openers')
      (hx : (extent keyword stop openers' (some t) rest >>= fun ts' => pure (t :: ts')) = .ok ts) :
      ∃ openers' ts', Brackets t openers openers' ∧ ts = t :: ts' ∧
        extent keyword stop openers' (some t) rest = .ok ts' := by
    cases hr : extent keyword stop openers' (some t) rest with
    | error e =>
      rw [hr] at hx
      cases hx
    | ok ts' =>
      rw [hr] at hx
      cases hx
      exact ⟨openers', ts', hb, rfl, hr⟩
  unfold extent at h
  dsimp only at h
  cases openers with
  | nil =>
    simp only [List.isEmpty_nil, if_true] at h
    split at h
    · rename_i hend
      cases h
      exact .inl ⟨rfl, hend, rfl⟩
    · rename_i hend
      refine .inr ⟨fun _ => Bool.eq_false_iff.2 hend, ?_⟩
      split at h
      · cases h
      · rename_i hclose
        split at h
        · rename_i hopen
          split at h
          · split at h
            · cases h
            · exact taken (.opens hopen) h
          · exact taken (.opens hopen) h
        · rename_i hopen
          exact taken (.keeps (Bool.eq_false_iff.2 hopen) (Bool.eq_false_iff.2 hclose)) h
  | cons o outer =>
    simp only [List.isEmpty_cons, Bool.false_eq_true, if_false] at h
    refine .inr ⟨nofun, ?_⟩
    split at h
    · rename_i hopen
      split at h
      · split at h
        · cases h
        · exact taken (.opens hopen) h
      · exact taken (.opens hopen) h
    · rename_i hopen
      split at h
      · rename_i hclose
        split at h
        · cases h
        · rename_i hmatch
          exact taken (.closes (Bool.eq_false_iff.2 hopen) hclose (by simpa using hmatch)) h
      · rename_i hclose
        exact taken (.keeps (Bool.eq_false_iff.2 hopen) (Bool.eq_false_iff.2 hclose)) h

/-- A fragment is followed by nothing or by a token that ends it. -/
theorem extent_spec (h : extent keyword stop openers before rest = .ok ts) :
    ∃ more, rest = ts ++ more ∧ ∀ t ∈ more.head?, endsFragment stop t.toToken = true := by
  induction rest generalizing openers before ts with
  | nil =>
    unfold extent at h
    split at h
    · cases h
    · cases h
      exact ⟨[], rfl, nofun⟩
  | cons t rest ih =>
    rcases extent_cons h with ⟨-, hend, rfl⟩ | ⟨-, openers', ts', -, rfl, hx⟩
    · refine ⟨t :: rest, rfl, fun u hu => ?_⟩
      cases hu
      exact hend
    · obtain ⟨more, rfl, hmore⟩ := ih hx
      exact ⟨more, rfl, hmore⟩

theorem startsBlock_spec (h : startsBlock keyword rest = true) :
    ∃ k brace more, rest = k :: brace :: more ∧ k.isName keyword = true ∧
      brace.isSymbol "\x7b" = true := by
  unfold startsBlock at h
  split at h
  · rw [Bool.and_eq_true] at h
    exact ⟨_, _, _, rfl, h⟩
  · cases h

theorem before?_spec (h : before? p depth rest = some pre) : ∃ more, rest = pre ++ more ∧ p more = true := by
  induction rest generalizing depth pre with
  | nil => cases h
  | cons t rest ih =>
    have taken {d : Nat} (hx : (before? p d rest).map (t :: ·) = some pre) :
        ∃ more, t :: rest = pre ++ more ∧ p more = true := by
      obtain ⟨pre', hpre, rfl⟩ := Option.map_eq_some_iff.1 hx
      obtain ⟨more, rfl, hmore⟩ := ih hpre
      exact ⟨more, rfl, hmore⟩
    unfold before? at h
    split at h
    · rename_i hp
      cases h
      exact ⟨t :: rest, rfl, (Bool.and_eq_true _ _ ▸ hp).2⟩
    · split at h
      · cases h
      · split at h
        · exact taken h
        · split at h
          · split at h
            · cases h
            · exact taken h
          · exact taken h

/-- A search goes on past a name that is not what it looks for. -/
theorem before?_name (ht : t.kind = .name) (hp : p (t :: rest) = false) :
    before? p depth (t :: rest) = (before? p depth rest).map (t :: ·) := by
  simp [before?, hp, Token.isSymbol, Token.isOpener, Token.isCloser, ht]

/-- No line end comes first in a fragment. -/
theorem extent_head (h : extent keyword stop [] before rest = .ok ts) :
    ∀ t ∈ ts.head?, t.kind ≠ .newline := by
  cases rest with
  | nil =>
    cases h
    exact nofun
  | cons t rest =>
    rcases extent_cons h with ⟨-, -, rfl⟩ | ⟨hend, openers', ts', -, rfl, -⟩
    · exact nofun
    · intro u hu hk
      cases hu
      have := hend rfl
      simp [endsFragment, hk] at this

theorem isCloser_of_isSymbol {t : Token} (h : t.isSymbol "\x7d" = true) : t.isCloser = true := by
  simp only [Token.isSymbol, Token.isCloser, Bool.and_eq_true, Bool.or_eq_true] at h ⊢
  exact ⟨h.1, .inr h.2⟩

theorem isOpener_eq_false_of_isSymbol {t : Token} (h : t.isSymbol "\x7d" = true) :
    t.isOpener = false := by
  simp only [Token.isSymbol, Bool.and_eq_true, beq_iff_eq] at h
  simp [Token.isOpener, h.2]

/-- A fragment that ends where `stop` holds and a search for such a place end at the same token. -/
theorem eq_of_before? (h : extent keyword stop openers before rest = .ok ts)
    (hb : before? (fun ts => ts.head?.any fun t => stop t.toToken) openers.length rest = some pre) :
    ts = pre := by
  induction rest generalizing openers before ts pre with
  | nil => cases hb
  | cons t rest ih =>
    unfold before? at hb
    split at hb
    · rename_i hp
      cases hb
      simp only [Bool.and_eq_true, beq_iff_eq, List.length_eq_zero_iff, List.head?_cons,
        Option.any_some] at hp
      rcases extent_cons h with ⟨-, -, rfl⟩ | ⟨hend, -⟩
      · rfl
      · have := hend hp.1
        simp [endsFragment, hp.2] at this
    · rename_i hp
      split at hb
      · cases hb
      · rename_i hline
        -- the search goes on, so nothing but a closing brace could end the fragment here
        have hbrace : openers = [] → endsFragment stop t.toToken = true → t.isSymbol "\x7d" = true := by
          rintro rfl hend
          simp only [List.length_nil, beq_self_eq_true, Bool.true_and, List.head?_cons,
            Option.any_some, Bool.or_eq_true, not_or, Bool.not_eq_true] at hp hline
          simpa [endsFragment, hp, hline] using hend
        rcases extent_cons h with ⟨rfl, hend, rfl⟩ | ⟨-, openers', ts', hbr, rfl, hx⟩
        · have hclose := isCloser_of_isSymbol (hbrace rfl hend)
          have hopen := isOpener_eq_false_of_isSymbol (hbrace rfl hend)
          simp [hopen, hclose] at hb
        · cases hbr with
          | opens hopen =>
            rw [if_pos hopen] at hb
            obtain ⟨pre', hpre, rfl⟩ := Option.map_eq_some_iff.1 hb
            rw [ih hx hpre]
          | closes hopen hclose =>
            rw [if_neg (by simp [hopen]), if_pos hclose] at hb
            obtain ⟨pre', hpre, rfl⟩ := Option.map_eq_some_iff.1 hb
            rw [ih hx hpre]
          | keeps hopen hclose =>
            rw [if_neg (by simp [hopen]), if_neg (by simp [hclose])] at hb
            obtain ⟨pre', hpre, rfl⟩ := Option.map_eq_some_iff.1 hb
            rw [ih hx hpre]

end BlockReader

namespace Yields

open BlockReader

variable {st st' : State}

/-- A range is moved past as a whole; what comes next ends it. -/
theorem range_moved {keyword : String} {stop : Token → Bool} {r : Range}
    (h : Yields (range keyword stop) st r st') (hs : Sound st) :
    Moved st r.tokens st' ∧ Scanned r.tokens ∧ extent keyword stop [] none st.rest = .ok r.tokens ∧
      ∀ t ∈ st'.rest.head?, endsFragment stop t.toToken = true := by
  obtain ⟨ts, t, hscan, hy⟩ := bind_iff.1 h
  rw [scan, get_bind_iff] at hscan
  split at hscan
  · rename_i ts' hx
    obtain ⟨rfl, rfl⟩ := pure_iff.1 hscan
    rw [peek_bind_iff] at hy
    obtain ⟨u, s₁, hadv, hy⟩ := bind_iff.1 hy
    rw [last_bind_iff] at hy
    obtain ⟨rfl, rfl⟩ := pure_iff.1 hy
    obtain ⟨more, hrest, hmore⟩ := extent_spec hx
    have hm := hadv.advance_moved ⟨more, hrest.symm⟩
    have : st'.rest = more := List.append_cancel_left (hm.rest.symm.trans hrest)
    refine ⟨hm, ⟨⟨fun t ht => hs.genuine t ?_, extent_head hx⟩, keyword, stop, _, hx⟩, hx, this ▸ hmore⟩
    rw [hrest]
    exact List.mem_append_left more ht
  · exact absurd hscan not_throw

end Yields

namespace BlockReader

/-! ### Host fragments -/

/-- The step moves past no token. -/
def Still {α : Type} (m : Reader α) : Prop := ∀ ⦃st a st'⦄, Yields m st a st' → Moved st [] st'

namespace Still

variable {α β : Type} {m n : Reader α} {f : α → Reader β}

protected theorem pure (a : α) : Still (pure a : Reader α) := by
  intro st b st' h
  rw [(Yields.pure_iff.1 h).2]
  exact .refl st

protected theorem get : Still (get : Reader State) := by
  intro st b st' h
  rw [(Yields.get_iff.1 h).2]
  exact .refl st

theorem bind (hm : Still m) (hf : ∀ a, Still (f a)) : Still (m >>= f) := by
  intro st b st' h
  obtain ⟨a, t, hy, hy'⟩ := Yields.bind_iff.1 h
  exact (hm hy).trans (hf a hy')

theorem throw (e : BlockFailure) : Still (throw e : Reader α) := by
  intro st a st' h
  exact absurd h Yields.not_throw

theorem ite {c : Prop} [Decidable c] (hm : Still m) (hn : Still n) : Still (if c then m else n) := by
  split
  · exact hm
  · exact hn

end Still

theorem still_hostText (ts : List SpacedToken) : Still (hostText ts) := by
  intro st text st' h
  rw [hostText, Yields.get_bind_iff] at h
  dsimp only at h
  split at h
  · obtain ⟨_, _, -, hf⟩ := Yields.bind_iff.1 h
    exact absurd hf Yields.not_throw
  · obtain ⟨_, _, hm, hp⟩ := Yields.bind_iff.1 h
    obtain rfl := Yields.modify_iff.1 hm
    obtain ⟨-, rfl⟩ := Yields.pure_iff.1 hp
    exact ⟨rfl, rfl, rfl⟩

theorem still_rejectMarks (marks : List EscapeMark) (fault : ParseFault) :
    Still (rejectMarks marks fault) := by
  unfold rejectMarks
  split
  · exact .throw _
  · exact .pure _
  · refine Still.get.bind fun st => ?_
    split
    · exact .throw _
    · exact .throw _

theorem still_hostTree (r : Except Host.Refusal Host.Tree) (fault : ParseFault) (span : Span) :
    Still (hostTree r fault span) := by
  unfold hostTree
  split
  · exact .pure _
  · exact .throw _
  · exact .throw _

theorem still_hostExpression (r : Range) (role : FragmentRole) (escapes : Bool) :
    Still (hostExpression r role escapes) := by
  refine (still_hostText _).bind fun text => (still_hostTree _ _ _).bind fun tree => ?_
  refine .ite ?_ ?_
  · exact (still_rejectMarks _ _).bind fun _ => .pure _
  · exact (still_rejectMarks _ _).bind fun _ => .pure _

theorem still_hostPattern (r : Range) : Still (hostPattern r) := by
  refine (still_hostTree _ _ _).bind fun tree => ?_
  split
  · exact .pure _
  · exact .throw _

theorem still_hostSimple (r : Range) : Still (hostSimple r) := by
  refine (still_hostText _).bind fun text => (still_hostTree _ _ _).bind fun tree => ?_
  split
  · exact (still_rejectMarks _ _).bind fun _ => .pure _
  · exact .throw _

theorem still_hostTarget (r : Range) : Still (hostTarget r) := by
  refine (still_hostTree _ _ _).bind fun tree => ?_
  split
  · exact .pure _
  · exact .pure _

theorem still_sinkBefore (keyword : String) (before : List SpacedToken) (block : Token) :
    Still (sinkBefore keyword before block) := by
  unfold sinkBefore
  split
  · refine .ite (.pure _) (.ite ?_ (.throw _))
    split
    · split
      · exact .ite (.pure _) (.throw _)
      · exact .throw _
    · exact .throw _
    · exact .throw _
  · exact .pure _

end BlockReader

end DoBlocks
