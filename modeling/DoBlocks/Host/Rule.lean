import DoBlocks.Host.Tree

/-!
# Rules of a grammar

A rule reads lexemes from the front of a text and builds trees. A lexeme is taken only by `accept`,
which also adds it to what is built; `node` and `wrap` put what was built under a node. So no rule can
lose or reorder lexemes, and no node is without children: a rule carries the proof. A rule that fails
has read nothing, and `<|>` tries another.
-/

namespace DoBlocks.Host

/-- The lexemes still to be read and the trees built so far, latest first. -/
structure Cursor where
  rest : List Lexeme
  built : List Tree
  deriving Repr, Inhabited

namespace Cursor

/-- All lexemes, those of the trees first. -/
def all (c : Cursor) : List Lexeme := Tree.lexemesOf c.built.reverse ++ c.rest

/-- Reading can lead from `c` to `c'`: the lexemes stay the same, and so do trees without empty nodes. -/
structure Leads (c c' : Cursor) : Prop where
  all_eq : c'.all = c.all
  full : (∀ t ∈ c.built, t.Full) → ∀ t ∈ c'.built, t.Full

theorem Leads.refl (c : Cursor) : c.Leads c := ⟨rfl, id⟩

theorem Leads.trans {c₁ c₂ c₃ : Cursor} (h : c₁.Leads c₂) (h' : c₂.Leads c₃) : c₁.Leads c₃ :=
  ⟨h'.all_eq.trans h.all_eq, h'.full ∘ h.full⟩

/-- What a rule gives after other trees were built is what it gives on its own, with those before it. -/
theorem Leads.after {rest : List Lexeme} {inner before : List Tree} {c' : Cursor}
    (h : Leads ⟨rest, inner⟩ c') : Leads ⟨rest, inner ++ before⟩ ⟨c'.rest, c'.built ++ before⟩ where
  all_eq := by
    have hall := h.all_eq
    simp only [all, List.reverse_append, Tree.lexemesOf_append, List.append_assoc] at hall ⊢
    rw [hall]
  full hbuilt t ht := by
    rcases List.mem_append.1 ht with ht | ht
    · exact h.full (fun u hu => hbuilt u (List.mem_append_left _ hu)) t ht
    · exact hbuilt t (List.mem_append_right _ ht)

/-- Puts all that was built under a node of kind `k` after `before`; there has to be something. -/
def close (k : Kind) (before : List Tree) (c : Cursor) : Option (Unit × Cursor) :=
  if c.built.isEmpty then none else some ((), ⟨c.rest, .node k c.built.reverse :: before⟩)

theorem close_leads {k : Kind} {before : List Tree} {c c' : Cursor} {u : Unit}
    (h : close k before c = some (u, c')) : Leads ⟨c.rest, c.built ++ before⟩ c' := by
  unfold close at h
  split at h
  · cases h
  · rename_i hne
    cases h
    refine ⟨?_, fun hbuilt t ht => ?_⟩
    · simp [all, Tree.lexemesOf_append, Tree.lexemesOf, Tree.lexemes]
    · rcases List.mem_cons.1 ht with rfl | ht
      · refine .node (by simpa [List.isEmpty_iff] using hne) fun u hu => hbuilt u ?_
        exact List.mem_append_left _ (List.mem_reverse.1 hu)
      · exact hbuilt t (List.mem_append_right _ ht)

end Cursor

/-- A step of reading that may fail. -/
structure Rule (α : Type) where
  run : Cursor → Option (α × Cursor)
  leads : ∀ {c a c'}, run c = some (a, c') → c.Leads c'

namespace Rule

variable {α β : Type}

def look (f : Cursor → Option α) : Rule α where
  run c := (f c).map fun a => (a, c)
  leads {c a c'} h := by
    obtain ⟨b, -, heq⟩ := Option.map_eq_some_iff.1 h
    cases heq
    exact .refl c

def andThen (r : Rule α) (f : α → Rule β) : Rule β where
  run c :=
    match r.run c with
    | some (a, c') => (f a).run c'
    | none => none
  leads {c b c'} h := by
    split at h
    · rename_i a c₁ hr
      exact (r.leads hr).trans ((f a).leads h)
    · cases h

/-- A rule, or another one where it fails. -/
def orTry (r : Rule α) (s : Unit → Rule α) : Rule α where
  run c :=
    match r.run c with
    | some x => some x
    | none => (s ()).run c
  leads {c a c'} h := by
    split at h
    · rename_i x hr
      cases h
      exact r.leads hr
    · exact (s ()).leads h

instance : Monad Rule where
  pure a := look fun _ => some a
  bind := andThen

instance : Alternative Rule where
  failure := look fun _ => none
  orElse := orTry

/-- Takes the next lexeme if it satisfies `p`. -/
def accept (p : Lexeme → Bool) : Rule Unit where
  run c :=
    match c.rest with
    | l :: rest => if p l then some ((), ⟨rest, .leaf l :: c.built⟩) else none
    | [] => none
  leads {c a c'} h := by
    split at h
    · rename_i l rest hrest
      split at h
      · cases h
        refine ⟨by simp [Cursor.all, hrest, Tree.lexemesOf_append, Tree.lexemesOf, Tree.lexemes], ?_⟩
        intro hbuilt t ht
        rcases List.mem_cons.1 ht with rfl | ht
        · exact .leaf l
        · exact hbuilt t ht
      · cases h
    · cases h

/-- Goes on only if `b` holds. -/
def check (b : Bool) : Rule Unit := if b then pure () else failure

/-- The next lexeme satisfies `p`. -/
def next (p : Lexeme → Bool) : Rule Bool := look fun c => some ((c.rest.head?.map p).getD false)

/-- The lexeme after the next satisfies `p`. -/
def afterNext (p : Lexeme → Bool) : Rule Bool :=
  look fun c => some (((c.rest.drop 1).head?.map p).getD false)

/-- The trees built so far, latest first. -/
def built : Rule (List Tree) := look fun c => some c.built

/-- The tree built last. -/
def latest : Rule Tree := look fun c => c.built.head?

/-- Puts what `r` builds under a node of kind `k` if `r` says so. -/
def nodeIf (r : Rule (Option Kind)) : Rule Unit where
  run c :=
    match r.run ⟨c.rest, []⟩ with
    | some (some k, c') => c'.close k c.built
    | some (none, c') => some ((), ⟨c'.rest, c'.built ++ c.built⟩)
    | none => none
  leads {c a c'} h := by
    split at h
    · rename_i k c₁ hr
      exact (r.leads hr).after.trans (Cursor.close_leads h)
    · rename_i c₁ hr
      cases h
      exact (r.leads hr).after
    · cases h

/-- Puts what `r` builds under a node whose kind `r` chooses. -/
def nodeAs (r : Rule Kind) : Rule Unit := nodeIf (do return some (← r))

/-- Puts what `r` builds under a node of kind `k`. -/
def node (k : Kind) (r : Rule Unit) : Rule Unit := nodeIf (do r; return some k)

/-- Puts what `r` builds under a node of kind `k` if `r` says so. -/
def nodeWhen (k : Kind) (r : Rule Bool) : Rule Unit :=
  nodeIf (do return if ← r then some k else none)

/-- Puts the tree built last and what `r` builds after it under a node of kind `k`. -/
def wrap (k : Kind) (r : Rule Unit) : Rule Unit where
  run c :=
    match c.built with
    | t :: before =>
      match r.run ⟨c.rest, [t]⟩ with
      | some ((), c') => c'.close k before
      | none => none
    | [] => none
  leads {c a c'} h := by
    split at h
    · rename_i t before hbuilt
      split at h
      · rename_i c₁ hr
        have := (r.leads hr).after.trans (Cursor.close_leads h)
        rwa [List.singleton_append, ← hbuilt] at this
      · cases h
    · cases h

/-- Tries a rule; says whether it succeeded. -/
def attempt (r : Rule Unit) : Rule Bool := (do r; return true) <|> return false

def repeated (r : Rule Unit) (c : Cursor) : Cursor :=
  match r.run c with
  | none => c
  | some ((), c') => if c'.rest.length < c.rest.length then repeated r c' else c'
termination_by c.rest.length

theorem repeated_leads (r : Rule Unit) (c : Cursor) : c.Leads (repeated r c) := by
  fun_induction repeated r c with
  | case1 c => exact .refl c
  | case2 c c' hr _ ih => exact (r.leads hr).trans ih
  | case3 c c' hr => exact r.leads hr

/-- Any number of times `r`. -/
def many (r : Rule Unit) : Rule Unit where
  run c := some ((), repeated r c)
  leads {c a c'} h := by
    cases h
    exact repeated_leads r c

/-- The operator or bracket `s`. -/
def sign (s : String) : Rule Unit := accept fun l => l.isOperator s

/-- The word `w`, reserved or not. -/
def word (w : String) : Rule Unit := accept fun l => l.isWord w

/-- The next lexeme is the operator or bracket `s`. -/
def atSign (s : String) : Rule Bool := next fun l => l.isOperator s

def atSigns (ss : List String) : Rule Bool := next fun l => l.kind == .operator && ss.contains l.text

/-- The next lexeme is the word `w`. -/
def atWord (w : String) : Rule Bool := next fun l => l.isWord w

/-- The next lexeme is of kind `k`. -/
def atKind (k : LexemeKind) : Rule Bool := next fun l => l.kind == k

/-- A lexeme of kind `k`. -/
def kind (k : LexemeKind) : Rule Unit := accept fun l => l.kind == k

/-- One or more items with commas between them; the result tells whether a comma ends the list. -/
def commas (item : Rule Unit) : Rule Bool := do
  item
  many (do sign ","; item)
  attempt (sign ",")

/-- Items with commas between and perhaps after them, under a node of kind `k` if there is a comma. -/
def tupled (k : Kind) (item : Rule Unit) : Rule Unit :=
  nodeWhen k (do
    let trailing ← commas item
    return trailing || decide (1 < (← built).length))

end Rule

end DoBlocks.Host
