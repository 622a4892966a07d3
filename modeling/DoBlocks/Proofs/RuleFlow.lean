import DoBlocks.Host.Grammar
import DoBlocks.Proofs.RuleSteps

/-!
# Rules and the lexemes around them

A name cannot be followed by an opening brace, `match` and `case` apart, nor `=` by an operator that
begins with `>`: the grammar never puts them side by side. Here is the judgement that shows it. A rule
`Flows` from what it needs to know of the lexeme before it to what it leaves known: an operand may begin
with a brace, so it needs a lexeme that is no name; a comparison needs one that is no `=`, and that is what
operands leave.
-/

namespace DoBlocks.Host

namespace Lexeme

/-- A name that starts no statement of its own. -/
def isPlainName (l : Lexeme) : Bool :=
  l.kind == .name && !Text.isKeyword l.text && l.text != "match" && l.text != "case"

/-- An operator that begins with `>`. -/
def isGreater (l : Lexeme) : Bool := l.kind == .operator && [">", ">=", ">>", ">>="].contains l.text

/-- The second lexeme is not one that cannot follow the first. -/
def Fits (p l : Lexeme) : Prop :=
  ¬(p.isPlainName = true ∧ l.isOperator "\x7b" = true) ∧ ¬(p.isOperator "=" = true ∧ l.isGreater = true)

end Lexeme

/-- Every two neighbours fit. -/
def Fitting (ls : List Lexeme) : Prop := ∀ before a b after, ls = before ++ a :: b :: after → a.Fits b

/-- From `p` over the lexemes to the last of them, each fits the one before. -/
inductive Path : Lexeme → List Lexeme → Lexeme → Prop
  | nil (p : Lexeme) : Path p [] p
  | cons {p l q : Lexeme} {ls : List Lexeme} : p.Fits l → Path l ls q → Path p (l :: ls) q

namespace Path

theorem append {p q r : Lexeme} {ls ms : List Lexeme} (h : Path p ls q) (h' : Path q ms r) :
    Path p (ls ++ ms) r := by
  induction h with
  | nil => exact h'
  | cons hfits _ ih => exact .cons hfits (ih h')

/-- The path ends with its last lexeme, or it ends where it starts. -/
theorem last {p q : Lexeme} {ls : List Lexeme} (h : Path p ls q) : ls = [] ∧ p = q ∨ ∃ ms, ls = ms ++ [q] := by
  induction h with
  | nil => exact .inl ⟨rfl, rfl⟩
  | @cons _ l _ _ _ _ ih =>
    rcases ih with ⟨rfl, rfl⟩ | ⟨ms, rfl⟩
    · exact .inr ⟨[], rfl⟩
    · exact .inr ⟨l :: ms, rfl⟩

theorem fitting {p q : Lexeme} {ls : List Lexeme} (h : Path p ls q) : Fitting ls := by
  induction h with
  | nil => exact fun before a b after heq => absurd heq.symm (by simp)
  | cons _ h ih =>
    intro before a b after heq
    cases before with
    | nil =>
      cases h with
      | nil => cases heq
      | cons hfits _ =>
        cases heq
        exact hfits
    | cons c before => exact ih before a b after (List.cons.inj heq).2

end Path

namespace Rule

/-- What is known of the lexeme before and of the lexemes to come. -/
abbrev Known := Lexeme → List Lexeme → Prop

/-- Where `P` is known the rule takes lexemes that fit, and leaves `Q` known. -/
def Flows {α : Type} (P Q : Known) (r : Rule α) : Prop :=
  ∀ ⦃c a c'⦄, r.run c = some (a, c') → ∀ p, P p c.rest →
    ∃ ms q, c.rest = ms ++ c'.rest ∧ Path p ms q ∧ Q q c'.rest

section Flows

variable {α β : Type} {P P' Q Q' R : Known} {r s : Rule α} {f : α → Rule β}
variable {φ : Lexeme → Bool} {p l : Lexeme} {rest : List Lexeme} {w : String} {ss : List String}

theorem Stays.flows (h : Stays r) (hPQ : ∀ p rest, P p rest → Q p rest) : Flows P Q r := by
  intro c a c' hrun p hp
  obtain rfl := h hrun
  exact ⟨[], p, rfl, .nil p, hPQ p _ hp⟩

theorem flows_pure {a : α} : Flows P P (pure a : Rule α) := stays_pure.flows fun _ _ => id

theorem flows_check {flag : Bool} : Flows P P (check flag) := stays_check.flows fun _ _ => id

theorem flows_failure : Flows P Q (failure : Rule α) := fun _ _ _ h => (failure_run h).elim

theorem Flows.weaken (h : Flows P Q r) (hP : ∀ p rest, P' p rest → P p rest)
    (hQ : ∀ p rest, Q p rest → Q' p rest) : Flows P' Q' r := by
  intro c a c' hrun p hp
  obtain ⟨ms, q, hrest, hpath, hq⟩ := h hrun p (hP p _ hp)
  exact ⟨ms, q, hrest, hpath, hQ q _ hq⟩

theorem Flows.bind (h : Flows P Q r) (h' : ∀ a, Flows Q R (f a)) : Flows P R (r >>= f) := by
  intro c b c' hrun p hp
  obtain ⟨a, c₁, hr, hf⟩ := bind_run_iff.1 hrun
  obtain ⟨ms, q, hrest, hpath, hq⟩ := h hr p hp
  obtain ⟨ms', q', hrest', hpath', hq'⟩ := h' a hf q hq
  exact ⟨ms ++ ms', q', by rw [hrest, hrest', List.append_assoc], hpath.append hpath', hq'⟩

/-- Looking ahead changes nothing. -/
theorem flows_look {g : Cursor → Option α} (h : ∀ a, Flows P Q (f a)) : Flows P Q (look g >>= f) :=
  (stays_look.flows fun _ _ => id).bind h

theorem Flows.ite {flag : Prop} [Decidable flag] (h : Flows P Q r) (h' : Flows P Q s) :
    Flows P Q (if flag then r else s) := by
  split
  · exact h
  · exact h'

theorem Flows.orElse (h : Flows P Q r) (h' : Flows P Q s) : Flows P Q (r <|> s) := by
  intro c a c' hrun
  rcases orElse_run hrun with hr | hs
  · exact h hr
  · exact h' hs

theorem Flows.attempt {r : Rule Unit} (h : Flows P Q r) (hPQ : ∀ p rest, P p rest → Q p rest) :
    Flows P Q (attempt r) := by
  intro c flag c' hrun p hp
  have hrun := attempt_run hrun
  cases flag with
  | true => exact h hrun p hp
  | false =>
    obtain rfl : c' = c := hrun
    exact ⟨[], p, rfl, .nil p, hPQ p _ hp⟩

/-- A rule that is tried decides how to go on. -/
theorem Flows.attemptElse {r : Rule Unit} {f : Bool → Rule β} (h : Flows P Q r) (hs : Flows Q R (f true))
    (ht : Flows P R (f false)) : Flows P R (Rule.attempt r >>= f) := by
  intro c b c' hrun p hp
  obtain ⟨flag, c₁, hattempt, hrest⟩ := bind_run_iff.1 hrun
  replace hattempt := attempt_run hattempt
  cases flag with
  | true =>
    obtain ⟨ms, q, hms, hpath, hq⟩ := h hattempt p hp
    obtain ⟨ms', q', hms', hpath', hq'⟩ := hs hrest q hq
    exact ⟨ms ++ ms', q', by rw [hms, hms', List.append_assoc], hpath.append hpath', hq'⟩
  | false =>
    obtain rfl : c₁ = c := hattempt
    exact ht hrest p hp

/-- What one round keeps known, all rounds keep. -/
theorem Flows.many {r : Rule Unit} (h : Flows P P r) : Flows P P (many r) := by
  intro c u c' hrun
  obtain rfl : c' = repeated r c := by cases hrun; rfl
  clear hrun
  fun_induction repeated r c with
  | case1 c => exact fun p hp => ⟨[], p, rfl, .nil p, hp⟩
  | case2 c c' hr _ ih =>
    intro p hp
    obtain ⟨ms, q, hrest, hpath, hq⟩ := h hr p hp
    obtain ⟨ms', q', hrest', hpath', hq'⟩ := ih q hq
    exact ⟨ms ++ ms', q', by rw [hrest, hrest', List.append_assoc], hpath.append hpath', hq'⟩
  | case3 c c' hr => exact h hr

theorem Flows.nodeIf {r : Rule (Option Kind)} (h : Flows P Q r) : Flows P Q (nodeIf r) := by
  intro c u c' hrun p hp
  obtain ⟨k?, c₁, hr, hnode⟩ := nodeIf_run hrun
  obtain ⟨ms, q, hrest, hpath, hq⟩ := h hr p hp
  have hrest' : c'.rest = c₁.rest := by
    cases k? with
    | none => rw [show c' = _ from hnode]
    | some k => rw [show c' = _ from hnode.2]
  exact ⟨ms, q, by rw [hrest']; exact hrest, hpath, by rwa [hrest']⟩

theorem Flows.nodeAs {r : Rule Kind} (h : Flows P Q r) : Flows P Q (nodeAs r) :=
  (h.bind fun _ => flows_pure).nodeIf

theorem Flows.node {k : Kind} {r : Rule Unit} (h : Flows P Q r) : Flows P Q (node k r) :=
  (h.bind fun _ => flows_pure).nodeIf

theorem Flows.nodeWhen {k : Kind} {r : Rule Bool} (h : Flows P Q r) : Flows P Q (nodeWhen k r) :=
  (h.bind fun _ => flows_pure).nodeIf

theorem Flows.wrap {k : Kind} {r : Rule Unit} (h : Flows P Q r) : Flows P Q (wrap k r) := by
  intro c u c' hrun p hp
  obtain ⟨t, before, c₁, -, hr, rfl⟩ := wrap_run hrun
  exact h hr p hp

/-- A lexeme that fits what is known. -/
theorem flows_accept (hfits : ∀ p l rest, P p (l :: rest) → φ l = true → p.Fits l)
    (hQ : ∀ l rest, φ l = true → Q l rest) : Flows P Q (accept φ) := by
  intro c u c' hrun p hp
  obtain ⟨l, rest, hrest, hl, rfl⟩ := accept_run hrun
  rw [hrest] at hp ⊢
  exact ⟨[l], l, rfl, .cons (hfits p l rest hp hl) (.nil l), hQ l rest hl⟩

/-- `P` is known, and that the next lexeme satisfies `φ`. -/
def Before (φ : Lexeme → Bool) (P : Known) : Known :=
  fun p rest => P p rest ∧ (rest.head?.map φ).getD false = true

theorem before_cons (h : Before φ P p (l :: rest)) :
    P p (l :: rest) ∧ φ l = true := ⟨h.1, by simpa using h.2⟩

theorem next_run {c c' : Cursor} {b : Bool} (h : (next φ).run c = some (b, c')) :
    (c.rest.head?.map φ).getD false = b ∧ c' = c := by
  cases h
  exact ⟨rfl, rfl⟩

/-- What was seen of the next lexeme is known afterwards. -/
theorem flows_next (h : Flows (Before φ P) Q r) (h' : Flows P Q s) :
    Flows P Q (next φ >>= fun b => if b = true then r else s) := by
  intro c a c' hrun p hp
  obtain ⟨b, c₁, hnext, hrest⟩ := bind_run_iff.1 hrun
  obtain ⟨hb, rfl⟩ := next_run hnext
  cases b with
  | true => exact h hrest p ⟨hp, hb⟩
  | false => exact h' hrest p hp

theorem flows_checkNext (h : Flows (Before φ P) Q r) :
    Flows P Q (next φ >>= fun b => check b >>= fun _ => r) := by
  intro c a c' hrun p hp
  obtain ⟨b, c₁, hnext, hrest⟩ := bind_run_iff.1 hrun
  obtain ⟨u, c₂, hcheck, hrest⟩ := bind_run_iff.1 hrest
  obtain ⟨rfl, rfl⟩ := check_run_iff.1 hcheck
  obtain ⟨hb, rfl⟩ := next_run hnext
  exact h hrest p ⟨hp, hb⟩

/-! ### What follows what -/

/-- An operand may follow: the lexeme before is no name. -/
def Opens : Known := fun p _ => p.isPlainName = false

/-- An operator may follow: the lexeme before is no `=`. -/
def Ends : Known := fun p _ => p.isOperator "=" = false

/-- Both an operand and an operator may follow. -/
def Free : Known := fun p rest => Opens p rest ∧ Ends p rest

theorem opens_of_kind (h : l.kind ≠ .name) : Opens l rest := by
  simp [Opens, Lexeme.isPlainName, h]

theorem ends_of_kind (h : l.kind ≠ .operator) : Ends l rest := by
  simp [Ends, Lexeme.isOperator, h]

theorem fits_of_kind (h : l.kind ≠ .operator) : p.Fits l := by
  simp [Lexeme.Fits, Lexeme.isOperator, Lexeme.isGreater, h]

theorem fits_of_isOperator {s : String} (hs : ["\x7b", ">", ">=", ">>", ">>="].contains s = false)
    (h : l.isOperator s = true) : p.Fits l := by
  simp only [Lexeme.isOperator, Bool.and_eq_true, beq_iff_eq] at h
  simp only [List.contains_cons, List.contains_nil, Bool.or_false, Bool.or_eq_false_iff, beq_eq_false_iff_ne] at hs
  simp [Lexeme.Fits, Lexeme.isOperator, Lexeme.isGreater, h, hs]

theorem opens_of_isOperator {s : String} (h : l.isOperator s = true) :
    Opens l rest := by
  simp only [Lexeme.isOperator, Bool.and_eq_true, beq_iff_eq] at h
  exact opens_of_kind (by simp [h])

theorem ends_of_isOperator {s : String} (hs : (s == "=") = false) (h : l.isOperator s = true) : Ends l rest := by
  simp only [Lexeme.isOperator, Bool.and_eq_true, beq_iff_eq] at h
  simpa [Ends, Lexeme.isOperator, h] using hs

/-- After a sign an operand may follow. -/
theorem flows_sign {s : String} (hs : ["\x7b", ">", ">=", ">>", ">>="].contains s = false) :
    Flows P Opens (sign s) :=
  flows_accept (fun _ _ _ _ => fits_of_isOperator hs) fun _ _ => opens_of_isOperator

/-- A sign other than `=` leaves everything open. -/
theorem flows_signFree {s : String} (hs : ["=", "\x7b", ">", ">=", ">>", ">>="].contains s = false) :
    Flows P Free (sign s) := by
  rw [List.contains_cons, Bool.or_eq_false_iff] at hs
  exact flows_accept (fun _ _ _ _ => fits_of_isOperator hs.2) fun _ _ hl =>
    ⟨opens_of_isOperator hl, ends_of_isOperator hs.1 hl⟩

/-- A sign that ends an operand. -/
theorem flows_signEnds {s : String} (hs : ["=", "\x7b", ">", ">=", ">>", ">>="].contains s = false) :
    Flows P Ends (sign s) := (flows_signFree hs).weaken (fun _ _ => id) fun _ _ => And.right

/-- An opening brace stands where an operand may stand. -/
theorem flows_brace : Flows Opens Free (sign "\x7b") :=
  flows_accept
    (fun p l _ hp hl => ⟨fun h => Bool.false_ne_true (hp.symm.trans h.1), fun h => by
      simp only [Lexeme.isOperator, Bool.and_eq_true, beq_iff_eq] at hl
      simp [Lexeme.isGreater, hl] at h⟩)
    fun _ _ hl => ⟨opens_of_isOperator hl, ends_of_isOperator (by decide) hl⟩

/-- After a reserved word anything may follow. -/
theorem flows_word (hw : (Text.isKeyword w || w == "match" || w == "case") = true) :
    Flows P Free (word w) := by
  refine flows_accept (fun _ l _ _ hl => ?_) fun l _ hl => ?_ <;>
    simp only [Lexeme.isWord, Bool.and_eq_true, beq_iff_eq] at hl
  · exact fits_of_kind (by simp [hl])
  · refine ⟨?_, ends_of_kind (by simp [hl])⟩
    simp only [Opens, Lexeme.isPlainName, hl, Bool.and_eq_false_iff]
    simp only [Bool.or_eq_true, beq_iff_eq] at hw
    rcases hw with (hw | rfl) | rfl
    · simp [hw]
    · simp
    · simp

/-- A word that ends an operand. -/
theorem flows_wordEnds : Flows P Ends (word w) := by
  refine flows_accept (fun _ l _ _ hl => ?_) fun l _ hl => ?_ <;>
    simp only [Lexeme.isWord, Bool.and_eq_true, beq_iff_eq] at hl
  · exact fits_of_kind (by simp [hl])
  · exact ends_of_kind (by simp [hl])

/-- A name ends an operand. -/
theorem flows_acceptName (h : ∀ l, φ l = true → l.kind = .name) :
    Flows P Ends (accept φ) :=
  flows_accept (fun _ l _ _ hl => fits_of_kind (by simp [h l hl])) fun l _ hl => ends_of_kind (by simp [h l hl])

/-- A lexeme that is neither a name nor an operator leaves everything open. -/
theorem flows_acceptOther (h : ∀ l, φ l = true → l.kind ≠ .name ∧ l.kind ≠ .operator) :
    Flows P Free (accept φ) :=
  flows_accept (fun _ l _ _ hl => fits_of_kind (h l hl).2) fun l _ hl =>
    ⟨opens_of_kind (h l hl).1, ends_of_kind (h l hl).2⟩

theorem flows_kind {k : LexemeKind} (hk : k ≠ .name ∧ k ≠ .operator) : Flows P Free (kind k) :=
  flows_acceptOther fun l hl => by
    rw [beq_iff_eq] at hl
    rwa [hl]

/-- Any lexeme, where it was seen which one comes next. -/
theorem flows_seen (hfits : ∀ p l rest, P p (l :: rest) → φ l = true → p.Fits l)
    (hQ : ∀ l rest, φ l = true → Q l rest) : Flows (Before φ P) Q (accept fun _ => true) := by
  intro c u c' hrun p hp
  obtain ⟨l, rest, hrest, -, rfl⟩ := accept_run hrun
  rw [hrest] at hp ⊢
  obtain ⟨hp, hl⟩ := before_cons hp
  exact ⟨[l], l, rfl, .cons (hfits p l rest hp hl) (.nil l), hQ l rest hl⟩

/-- The lexeme is one of the operators. -/
abbrev isAmong (ss : List String) (l : Lexeme) : Bool := l.kind == .operator && ss.contains l.text

theorem not_isOperator_of_isAmong {s : String} (hs : ss.contains s = false) (hl : isAmong ss l = true) :
    l.isOperator s = false := by
  simp only [isAmong, Bool.and_eq_true] at hl
  simp only [Lexeme.isOperator, Bool.and_eq_false_iff, beq_eq_false_iff_ne]
  refine .inr fun heq => ?_
  rw [heq, hs] at hl
  exact Bool.false_ne_true hl.2

theorem free_of_isAmong (hss : ss.contains "=" = false) (hl : isAmong ss l = true) : Free l rest := by
  refine ⟨?_, not_isOperator_of_isAmong hss hl⟩
  simp only [isAmong, Bool.and_eq_true, beq_iff_eq] at hl
  exact opens_of_kind (by simp [hl.1])

/-- A sign before an operand. -/
theorem flows_seenSign (hss : ss.contains "=" = false)
    (hall : (ss.all fun s => !(["\x7b", ">", ">=", ">>", ">>="].contains s)) = true) :
    Flows (Before (isAmong ss) P) Free (accept fun _ => true) := by
  refine flows_seen (fun p l _ _ hl => ?_) fun l _ => free_of_isAmong hss
  simp only [isAmong, Bool.and_eq_true, beq_iff_eq, List.contains_iff_mem] at hl
  have hs : ["\x7b", ">", ">=", ">>", ">>="].contains l.text = false := by
    simpa using List.all_eq_true.1 hall l.text hl.2
  exact fits_of_isOperator hs (by simp [Lexeme.isOperator, hl.1])

/-- An operator between operands. -/
theorem flows_seenOperator (hss : ss.contains "=" = false) (hbrace : ss.contains "\x7b" = false) :
    Flows (Before (isAmong ss) Ends) Free (accept fun _ => true) :=
  flows_seen (fun _ _ _ hp hl =>
      ⟨fun h => Bool.false_ne_true ((not_isOperator_of_isAmong hbrace hl).symm.trans h.2),
        fun h => Bool.false_ne_true (hp.symm.trans h.1)⟩)
    fun _ _ => free_of_isAmong hss

/-- The rule reads an operand: it begins where one may stand and leaves what an operator may follow. -/
abbrev ReadsOperand (r : Rule α) : Prop := Flows Opens Ends r

/-- After what is free an operand need not come. -/
theorem Flows.optional {r : Rule Unit} (h : ReadsOperand r) : Flows Free Ends (Rule.attempt r) :=
  (h.weaken (fun _ _ => And.left) fun _ _ => id).attempt fun _ _ => And.right

theorem Flows.fromFree (h : Flows Opens Q r) : Flows Free Q r := h.weaken (fun _ _ => And.left) fun _ _ => id

theorem Flows.toOpens (h : Flows P Free r) : Flows P Opens r := h.weaken (fun _ _ => id) fun _ _ => And.left

theorem Flows.toEnds (h : Flows P Free r) : Flows P Ends r := h.weaken (fun _ _ => id) fun _ _ => And.right

theorem Flows.more {item : Rule Unit} (h : ReadsOperand item) : Flows Ends Ends (Rule.many (do sign ","; item)) :=
  ((flows_sign (by decide)).bind fun _ => h).many

theorem flows_comma : Flows Ends Ends (Rule.attempt (sign ",")) := (flows_signEnds (by decide)).attempt fun _ _ => id

/-- Operands with commas between and perhaps after them. -/
theorem Flows.commas {item : Rule Unit} (h : ReadsOperand item) : ReadsOperand (commas item) :=
  h.bind fun _ => h.more.bind fun _ => flows_comma

theorem Flows.tupled {k : Kind} {item : Rule Unit} (h : ReadsOperand item) :
    ReadsOperand (tupled k item) :=
  (h.commas.bind fun _ => flows_look fun _ => flows_pure).nodeWhen

end Flows

end Rule

end DoBlocks.Host
