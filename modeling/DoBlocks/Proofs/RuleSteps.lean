import DoBlocks.Host.Rule

/-!
# What rules of the grammar build

Inversion lemmas for the rules, and three judgements about what is built: a rule `Stays` if it only looks
ahead, it `Adds` one tree to those built before, or it `Keeps` one tree where there was one.
-/

namespace DoBlocks.Host.Rule

variable {α β : Type} {c c' : Cursor} {r s : Rule α} {f : α → Rule β} {a : α} {u : Unit} {flag : Bool}
variable {p : Lexeme → Bool} {ts : List Tree} {t : Tree} {k : Kind} {g : Bool → Rule β} {l : Lexeme}
  {rest : List Lexeme} {c₁ : Cursor}

/-! ### Inversion -/

theorem pure_run_iff {b : α} : (pure b : Rule α).run c = some (a, c') ↔ a = b ∧ c' = c := by
  show some (b, c) = some (a, c') ↔ _
  simp [eq_comm]

theorem bind_run_eq : (r >>= f).run c = (r.run c).bind fun p => (f p.1).run p.2 := by
  show (andThen r f).run c = _
  unfold andThen
  dsimp only
  cases r.run c <;> rfl

theorem bind_run_iff {b : β} :
    (r >>= f).run c = some (b, c') ↔ ∃ a c₁, r.run c = some (a, c₁) ∧ (f a).run c₁ = some (b, c') := by
  rw [bind_run_eq, Option.bind_eq_some_iff, Prod.exists]

theorem orElse_run_eq : (r <|> s).run c = (r.run c).or (s.run c) := by
  show (orTry r fun _ => s).run c = _
  unfold orTry
  dsimp only
  cases r.run c <;> rfl

theorem orElse_run (h : (r <|> s).run c = some (a, c')) :
    r.run c = some (a, c') ∨ s.run c = some (a, c') := by
  rw [orElse_run_eq, Option.or_eq_some_iff] at h
  exact h.imp_right And.right

theorem failure_run (h : (failure : Rule α).run c = some (a, c')) : False := by cases h

theorem accept_run (h : (accept p).run c = some (u, c')) :
    ∃ l rest, c.rest = l :: rest ∧ p l = true ∧ c' = ⟨rest, .leaf l :: c.built⟩ := by
  unfold accept at h
  dsimp only at h
  split at h
  · rename_i l rest hrest
    split at h
    · rename_i hp
      cases h
      exact ⟨l, rest, hrest, hp, rfl⟩
    · cases h
  · cases h

theorem check_run_iff : (check flag).run c = some (u, c') ↔ flag = true ∧ c' = c := by
  unfold check
  cases flag
  · exact ⟨nofun, nofun⟩
  · rw [if_pos rfl, pure_run_iff]
    simp

theorem built_run_iff : built.run c = some (ts, c') ↔ ts = c.built ∧ c' = c := by
  show some (c.built, c) = some (ts, c') ↔ _
  simp [eq_comm]

theorem latest_run (h : latest.run c = some (t, c')) : c.built.head? = some t ∧ c' = c := by
  obtain ⟨t', ht, heq⟩ := Option.map_eq_some_iff.1 h
  cases heq
  exact ⟨ht, rfl⟩

/-- What was built goes under a node, or it stays as it is. -/
theorem nodeIf_run {r : Rule (Option Kind)} (h : (nodeIf r).run c = some (u, c')) :
    ∃ k? c₁, r.run ⟨c.rest, []⟩ = some (k?, c₁) ∧
      match k? with
      | some k => c₁.built ≠ [] ∧ c' = ⟨c₁.rest, .node k c₁.built.reverse :: c.built⟩
      | none => c' = ⟨c₁.rest, c₁.built ++ c.built⟩ := by
  unfold nodeIf at h
  dsimp only at h
  split at h
  · rename_i k c₁ hr
    unfold Cursor.close at h
    split at h
    · cases h
    · rename_i hne
      cases h
      exact ⟨some k, c₁, hr, by simpa [List.isEmpty_iff] using hne, rfl⟩
  · rename_i c₁ hr
    cases h
    exact ⟨none, c₁, hr, rfl⟩
  · cases h

theorem nodeAs_run {r : Rule Kind} (h : (nodeAs r).run c = some (u, c')) :
    ∃ k c₁, r.run ⟨c.rest, []⟩ = some (k, c₁) ∧ c₁.built ≠ [] ∧
      c' = ⟨c₁.rest, .node k c₁.built.reverse :: c.built⟩ := by
  obtain ⟨k?, c₁, hr, hnode⟩ := nodeIf_run h
  obtain ⟨k, c₂, hr, hk⟩ := bind_run_iff.1 hr
  obtain ⟨rfl, rfl⟩ := pure_run_iff.1 hk
  exact ⟨k, c₁, hr, hnode⟩

theorem node_run {r : Rule Unit} (h : (node k r).run c = some (u, c')) :
    ∃ c₁, r.run ⟨c.rest, []⟩ = some ((), c₁) ∧ c₁.built ≠ [] ∧
      c' = ⟨c₁.rest, .node k c₁.built.reverse :: c.built⟩ := by
  obtain ⟨k?, c₁, hr, hnode⟩ := nodeIf_run h
  obtain ⟨u, c₂, hr, hk⟩ := bind_run_iff.1 hr
  obtain ⟨rfl, rfl⟩ := pure_run_iff.1 hk
  exact ⟨c₁, hr, hnode⟩

theorem nodeWhen_run {r : Rule Bool} (h : (nodeWhen k r).run c = some (u, c')) :
    ∃ flag c₁, r.run ⟨c.rest, []⟩ = some (flag, c₁) ∧
      c'.built = if flag then .node k c₁.built.reverse :: c.built else c₁.built ++ c.built := by
  obtain ⟨k?, c₁, hr, hnode⟩ := nodeIf_run h
  obtain ⟨flag, c₂, hr, hk⟩ := bind_run_iff.1 hr
  obtain ⟨rfl, rfl⟩ := pure_run_iff.1 hk
  refine ⟨flag, c₁, hr, ?_⟩
  cases flag with
  | true => exact hnode.2 ▸ rfl
  | false => exact hnode ▸ rfl

theorem wrap_run {r : Rule Unit} (h : (wrap k r).run c = some (u, c')) :
    ∃ t before c₁, c.built = t :: before ∧ r.run ⟨c.rest, [t]⟩ = some ((), c₁) ∧
      c' = ⟨c₁.rest, .node k c₁.built.reverse :: before⟩ := by
  unfold wrap at h
  dsimp only at h
  split at h
  · rename_i t before hbuilt
    split at h
    · rename_i c₁ hr
      unfold Cursor.close at h
      split at h
      · cases h
      · cases h
        exact ⟨t, before, c₁, hbuilt, hr, rfl⟩
    · cases h
  · cases h

theorem attempt_run {r : Rule Unit} (h : (attempt r).run c = some (flag, c')) :
    if flag then r.run c = some ((), c') else c' = c := by
  rcases orElse_run h with h | h
  · obtain ⟨u, c₁, hr, hp⟩ := bind_run_iff.1 h
    obtain ⟨rfl, rfl⟩ := pure_run_iff.1 hp
    exact hr
  · obtain ⟨rfl, rfl⟩ := pure_run_iff.1 h
    exact rfl

/-- What one round keeps, all rounds keep. -/
theorem many_run {r : Rule Unit} {P : List Tree → Prop} (h : (many r).run c = some (u, c'))
    (hr : ∀ {c c'}, P c.built → r.run c = some ((), c') → P c'.built) (hc : P c.built) : P c'.built := by
  obtain rfl : c' = repeated r c := by cases h; rfl
  clear h
  fun_induction repeated r c with
  | case1 c => exact hc
  | case2 c c' hrun _ ih => exact ih (hr hc hrun)
  | case3 c c' hrun => exact hr hc hrun

/-- Looking at the next lexeme takes nothing. -/
@[simp] theorem next_bind_run : (next p >>= g).run ⟨l :: rest, ts⟩ = (g (p l)).run ⟨l :: rest, ts⟩ := rfl

@[simp] theorem atSign_bind_run {sign : String} :
    (atSign sign >>= g).run ⟨l :: rest, ts⟩ = (g (l.isOperator sign)).run ⟨l :: rest, ts⟩ := rfl

@[simp] theorem atWord_bind_run {word : String} :
    (atWord word >>= g).run ⟨l :: rest, ts⟩ = (g (l.isWord word)).run ⟨l :: rest, ts⟩ := rfl

/-! ### Running rules -/

theorem bind_run_some (h : r.run c = some (a, c₁)) : (r >>= f).run c = (f a).run c₁ := by
  rw [bind_run_eq, h, Option.bind_some]

theorem bind_run_none (h : r.run c = none) : (r >>= f).run c = none := by
  rw [bind_run_eq, h, Option.bind_none]

theorem orElse_run_none (h : r.run c = none) : (r <|> s).run c = s.run c := by
  rw [orElse_run_eq, h, Option.none_or]

theorem many_run_none {r : Rule Unit} (h : r.run c = none) : (many r).run c = some ((), c) := by
  show some ((), repeated r c) = _
  rw [repeated, h]

theorem accept_run_none (h : p l = false) : (accept p).run ⟨l :: rest, ts⟩ = none := by
  simp [accept, h]

theorem accept_run_some (h : p l = true) : (accept p).run ⟨l :: rest, ts⟩ = some ((), ⟨rest, .leaf l :: ts⟩) := by
  simp [accept, h]

theorem node_run_some {r : Rule Unit} {rest' : List Lexeme} {us : List Tree}
    (h : r.run ⟨rest, []⟩ = some ((), ⟨rest', t :: us⟩)) :
    (node k r).run ⟨rest, ts⟩ = some ((), ⟨rest', .node k (t :: us).reverse :: ts⟩) := by
  unfold node nodeIf
  dsimp only
  rw [bind_run_some h]
  rfl

theorem node_run_none {r : Rule Unit} (h : r.run ⟨rest, []⟩ = none) : (node k r).run ⟨rest, ts⟩ = none := by
  unfold node nodeIf
  dsimp only
  rw [bind_run_none h]

theorem nodeWhen_run_false {r : Rule Bool} (h : r.run ⟨rest, []⟩ = some (false, c₁)) :
    (nodeWhen k r).run ⟨rest, ts⟩ = some ((), ⟨c₁.rest, c₁.built ++ ts⟩) := by
  unfold nodeWhen nodeIf
  dsimp only
  rw [bind_run_some h]
  rfl

/-! ### Judgements -/

/-- What the rule returns satisfies `Q`. -/
def Returns (Q : α → Prop) (r : Rule α) : Prop := ∀ ⦃c a c'⦄, r.run c = some (a, c') → Q a

theorem returns_pure {Q : α → Prop} (h : Q a) : Returns Q (pure a) :=
  fun _ _ _ hrun => (pure_run_iff.1 hrun).1 ▸ h

theorem returns_bind {Q : β → Prop} (h : ∀ a, Returns Q (f a)) : Returns Q (r >>= f) := by
  intro c b c' hrun
  obtain ⟨a, c₁, -, hf⟩ := bind_run_iff.1 hrun
  exact h a hf

theorem Returns.ite {Q : α → Prop} {flag : Prop} [Decidable flag] (h : Returns Q r) (h' : Returns Q s) :
    Returns Q (if flag then r else s) := by
  split
  · exact h
  · exact h'

/-- The rule only looks ahead. -/
def Stays (r : Rule α) : Prop := ∀ ⦃c a c'⦄, r.run c = some (a, c') → c' = c

theorem stays_look {g : Cursor → Option α} : Stays (look g) := by
  intro c a c' h
  obtain ⟨b, -, heq⟩ := Option.map_eq_some_iff.1 h
  cases heq
  rfl

theorem stays_check {flag : Bool} : Stays (check flag) := fun _ _ _ h => (check_run_iff.1 h).2

theorem stays_pure {a : α} : Stays (pure a : Rule α) := fun _ _ _ h => (pure_run_iff.1 h).2

/-- The rule adds one tree, of which `P` holds. -/
def Adds (P : Tree → Prop) (r : Rule α) : Prop :=
  ∀ ⦃c a c'⦄, r.run c = some (a, c') → ∃ t, P t ∧ c'.built = t :: c.built

/-- Where a tree of which `P` holds was built last, the rule leaves one. -/
def Keeps (P : Tree → Prop) (r : Rule α) : Prop :=
  ∀ ⦃c a c' t before⦄, r.run c = some (a, c') → P t → c.built = t :: before →
    ∃ t', P t' ∧ c'.built = t' :: before

variable {P : Tree → Prop}

theorem Stays.keeps (h : Stays r) : Keeps P r := by
  intro c a c' t before hr ht hbuilt
  obtain rfl := h hr
  exact ⟨t, ht, hbuilt⟩

theorem Keeps.bind (h : Keeps P r) (h' : ∀ a, Keeps P (f a)) : Keeps P (r >>= f) := by
  intro c b c' t before hrun ht hbuilt
  obtain ⟨a, c₁, hr, hf⟩ := bind_run_iff.1 hrun
  obtain ⟨t', ht', hbuilt'⟩ := h hr ht hbuilt
  exact h' a hf ht' hbuilt'

theorem Keeps.ite {flag : Prop} [Decidable flag] (h : Keeps P r) (h' : Keeps P s) :
    Keeps P (if flag then r else s) := by
  split
  · exact h
  · exact h'

theorem keeps_failure : Keeps P (failure : Rule α) := fun _ _ _ _ _ h => (failure_run h).elim

theorem keeps_wrap {r : Rule Unit} (h : ∀ ts, P (.node k ts)) : Keeps P (wrap k r) := by
  intro c u c' t before hrun ht hbuilt
  obtain ⟨t', before', c₁, hbuilt', -, rfl⟩ := wrap_run hrun
  obtain ⟨rfl, rfl⟩ := List.cons.inj (hbuilt.symm.trans hbuilt')
  exact ⟨_, h _, rfl⟩

theorem Keeps.attempt {r : Rule Unit} (h : Keeps P r) : Keeps P (attempt r) := by
  intro c flag c' t before hrun ht hbuilt
  have hrun := attempt_run hrun
  cases flag with
  | true => exact h hrun ht hbuilt
  | false =>
    obtain rfl : c' = c := hrun
    exact ⟨t, ht, hbuilt⟩

theorem Keeps.many {r : Rule Unit} (h : Keeps P r) : Keeps P (many r) := by
  intro c u c' t before hrun ht hbuilt
  refine many_run (P := fun b => ∃ t', P t' ∧ b = t' :: before) hrun ?_ ⟨t, ht, hbuilt⟩
  rintro c c' ⟨t', ht', hbuilt'⟩ hr
  exact h hr ht' hbuilt'

theorem Stays.adds (h : Stays r) (h' : ∀ a, Adds P (f a)) : Adds P (r >>= f) := by
  intro c b c' hrun
  obtain ⟨a, c₁, hr, hf⟩ := bind_run_iff.1 hrun
  obtain rfl := h hr
  exact h' a hf

theorem Adds.keeps (h : Adds P r) (h' : ∀ a, Keeps P (f a)) : Adds P (r >>= f) := by
  intro c b c' hrun
  obtain ⟨a, c₁, hr, hf⟩ := bind_run_iff.1 hrun
  obtain ⟨t, ht, hbuilt⟩ := h hr
  exact h' a hf ht hbuilt

theorem Adds.mono {Q : Tree → Prop} (h : Adds P r) (h' : ∀ t, P t → Q t) : Adds Q r := by
  intro c a c' hrun
  obtain ⟨t, ht, hbuilt⟩ := h hrun
  exact ⟨t, h' t ht, hbuilt⟩

theorem Adds.ite {flag : Prop} [Decidable flag] (h : Adds P r) (h' : Adds P s) :
    Adds P (if flag then r else s) := by
  split
  · exact h
  · exact h'

theorem Adds.orElse (h : Adds P r) (h' : Adds P s) : Adds P (r <|> s) := by
  intro c a c' hrun
  rcases orElse_run hrun with hr | hs
  · exact h hr
  · exact h' hs

theorem Adds.attemptElse {r s : Rule Unit} (h : Adds P r) (h' : Adds P s) :
    Adds P (do if ← Rule.attempt r then return else s) := by
  intro c u c' hrun
  obtain ⟨flag, c₁, hattempt, hrest⟩ := bind_run_iff.1 hrun
  replace hattempt := attempt_run hattempt
  cases flag with
  | true =>
    obtain ⟨-, rfl⟩ := pure_run_iff.1 hrest
    exact h hattempt
  | false =>
    obtain rfl : c₁ = c := hattempt
    exact h' hrest

theorem adds_node {r : Rule Unit} (h : ∀ ts, P (.node k ts)) : Adds P (node k r) := by
  intro c u c' hrun
  obtain ⟨c₁, -, -, rfl⟩ := node_run hrun
  exact ⟨_, h _, rfl⟩

theorem adds_nodeAs {r : Rule Kind} (h : ∀ k ts, P (.node k ts)) : Adds P (nodeAs r) := by
  intro c u c' hrun
  obtain ⟨k, c₁, -, -, rfl⟩ := nodeAs_run hrun
  exact ⟨_, h k _, rfl⟩

/-- The rule leaves the trees built before it as they are. -/
def Extends (r : Rule α) : Prop := ∀ ⦃c a c'⦄, r.run c = some (a, c') → c.built <:+ c'.built

theorem Adds.extends (h : Adds P r) : Extends r := by
  intro c a c' hrun
  obtain ⟨t, -, hbuilt⟩ := h hrun
  exact ⟨[t], hbuilt.symm⟩

theorem extends_accept : Extends (accept p) := by
  intro c a c' hrun
  obtain ⟨l, rest, -, -, rfl⟩ := accept_run hrun
  exact ⟨[.leaf l], rfl⟩

theorem Stays.extends (h : Stays r) : Extends r := fun _ _ _ hrun => h hrun ▸ List.suffix_rfl

theorem Extends.ite {flag : Prop} [Decidable flag] (h : Extends r) (h' : Extends s) :
    Extends (if flag then r else s) := by
  split
  · exact h
  · exact h'

theorem Extends.bind (h : Extends r) (h' : ∀ a, Extends (f a)) : Extends (r >>= f) := by
  intro c b c' hrun
  obtain ⟨a, c₁, hr, hf⟩ := bind_run_iff.1 hrun
  exact (h hr).trans (h' a hf)

theorem Extends.attempt {r : Rule Unit} (h : Extends r) : Extends (attempt r) := by
  intro c flag c' hrun
  have hrun := attempt_run hrun
  cases flag with
  | true => exact h hrun
  | false =>
    obtain rfl : c' = c := hrun
    exact List.suffix_rfl

theorem Extends.many {r : Rule Unit} (h : Extends r) : Extends (many r) := by
  intro c u c' hrun
  exact many_run (P := fun b => c.built <:+ b) hrun (fun hb hr => hb.trans (h hr)) List.suffix_rfl

theorem eq_singleton_of_suffix (h : [t] <:+ ts) (hle : ¬1 < ts.length) :
    ts = [t] := by
  have hlength := h.length_le
  exact (h.eq_of_length (by simp only [List.length_singleton] at hlength ⊢; omega)).symm

/-- A rule that builds a single tree unless it asks for a node adds one tree in any case. -/
theorem adds_nodeWhen {r : Rule Bool} (hk : ∀ ts, P (.node k ts))
    (h : ∀ {c flag c'}, c.built = [] → r.run c = some (flag, c') →
      flag = true ∨ ∃ t, P t ∧ c'.built = [t]) : Adds P (nodeWhen k r) := by
  intro c u c' hrun
  obtain ⟨flag, c₁, hr, hbuilt⟩ := nodeWhen_run hrun
  rcases h rfl hr with rfl | ⟨t, ht, hone⟩
  · exact ⟨_, hk _, hbuilt⟩
  · cases flag with
    | true => exact ⟨_, hk _, hbuilt⟩
    | false =>
      refine ⟨t, ht, ?_⟩
      rw [hbuilt, hone]
      rfl

/-- One or more trees under a node, or one tree alone. -/
theorem Adds.several {first more : Rule Unit} (h : Adds P first) (hk : ∀ ts, P (.node k ts)) (hmore : Extends more) :
    Adds P (nodeWhen k (do
      first
      more
      return decide (1 < (← built).length))) := by
  refine adds_nodeWhen hk fun {c flag c'} hc hrun => ?_
  obtain ⟨_, c₁, hfirst, hrun⟩ := bind_run_iff.1 hrun
  obtain ⟨_, c₂, hrest, hrun⟩ := bind_run_iff.1 hrun
  obtain ⟨ts, c₃, hbuilt, hrun⟩ := bind_run_iff.1 hrun
  obtain ⟨rfl, rfl⟩ := built_run_iff.1 hbuilt
  obtain ⟨rfl, rfl⟩ := pure_run_iff.1 hrun
  obtain ⟨t, ht, hone⟩ := h hfirst
  by_cases hlength : 1 < c'.built.length
  · exact .inl (decide_eq_true hlength)
  · refine .inr ⟨t, ht, eq_singleton_of_suffix ?_ hlength⟩
    rw [← hc, ← hone]
    exact hmore hrest

theorem Adds.tupled {k : Kind} {item : Rule Unit} (h : Adds P item) (hk : ∀ ts, P (.node k ts)) :
    Adds P (tupled k item) := by
  refine adds_nodeWhen hk fun {c flag c'} hc hrun => ?_
  obtain ⟨trailing, c₁, hcommas, hrun⟩ := bind_run_iff.1 hrun
  obtain ⟨ts, c₂, hbuilt, hrun⟩ := bind_run_iff.1 hrun
  obtain ⟨rfl, rfl⟩ := built_run_iff.1 hbuilt
  obtain ⟨rfl, rfl⟩ := pure_run_iff.1 hrun
  obtain ⟨_, c₁, hitem, hrest⟩ := bind_run_iff.1 hcommas
  obtain ⟨t, ht, hone⟩ := h hitem
  by_cases hlength : 1 < c'.built.length
  · exact .inl (by simp [hlength])
  · refine .inr ⟨t, ht, eq_singleton_of_suffix ?_ hlength⟩
    have hmore : Extends (do many (do sign ","; item); attempt (sign ",")) :=
      (extends_accept.bind fun _ => h.extends).many.bind fun _ => extends_accept.attempt
    rw [← hc, ← hone]
    exact hmore hrest

end DoBlocks.Host.Rule
