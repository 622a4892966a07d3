import Mathlib.Logic.Equiv.Basic
import DoBlocks.Proofs.Renaming

/-!
# Names of two runs that correspond

Two runs of lowering draw different names. `Counterparts` lists which name of one stands for which name of
the other; `Aligned` says that two states are at the same place up to these names. A list of counterparts
in which no name stands twice is part of a bijection.
-/

namespace DoBlocks

/-! ### Names that can be written -/

theorem Text.isIdentifier_append {s t : String} (cs : List Char) (hs : isIdentifier s = true)
    (ht : t.toList = s.toList ++ cs) (hcs : ∀ c ∈ cs, isIdentifierPart c = true) : isIdentifier t = true := by
  unfold isIdentifier at hs ⊢
  cases hlist : s.toList with
  | nil =>
    rw [hlist] at hs
    cases hs
  | cons c rest =>
    rw [hlist] at hs ht
    rw [ht]
    simp only [List.cons_append, List.all_append, Bool.and_eq_true, List.all_eq_true] at hs ⊢
    exact ⟨hs.1, hs.2, hcs⟩

theorem Text.isIdentifierPart_of_isDigit {c : Char} (h : c.isDigit = true) : isIdentifierPart c = true := by
  have hle : c.toNat < 128 := by
    simp only [Char.isDigit, Bool.and_eq_true, decide_eq_true_eq] at h
    have : c.val.toNat ≤ 57 := h.2
    change c.val.toNat < 128
    omega
  simp [isIdentifierPart, hle, Char.isAlphanum, h]

/-- A name with a good stem, a good role and a number from zero on can be written. -/
theorem HiddenName.isValid_of_parts {n : HiddenName} (hstem : Text.isIdentifier n.stem = true)
    (hrole : n.role.toList.all Text.isIdentifierPart = true) (hindex : 0 ≤ n.index) : n.isValid = true := by
  refine Text.isIdentifier_append ('_' :: n.role.toList ++ '_' :: (toString n.index).toList) hstem ?_ ?_
  · rw [toList_render]
    simp
  · intro c hc
    rw [toList_toString_int, if_pos hindex] at hc
    simp only [List.cons_append, List.mem_cons, List.mem_append] at hc
    rcases hc with rfl | hc | rfl | hc
    · decide
    · exact List.all_eq_true.1 hrole c hc
    · decide
    · exact Text.isIdentifierPart_of_isDigit (Nat.isDigit_of_mem_toDigits (by decide) (by decide) hc)

/-- Names with the same stem and number but different roles are written differently. -/
theorem HiddenName.role_eq_of_render_eq {stem role role' : String} {i : Int}
    (h : (HiddenName.mk stem role i).render = (HiddenName.mk stem role' i).render) : role = role' := by
  have h := congrArg String.toList h
  simp only [toList_render, List.append_assoc, List.cons_append, List.append_cancel_left_eq,
    List.cons.injEq, true_and, List.append_cancel_right_eq] at h
  exact String.toList_inj.1 h

theorem Allocator.le_firstFree (a : Allocator) (roles : List String) (fuel : Nat) (i : Int) :
    i ≤ a.firstFree roles fuel i := by
  induction fuel generalizing i with
  | zero => exact Int.le_refl i
  | succ fuel ih =>
    rw [firstFree]
    split
    · exact Int.le_refl i
    · have := ih (i + 1)
      omega

namespace Lowering

variable {R R' : Counterparts} {ns : List HiddenName} {st : State}

/-! ### Counterparts -/

/-- Generated names of one run, each with the name that another run has in its place. -/
abbrev Counterparts := List (HiddenName × HiddenName)

namespace Counterparts

/-- The renaming takes each name to its counterpart. -/
def Within (R : Counterparts) (ρ : HiddenName → HiddenName) : Prop := ∀ p ∈ R, ρ p.1 = p.2

theorem Within.mono {R R' : Counterparts} {ρ : HiddenName → HiddenName} (h : R'.Within ρ) (hR : R ⊆ R') :
    R.Within ρ := fun p hp => h p (hR hp)

/-- Where no name stands twice on either side, the counterparts are part of a bijection. -/
theorem exists_perm {R : Counterparts} (h : (R.map Prod.fst).Nodup) (h' : (R.map Prod.snd).Nodup) :
    ∃ ρ : Equiv.Perm HiddenName, R.Within ρ := by
  induction R with
  | nil => exact ⟨Equiv.refl _, fun p hp => nomatch hp⟩
  | cons p R ih =>
    simp only [List.map_cons, List.nodup_cons] at h h'
    obtain ⟨ρ, hρ⟩ := ih h.2 h'.2
    refine ⟨ρ.trans (Equiv.swap (ρ p.1) p.2), ?_⟩
    intro q hq
    rcases List.mem_cons.1 hq with rfl | hq
    · exact Equiv.swap_apply_left _ _
    · have hfst : q.1 ≠ p.1 := fun heq => h.1 (heq ▸ List.mem_map_of_mem hq)
      have hsnd : q.2 ≠ p.2 := fun heq => h'.1 (heq ▸ List.mem_map_of_mem hq)
      show Equiv.swap (ρ p.1) p.2 (ρ q.1) = q.2
      rw [← hρ q hq] at hsnd ⊢
      exact Equiv.swap_apply_of_ne_of_ne (fun heq => hfst (ρ.injective heq)) hsnd

end Counterparts

/-- `x'` is `x` with each generated name replaced by its counterpart. -/
def Alike {α : Type} [Renamable α] (R : Counterparts) (x x' : α) : Prop := ∀ ρ, R.Within ρ → x' = rename ρ x

theorem Alike.mono {α : Type} [Renamable α] {x x' : α} (h : Alike R x x') (hR : R ⊆ R') :
    Alike R' x x' := fun ρ hρ => h ρ (hρ.mono hR)

/-- The names `ns` are in use and written in different ways; they and all names to come can be written. -/
structure Drawn (ns : List HiddenName) (st : State) : Prop where
  stem : Text.isIdentifier st.names.stem = true
  next : 0 ≤ st.names.next
  nodup : (ns.map HiddenName.render).Nodup
  reserved : ∀ n ∈ ns, n.render ∈ st.names.reserved
  valid : ∀ n ∈ ns, n.isValid = true
  callee : ∀ c ∈ st.callee, c.isValid = true ∧ c.role = "assert_never" ∧ c.render ∈ st.names.reserved

theorem Drawn.congr {t : State} (h : Drawn ns st) (hn : t.names = st.names) (hc : t.callee = st.callee) : Drawn ns t :=
  ⟨hn ▸ h.stem, hn ▸ h.next, h.nodup, hn ▸ h.reserved, h.valid, hn ▸ hc ▸ h.callee⟩

/-- A draw for some roles adds a name for each of them. -/
theorem Drawn.draw (h : Drawn ns st) (roles : List String) (hroles : roles.Nodup)
    (hparts : ∀ r ∈ roles, r.toList.all Text.isIdentifierPart = true) :
    Drawn (roles.map (fun r => st.names.name r (st.names.draw roles).1) ++ ns)
      { st with names := (st.names.draw roles).2 } := by
  have hindex : 0 ≤ (st.names.draw roles).1 :=
    Int.le_trans h.next (st.names.le_firstFree roles st.names.reserved.length st.names.next)
  have hfree := Allocator.isFree_iff.1 (st.names.isFree_draw roles)
  constructor
  · exact h.stem
  · show 0 ≤ (st.names.draw roles).1 + 1
    omega
  · rw [List.map_append, List.map_map]
    refine List.Nodup.append (hroles.map_on ?_) h.nodup ?_
    · intro r _ r' _ heq
      exact HiddenName.role_eq_of_render_eq heq
    · intro s hs hs'
      obtain ⟨r, hr, rfl⟩ := List.mem_map.1 hs
      obtain ⟨n, hn, heq⟩ := List.mem_map.1 hs'
      have hmem := h.reserved n hn
      rw [heq] at hmem
      exact hfree r hr hmem
  · intro n hn
    show n.render ∈ roles.map _ ++ st.names.reserved
    rcases List.mem_append.1 hn with hn | hn
    · obtain ⟨r, hr, rfl⟩ := List.mem_map.1 hn
      exact List.mem_append_left _ (List.mem_map_of_mem hr)
    · exact List.mem_append_right _ (h.reserved n hn)
  · intro n hn
    rcases List.mem_append.1 hn with hn | hn
    · obtain ⟨r, hr, rfl⟩ := List.mem_map.1 hn
      exact HiddenName.isValid_of_parts h.stem (hparts r hr) hindex
    · exact h.valid n hn
  · intro c hc
    obtain ⟨hvalid, hrole, hmem⟩ := h.callee c hc
    exact ⟨hvalid, hrole, List.mem_append_right _ hmem⟩

/-- What catch-alls call can be added if it was not counted yet. -/
theorem Drawn.calling (h : Drawn ns st) (hnew : ∀ c ∈ st.callee, c.render ∉ ns.map HiddenName.render) :
    Drawn (st.calling.1 :: ns) st.calling.2 := by
  unfold State.calling
  cases hc : st.callee with
  | none =>
    have hdraw := h.draw ["assert_never"] (by simp) (by decide)
    refine ⟨hdraw.stem, hdraw.next, hdraw.nodup, hdraw.reserved, hdraw.valid, ?_⟩
    intro c hmem
    cases hmem
    exact ⟨hdraw.valid _ (.head _), rfl, hdraw.reserved _ (.head _)⟩
  | some c =>
    obtain ⟨hvalid, -, hmem⟩ := h.callee c hc
    refine ⟨h.stem, h.next, List.nodup_cons.2 ⟨hnew c hc, h.nodup⟩, ?_, ?_, h.callee⟩
    · exact List.forall_mem_cons.2 ⟨hmem, h.reserved⟩
    · exact List.forall_mem_cons.2 ⟨hvalid, h.valid⟩

/-! ### States that correspond -/

/-- Two states at the same place. What catch-alls call are counterparts, or neither has been counted. -/
structure Aligned (R : Counterparts) (st st' : State) : Prop where
  left : Drawn (R.map Prod.fst) st
  right : Drawn (R.map Prod.snd) st'
  roles : ∀ p ∈ R, p.2.role = p.1.role
  wrapper : Option.Rel (Alike R) st.wrapper st'.wrapper
  loopDepth : st'.loopDepth = st.loopDepth
  callee : (∃ p ∈ R, st.callee = some p.1 ∧ st'.callee = some p.2) ∨
    (∀ c ∈ st.callee, c.render ∉ (R.map Prod.fst).map HiddenName.render) ∧
      ∀ c ∈ st'.callee, c.render ∉ (R.map Prod.snd).map HiddenName.render

theorem relMono {α : Type} [Renamable α] {x x' : Option α} (h : Option.Rel (Alike R) x x') (hR : R ⊆ R') :
    Option.Rel (Alike R') x x' := by
  cases h with
  | some h => exact .some (h.mono hR)
  | none => exact .none

theorem renameRel {α : Type} [Renamable α] {x x' : Option α} (h : Option.Rel (Alike R) x x')
    (ρ : HiddenName → HiddenName) (hρ : R.Within ρ) : x' = rename ρ x := by
  cases h with
  | some h => exact congrArg some (h ρ hρ)
  | none => rfl

namespace Aligned

variable {R : Counterparts} {st st' : State}

theorem exists_perm (h : Aligned R st st') : ∃ ρ : Equiv.Perm HiddenName, R.Within ρ :=
  Counterparts.exists_perm h.left.nodup.of_map h.right.nodup.of_map

theorem valid (h : Aligned R st st') {n n' : HiddenName} (hn : (n, n') ∈ R) :
    n.isValid = true ∧ n'.isValid = true :=
  ⟨h.left.valid n (List.mem_map_of_mem hn), h.right.valid n' (List.mem_map_of_mem hn)⟩

/-- Two states that correspond can be moved to other places that do. -/
theorem moved {t t' : State} (h : Aligned R st st') (hn : t.names = st.names) (hn' : t'.names = st'.names)
    (hc : t.callee = st.callee) (hc' : t'.callee = st'.callee)
    (hw : Option.Rel (Alike R) t.wrapper t'.wrapper) (hl : t'.loopDepth = t.loopDepth) : Aligned R t t' :=
  ⟨h.left.congr hn hc, h.right.congr hn' hc', h.roles, hw, hl, hc ▸ hc' ▸ h.callee⟩

/-- The names that two draws for the same roles give. -/
def drawnPairs (st st' : State) (roles : List String) : Counterparts :=
  roles.map fun r =>
    (st.names.name r (st.names.draw roles).1, st'.names.name r (st'.names.draw roles).1)

theorem draw (h : Aligned R st st') (roles : List String) (hroles : roles.Nodup)
    (hparts : ∀ r ∈ roles, r.toList.all Text.isIdentifierPart = true) :
    Aligned (drawnPairs st st' roles ++ R) { st with names := (st.names.draw roles).2 }
      { st' with names := (st'.names.draw roles).2 } := by
  have hfst : (drawnPairs st st' roles ++ R).map Prod.fst =
      roles.map (fun r => st.names.name r (st.names.draw roles).1) ++ R.map Prod.fst := by
    simp [drawnPairs, Function.comp_def]
  have hsnd : (drawnPairs st st' roles ++ R).map Prod.snd =
      roles.map (fun r => st'.names.name r (st'.names.draw roles).1) ++ R.map Prod.snd := by
    simp [drawnPairs, Function.comp_def]
  have hsub : R ⊆ drawnPairs st st' roles ++ R := List.subset_append_right _ _
  -- a name in use is written differently from the names that are drawn
  have hnew {st : State} {ns : List HiddenName} {s : String} (hs : s ∈ st.names.reserved)
      (hns : s ∉ ns.map HiddenName.render) : s ∉
      (roles.map (fun r => st.names.name r (st.names.draw roles).1) ++ ns).map HiddenName.render := by
    rw [List.map_append, List.map_map, List.mem_append, not_or]
    refine ⟨fun hmem => ?_, hns⟩
    obtain ⟨r, hr, heq⟩ := List.mem_map.1 hmem
    rw [← heq] at hs
    exact Allocator.isFree_iff.1 (st.names.isFree_draw roles) r hr hs
  refine ⟨hfst ▸ h.left.draw roles hroles hparts, hsnd ▸ h.right.draw roles hroles hparts, ?_,
    relMono h.wrapper hsub, h.loopDepth, ?_⟩
  · intro p hp
    rcases List.mem_append.1 hp with hp | hp
    · obtain ⟨r, -, rfl⟩ := List.mem_map.1 hp
      rfl
    · exact h.roles p hp
  · rw [hfst, hsnd]
    rcases h.callee with ⟨p, hp, hc⟩ | ⟨hc, hc'⟩
    · exact .inl ⟨p, hsub hp, hc⟩
    · refine .inr ⟨fun c hmem => ?_, fun c hmem => ?_⟩
      · exact hnew (h.left.callee c hmem).2.2 (hc c hmem)
      · exact hnew (h.right.callee c hmem).2.2 (hc' c hmem)

/-- What catch-alls call are counterparts afterwards. -/
theorem calling (h : Aligned R st st') :
    ∃ R', R ⊆ R' ∧ (st.calling.1, st'.calling.1) ∈ R' ∧ Aligned R' st.calling.2 st'.calling.2 := by
  have hplace (st : State) : st.calling.2.wrapper = st.wrapper ∧ st.calling.2.loopDepth = st.loopDepth ∧
      st.calling.2.callee = some st.calling.1 := by
    obtain ⟨⟨names, hstate⟩, -⟩ := st.calling_spec
    rw [hstate]
    exact ⟨rfl, rfl, rfl⟩
  have hrole {st : State} {ns : List HiddenName} (h : Drawn ns st) : st.calling.1.role = "assert_never" := by
    unfold State.calling
    cases hc : st.callee with
    | none => rfl
    | some c => exact (h.callee c hc).2.1
  rcases h.callee with ⟨p, hp, hc, hc'⟩ | ⟨hc, hc'⟩
  · refine ⟨R, List.Subset.refl R, ?_, ?_⟩
    · rw [State.calling, State.calling, hc, hc']
      exact hp
    · rw [State.calling, State.calling, hc, hc']
      exact h
  · have hsub : R ⊆ (st.calling.1, st'.calling.1) :: R := List.subset_cons_self _ _
    refine ⟨_, hsub, .head _, h.left.calling hc, h.right.calling hc', ?_, ?_, ?_, ?_⟩
    · exact List.forall_mem_cons.2 ⟨(hrole h.right).trans (hrole h.left).symm, h.roles⟩
    · rw [(hplace st).1, (hplace st').1]
      exact relMono h.wrapper hsub
    · rw [(hplace st).2.1, (hplace st').2.1]
      exact h.loopDepth
    · exact .inl ⟨_, .head _, (hplace st).2.2, (hplace st').2.2⟩

end Aligned

end Lowering

end DoBlocks
