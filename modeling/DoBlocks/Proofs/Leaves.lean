import DoBlocks.Proofs.InnerBlocks

/-!
# The leaves of a block

The pieces of host code in a block that lowering writes as they are: statements, operands, patterns and loop
targets. `Block.leaves` collects them. `Block.occurrences` has them in the order in which they are evaluated, each
with the reasons for which it cannot be reached; the leaves of a statement of an inner block stand together there,
those of the rest of its block after them.
-/

namespace DoBlocks

/-- A piece of host code without escapes. -/
inductive Leaf where
  | statement (s : Simple)
  /-- A statement around a value that is not written with it. -/
  | frame (form : SimpleForm) (lead : Host.Surface)
  | expr (e : Expr)
  | pattern (p : Pattern)
  | target (text : Host.Surface)
  deriving DecidableEq

/-- Why a leaf cannot be reached. -/
inductive Loss where
  /-- It comes after a statement of its block that diverges. -/
  | diverged
  /-- It is in or after a match whose source always escapes. -/
  | sourceEscaped
  /-- It is in or after a branch whose test always escapes. -/
  | testEscaped
  /-- It is in a loop whose iterable always escapes. -/
  | iterableEscaped
  /-- It is evaluated after an operand of its expression that always escapes. -/
  | operandEscaped
  /-- It is the frame of a statement whose value always escapes. -/
  | valueEscaped
  deriving DecidableEq

/-- The reason, if there is one. -/
def Loss.when (why : Loss) (c : Bool) : List Loss := if c then [why] else []

/-- A leaf and the reasons why it is not written. -/
structure Occurrence where
  leaf : Leaf
  losses : List Loss
  deriving DecidableEq

namespace Occurrence

/-- A leaf that is reached whenever its surroundings are. -/
def plain (leaf : Leaf) : Occurrence := ⟨leaf, []⟩

/-- Further reasons for all of them. -/
def lose (why : List Loss) (xs : List Occurrence) : List Occurrence :=
  xs.map fun x => ⟨x.leaf, why ++ x.losses⟩

/-- The leaves that are there for no reason not to be. -/
def kept (xs : List Occurrence) : List Leaf := (xs.filter fun x => x.losses.isEmpty).map leaf

/-- All leaves. -/
def all (xs : List Occurrence) : List Leaf := xs.map leaf

@[simp] theorem lose_nil (xs : List Occurrence) : lose [] xs = xs := List.map_id' xs

theorem lose_append (why : List Loss) (xs ys : List Occurrence) : lose why (xs ++ ys) = lose why xs ++ lose why ys :=
  List.map_append

theorem lose_lose (why why' : List Loss) (xs : List Occurrence) :
    lose why (lose why' xs) = lose (why ++ why') xs := by
  simp [lose, List.append_assoc]

@[simp] theorem all_append (xs ys : List Occurrence) : all (xs ++ ys) = all xs ++ all ys := List.map_append

@[simp] theorem all_nil : all [] = [] := rfl

@[simp] theorem all_plain (leaf : Leaf) (xs : List Occurrence) : all (plain leaf :: xs) = leaf :: all xs := rfl

@[simp] theorem all_lose (why : List Loss) (xs : List Occurrence) : all (lose why xs) = all xs := by
  simp [all, lose]

@[simp] theorem kept_nil : kept [] = [] := rfl

@[simp] theorem kept_append (xs ys : List Occurrence) : kept (xs ++ ys) = kept xs ++ kept ys := by
  simp [kept]

@[simp] theorem kept_plain (leaf : Leaf) (xs : List Occurrence) : kept (plain leaf :: xs) = leaf :: kept xs := rfl

@[simp] theorem kept_lose_when (c : Bool) (why : Loss) (xs : List Occurrence) :
    kept (lose (why.when c) xs) = if c then [] else kept xs := by
  cases c with
  | false => simp [Loss.when]
  | true => simp [Loss.when, kept, lose]

/-- What is kept is kept once. -/
theorem kept_sublist (xs : List Occurrence) : (kept xs).Sublist (all xs) := List.filter_sublist.map leaf

/-- The leaves stand together in a list, perhaps for further reasons not written. -/
def Within (xs ys : List Occurrence) : Prop := ∃ before why after, ys = before ++ lose why xs ++ after

namespace Within

variable {xs ys zs : List Occurrence}

theorem refl (xs : List Occurrence) : Within xs xs := ⟨[], [], [], by simp⟩

theorem trans (h : Within xs ys) (h' : Within ys zs) : Within xs zs := by
  obtain ⟨before, why, after, rfl⟩ := h
  obtain ⟨before', why', after', rfl⟩ := h'
  refine ⟨before' ++ lose why' before, why' ++ why, lose why' after ++ after', ?_⟩
  simp [lose_append, lose_lose]

theorem lost (why : List Loss) (xs : List Occurrence) : Within xs (lose why xs) := ⟨[], why, [], by simp⟩

theorem append_left (h : Within xs ys) (zs : List Occurrence) : Within xs (ys ++ zs) := by
  obtain ⟨before, why, after, rfl⟩ := h
  exact ⟨before, why, after ++ zs, by simp⟩

theorem append_right (h : Within xs ys) (zs : List Occurrence) : Within xs (zs ++ ys) := by
  obtain ⟨before, why, after, rfl⟩ := h
  exact ⟨zs ++ before, why, after, by simp⟩

end Within

end Occurrence

open Occurrence

/-! ### Expressions and statements -/

namespace Expr

/-- The parts of an expression that are written as they are, next to the escapes and generated names in it. -/
def leaves : Expr → List Leaf
  | plain text buried => [.expr (plain text buried)]
  | hidden _ => []
  | escape _ _ operand => operand.leaves
  | logical c opening left before after right closing =>
    if left.hasEscape || right.hasEscape || left.hasHidden || right.hasHidden then left.leaves ++ right.leaves
    else [.expr (logical c opening left before after right closing)]
  | conditional opening body ifText test elseText orelse closing =>
    if body.hasEscape || test.hasEscape || orelse.hasEscape ||
        body.hasHidden || test.hasHidden || orelse.hasHidden then
      body.leaves ++ test.leaves ++ orelse.leaves
    else [.expr (conditional opening body ifText test elseText orelse closing)]

/-- The leaves in the order of evaluation. -/
def occurrences : Expr → List Occurrence
  | escape _ _ operand => operand.occurrences
  | logical c opening left before after right closing =>
    if left.hasEscape || right.hasEscape then
      left.occurrences ++ lose (Loss.operandEscaped.when left.alwaysEscapes) right.occurrences
    else [.plain (.expr (logical c opening left before after right closing))]
  | conditional opening body ifText test elseText orelse closing =>
    if body.hasEscape || test.hasEscape || orelse.hasEscape then
      test.occurrences ++ lose (Loss.operandEscaped.when test.alwaysEscapes) (body.occurrences ++ orelse.occurrences)
    else [.plain (.expr (conditional opening body ifText test elseText orelse closing))]
  | e => [.plain (.expr e)]

theorem leaves_eq_singleton {e : Expr} (he : e.hasEscape = false) (hw : e.written = true) :
    e.leaves = [.expr e] := by
  cases e with
  | plain text buried => rfl
  | hidden name => cases hw
  | escape text mark operand => cases he
  | logical c opening left before after right closing =>
    have hh := hasHidden_eq_false hw
    simp only [hasEscape_logical, hasHidden, Bool.or_eq_false_iff] at he hh
    simp [leaves, he, hh]
  | conditional opening body ifText test elseText orelse closing =>
    have hh := hasHidden_eq_false hw
    simp only [hasEscape_conditional, hasHidden, Bool.or_eq_false_iff] at he hh
    simp [leaves, he, hh]

theorem occurrences_eq_singleton {e : Expr} (he : e.hasEscape = false) : e.occurrences = [.plain (.expr e)] := by
  cases e with
  | plain text buried => rfl
  | hidden name => rfl
  | escape text mark operand => cases he
  | logical c opening left before after right closing =>
    simp only [hasEscape_logical, Bool.or_eq_false_iff] at he
    simp [occurrences, he]
  | conditional opening body ifText test elseText orelse closing =>
    simp only [hasEscape_conditional, Bool.or_eq_false_iff] at he
    simp [occurrences, he]

theorem perm_leaves {e : Expr} (hw : e.written = true) : (all e.occurrences).Perm e.leaves := by
  induction e with
  | plain text buried => exact .refl _
  | hidden name => cases hw
  | escape text mark operand ih => exact ih hw
  | logical c opening left before after right closing ihl ihr =>
    simp only [written, Bool.and_eq_true] at hw
    simp only [occurrences, leaves, hasHidden_eq_false hw.1, hasHidden_eq_false hw.2, Bool.or_false]
    split
    · simpa using (ihl hw.1).append (ihr hw.2)
    · exact .refl _
  | conditional opening body ifText test elseText orelse closing ihb iht iho =>
    simp only [written, Bool.and_eq_true] at hw
    simp only [occurrences, leaves, hasHidden_eq_false hw.1.1, hasHidden_eq_false hw.1.2, hasHidden_eq_false hw.2,
      Bool.or_false]
    split
    · have hbody := (ihb hw.1.1).append (iho hw.2)
      have htest : (all test.occurrences ++ (all body.occurrences ++ all orelse.occurrences)).Perm
          (body.leaves ++ test.leaves ++ orelse.leaves) := by
        refine ((iht hw.1.2).append hbody).trans ?_
        rw [← List.append_assoc]
        exact List.perm_append_comm.append_right _
      simpa using htest
    · exact .refl _

end Expr

namespace Simple

/-- A statement is one leaf, unless parts of its value stand elsewhere. -/
def leaves (s : Simple) : List Leaf :=
  match s.value with
  | none => [.statement s]
  | some e => if e.hasEscape || e.hasHidden then e.leaves ++ [.frame s.form s.lead] else [.statement s]

def occurrences (s : Simple) : List Occurrence :=
  match s.value with
  | none => [.plain (.statement s)]
  | some e =>
    if e.hasEscape then e.occurrences ++ lose (Loss.valueEscaped.when e.alwaysEscapes) [.plain (.frame s.form s.lead)]
    else [.plain (.statement s)]

theorem perm_leaves {s : Simple} (hw : s.value.all Expr.written = true) : (all s.occurrences).Perm s.leaves := by
  unfold occurrences leaves
  cases hv : s.value with
  | none => exact .refl _
  | some e =>
    rw [hv] at hw
    simp only [Expr.hasHidden_eq_false hw, Bool.or_false]
    split
    · simpa using (Expr.perm_leaves hw).append (.refl [Leaf.frame s.form s.lead])
    · exact .refl _

end Simple

/-! ### Blocks -/

mutual

/-- The leaves of a block, as it is written. A shorthand arm has the pattern that it stands for. -/
def Block.leaves : Block → List Leaf
  | .mk statements tail _ _ =>
    statementsLeaves statements ++
      match tail with
      | none => []
      | some t => t.leaves

def statementsLeaves : List Statement → List Leaf
  | [] => []
  | s :: rest => s.leaves ++ statementsLeaves rest

def Statement.leaves : Statement → List Leaf
  | .simple s _ => s.leaves
  | .escape e => e.value.leaves
  | .letMatch primary source arms _ => .pattern primary :: source.leaves ++ armsLeaves arms
  | .conditional c => c.leaves
  | .whileLoop test body _ => test.leaves ++ body.leaves
  | .forLoop target iterable body _ => .target target :: iterable.leaves ++ body.leaves
  | .nested _ b _ => b.leaves

def Tail.leaves : Tail → List Leaf
  | .value e => e.leaves
  | .escape e => e.value.leaves
  | .conditional c => c.leaves
  | .block b => b.leaves

def armsLeaves : List Arm → List Leaf
  | [] => []
  | .mk pattern guard body _ _ :: rest =>
    .pattern pattern :: (guard.map Expr.leaves).getD [] ++ body.leaves ++ armsLeaves rest

def Conditional.leaves : Conditional → List Leaf
  | .mk branches orelse _ =>
    branchesLeaves branches ++
      match orelse with
      | none => []
      | some b => b.leaves

def branchesLeaves : List Branch → List Leaf
  | [] => []
  | .mk test body :: rest => test.leaves ++ body.leaves ++ branchesLeaves rest

end

/-- Why what comes after a statement is not reached. -/
def Statement.losses : Statement → List Loss
  | .letMatch _ source _ _ => Loss.sourceEscaped.when source.alwaysEscapes
  | s => Loss.diverged.when s.diverges

mutual

/-- The leaves of a block in the order of evaluation. -/
def Block.occurrences : Block → List Occurrence
  | .mk statements tail _ _ =>
    statementsOccurrences
      (match tail with
        | none => []
        | some t => t.occurrences)
      statements

/-- Those of statements and of what comes after them. The arms of a match come after the rest of its block. -/
def statementsOccurrences (finish : List Occurrence) : List Statement → List Occurrence
  | [] => finish
  | s :: rest => s.front ++ lose s.losses (statementsOccurrences finish rest ++ s.fallbacks)

/-- The leaves of a statement, without the arms of a match. -/
def Statement.front : Statement → List Occurrence
  | .simple s _ => s.occurrences
  | .escape e => e.value.occurrences
  | .letMatch primary source _ _ =>
    source.occurrences ++ lose (Loss.sourceEscaped.when source.alwaysEscapes) [.plain (.pattern primary)]
  | .conditional c => c.occurrences
  | .whileLoop test body _ => test.occurrences ++ body.occurrences
  | .forLoop target iterable body _ =>
    iterable.occurrences ++
      lose (Loss.iterableEscaped.when iterable.alwaysEscapes) (.plain (.target target) :: body.occurrences)
  | .nested _ b _ => b.occurrences

def Statement.fallbacks : Statement → List Occurrence
  | .letMatch _ _ arms _ => armsOccurrences arms
  | _ => []

def Tail.occurrences : Tail → List Occurrence
  | .value e => e.occurrences
  | .escape e => e.value.occurrences
  | .conditional c => c.occurrences
  | .block b => b.occurrences

def armsOccurrences : List Arm → List Occurrence
  | [] => []
  | .mk pattern guard body _ _ :: rest =>
    .plain (.pattern pattern) :: (guard.map Expr.occurrences).getD [] ++ body.occurrences ++ armsOccurrences rest

def Conditional.occurrences : Conditional → List Occurrence
  | .mk branches orelse _ =>
    branchesOccurrences
      (match orelse with
        | none => []
        | some b => b.occurrences)
      branches

/-- Those of branches and of what is done if none is taken. -/
def branchesOccurrences (other : List Occurrence) : List Branch → List Occurrence
  | [] => other
  | .mk test body :: rest =>
    test.occurrences ++
      lose (Loss.testEscaped.when test.alwaysEscapes) (body.occurrences ++ branchesOccurrences other rest)

end

/-- What is evaluated after the statements of a block. -/
def Block.finish (b : Block) : List Occurrence := (b.tail.map Tail.occurrences).getD []

theorem Block.occurrences_eq (b : Block) : b.occurrences = statementsOccurrences b.finish b.statements := by
  obtain ⟨ss, tail, span, boundary⟩ := b
  cases tail <;> rfl

/-! ### All leaves are there -/

section Perm

variable {guards : Bool}

mutual

theorem Block.perm_leaves : ∀ {b : Block}, b.wellFormed guards = true → (all b.occurrences).Perm b.leaves
  | .mk ss none _ _, hb => by
    rw [Block.wellFormed, Bool.and_true] at hb
    exact perm_statementsLeaves [] hb
  | .mk ss (some t) _ _, hb => by
    simp only [Block.wellFormed, Bool.and_eq_true] at hb
    exact (perm_statementsLeaves t.occurrences hb.1).trans ((Tail.perm_leaves hb.2).append_left _)

theorem perm_statementsLeaves (finish : List Occurrence) : ∀ {ss : List Statement},
    statementsWellFormed guards ss = true →
    (all (statementsOccurrences finish ss)).Perm (statementsLeaves ss ++ all finish)
  | [], _ => .refl _
  | s :: rest, hs => by
    simp only [statementsWellFormed, Bool.and_eq_true] at hs
    have hrest := perm_statementsLeaves finish hs.2
    rw [statementsOccurrences, statementsLeaves, all_append, all_lose, all_append, List.append_assoc]
    calc all s.front ++ (all (statementsOccurrences finish rest) ++ all s.fallbacks)
      _ |>.Perm (all s.front ++ (all s.fallbacks ++ all (statementsOccurrences finish rest))) :=
        List.perm_append_comm.append_left _
      _ = (all s.front ++ all s.fallbacks) ++ all (statementsOccurrences finish rest) := (List.append_assoc ..).symm
      _ |>.Perm (s.leaves ++ (statementsLeaves rest ++ all finish)) := (Statement.perm_leaves hs.1).append hrest

/-- The arms of a match are the only leaves of a statement that do not stand with the others. -/
theorem Statement.perm_leaves : ∀ {s : Statement}, s.wellFormed guards = true →
    (all s.front ++ all s.fallbacks).Perm s.leaves
  | .simple s _, hs => by simpa [Statement.front, Statement.fallbacks, Statement.leaves] using Simple.perm_leaves hs
  | .escape e, hs => by simpa [Statement.front, Statement.fallbacks, Statement.leaves] using Expr.perm_leaves hs
  | .letMatch primary source arms _, hs => by
    simp only [Statement.wellFormed, Bool.and_eq_true] at hs
    have hsource : (all source.occurrences ++ [Leaf.pattern primary]).Perm (Leaf.pattern primary :: source.leaves) :=
      (List.perm_append_comm).trans ((Expr.perm_leaves hs.1.1).cons _)
    simpa [Statement.front, Statement.fallbacks, Statement.leaves] using hsource.append (perm_armsLeaves hs.2)
  | .conditional c, hs => by
    simpa [Statement.front, Statement.fallbacks, Statement.leaves] using Conditional.perm_leaves hs
  | .whileLoop test body _, hs => by
    simp only [Statement.wellFormed, Expr.fixed, Bool.and_eq_true] at hs
    simpa [Statement.front, Statement.fallbacks, Statement.leaves] using
      (Expr.perm_leaves hs.1.1).append (Block.perm_leaves hs.2)
  | .forLoop target iterable body _, hs => by
    simp only [Statement.wellFormed, Bool.and_eq_true] at hs
    have hiterable : (all iterable.occurrences ++ [Leaf.target target]).Perm
        (Leaf.target target :: iterable.leaves) :=
      (List.perm_append_comm).trans ((Expr.perm_leaves hs.1).cons _)
    simpa [Statement.front, Statement.fallbacks, Statement.leaves] using hiterable.append (Block.perm_leaves hs.2)
  | .nested _ b _, hs => by
    simp only [Statement.wellFormed, Bool.and_eq_true] at hs
    simpa [Statement.front, Statement.fallbacks, Statement.leaves] using Block.perm_leaves hs.2

theorem Tail.perm_leaves : ∀ {t : Tail}, t.wellFormed guards = true → (all t.occurrences).Perm t.leaves
  | .value _, ht => Expr.perm_leaves ht
  | .escape _, ht => Expr.perm_leaves ht
  | .conditional _, ht => Conditional.perm_leaves ht
  | .block _, ht => Block.perm_leaves ht

theorem perm_armsLeaves : ∀ {arms : List Arm}, armsWellFormed guards arms = true →
    (all (armsOccurrences arms)).Perm (armsLeaves arms)
  | [], _ => .refl _
  | .mk pattern guard body _ _ :: rest, ha => by
    simp only [armsWellFormed, Bool.and_eq_true] at ha
    have hguard : (all ((guard.map Expr.occurrences).getD [])).Perm ((guard.map Expr.leaves).getD []) := by
      cases guard with
      | none => exact .refl _
      | some e =>
        simp only [Option.all_some, Expr.fixed, Bool.and_eq_true] at ha
        exact Expr.perm_leaves ha.1.1.1
    have hrest := (hguard.append (Block.perm_leaves ha.1.2)).append (perm_armsLeaves ha.2)
    simpa [armsOccurrences, armsLeaves] using hrest

theorem Conditional.perm_leaves : ∀ {c : Conditional}, c.wellFormed guards = true →
    (all c.occurrences).Perm c.leaves
  | .mk branches none _, hc => by
    simp only [Conditional.wellFormed, Bool.and_eq_true] at hc
    exact perm_branchesLeaves [] hc.1.2
  | .mk branches (some b) _, hc => by
    simp only [Conditional.wellFormed, Bool.and_eq_true] at hc
    exact (perm_branchesLeaves b.occurrences hc.1.2).trans ((Block.perm_leaves hc.2).append_left _)

theorem perm_branchesLeaves (other : List Occurrence) : ∀ {bs : List Branch},
    branchesWellFormed guards bs = true →
    (all (branchesOccurrences other bs)).Perm (branchesLeaves bs ++ all other)
  | [], _ => .refl _
  | .mk test body :: rest, hb => by
    simp only [branchesWellFormed, Bool.and_eq_true] at hb
    have hrest := (Block.perm_leaves hb.1.2).append (perm_branchesLeaves other hb.2)
    simpa [branchesOccurrences, branchesLeaves] using (Expr.perm_leaves hb.1.1).append hrest

end

end Perm

/-! ### Statements of a block stand in their order -/

section Order

variable {c : Block}

/-- What comes after some of the statements stands after them. -/
theorem within_later (finish : List Occurrence) (before rest : List Statement) :
    Within (statementsOccurrences finish rest) (statementsOccurrences finish (before ++ rest)) := by
  induction before with
  | nil => exact .refl _
  | cons s before ih => exact ((ih.append_left _).trans (.lost _ _)).append_right _

theorem within_finish (finish : List Occurrence) (ss : List Statement) :
    Within finish (statementsOccurrences finish ss) := by
  have h := within_later finish ss []
  rw [List.append_nil] at h
  exact h

theorem within_other (other : List Occurrence) (bs : List Branch) :
    Within other (branchesOccurrences other bs) := by
  induction bs with
  | nil => exact .refl _
  | cons branch rest ih =>
    obtain ⟨test, body⟩ := branch
    exact ((ih.append_right _).trans (.lost _ _)).append_right _

mutual

/-- The leaves of an inner block stand together. -/
theorem Block.within_of_mem : ∀ {b : Block}, c ∈ b.blocks → Within c.occurrences b.occurrences
  | .mk ss none _ _, hc => by
    rw [Block.blocks, List.append_nil] at hc
    rcases List.mem_cons.1 hc with rfl | hc
    · exact .refl _
    · exact within_of_mem_blocksOf [] hc
  | .mk ss (some t) _ _, hc => by
    rw [Block.blocks] at hc
    rcases List.mem_cons.1 hc with rfl | hc
    · exact .refl _
    · rcases List.mem_append.1 hc with hc | hc
      · exact within_of_mem_blocksOf t.occurrences hc
      · exact (Tail.within_of_mem hc).trans (within_finish t.occurrences ss)

theorem within_of_mem_blocksOf (finish : List Occurrence) : ∀ {ss : List Statement}, c ∈ blocksOf ss →
    Within c.occurrences (statementsOccurrences finish ss)
  | [], hc => nomatch hc
  | s :: rest, hc => by
    rw [statementsOccurrences]
    rcases List.mem_append.1 hc with hc | hc
    · obtain h | h := Statement.within_of_mem hc
      · exact h.append_left _
      · exact ((h.append_right _).trans (.lost _ _)).append_right _
    · exact (((within_of_mem_blocksOf finish hc).append_left _).trans (.lost _ _)).append_right _

theorem Statement.within_of_mem : ∀ {s : Statement}, c ∈ s.blocks →
    Within c.occurrences s.front ∨ Within c.occurrences s.fallbacks
  | .simple _ _, hc => nomatch hc
  | .escape _, hc => nomatch hc
  | .letMatch _ _ _ _, hc => .inr (within_of_mem_blocksOfArms hc)
  | .conditional _, hc => .inl (Conditional.within_of_mem hc)
  | .whileLoop _ _ _, hc => .inl ((Block.within_of_mem hc).append_right _)
  | .forLoop target _ _ _, hc =>
    .inl ((((Block.within_of_mem hc).append_right [.plain (.target target)]).trans (.lost _ _)).append_right _)
  | .nested _ _ _, hc => .inl (Block.within_of_mem hc)

theorem Tail.within_of_mem : ∀ {t : Tail}, c ∈ t.blocks → Within c.occurrences t.occurrences
  | .value _, hc => nomatch hc
  | .escape _, hc => nomatch hc
  | .conditional _, hc => Conditional.within_of_mem hc
  | .block _, hc => Block.within_of_mem hc

theorem within_of_mem_blocksOfArms : ∀ {arms : List Arm}, c ∈ blocksOfArms arms →
    Within c.occurrences (armsOccurrences arms)
  | [], hc => nomatch hc
  | .mk _ _ body _ _ :: rest, hc => by
    rw [armsOccurrences]
    rcases List.mem_append.1 hc with hc | hc
    · exact ((Block.within_of_mem hc).append_right _).append_left _
    · exact (within_of_mem_blocksOfArms hc).append_right _

theorem Conditional.within_of_mem : ∀ {d : Conditional}, c ∈ d.blocks → Within c.occurrences d.occurrences
  | .mk branches none _, hc => by
    rw [Conditional.blocks, List.append_nil] at hc
    exact within_of_mem_blocksOfBranches [] hc
  | .mk branches (some b) _, hc => by
    rw [Conditional.blocks] at hc
    rcases List.mem_append.1 hc with hc | hc
    · exact within_of_mem_blocksOfBranches b.occurrences hc
    · exact (Block.within_of_mem hc).trans (within_other b.occurrences branches)

theorem within_of_mem_blocksOfBranches (other : List Occurrence) : ∀ {bs : List Branch},
    c ∈ blocksOfBranches bs → Within c.occurrences (branchesOccurrences other bs)
  | [], hc => nomatch hc
  | .mk _ body :: rest, hc => by
    rw [branchesOccurrences]
    rcases List.mem_append.1 hc with hc | hc
    · exact (((Block.within_of_mem hc).append_left _).trans (.lost _ _)).append_right _
    · exact (((within_of_mem_blocksOfBranches other hc).append_right _).trans (.lost _ _)).append_right _

end

/-- A statement of an inner block and what comes after it in that block stand one after the other. -/
theorem Block.within_split {b : Block} (hc : c ∈ b.blocks) {before rest : List Statement} {s : Statement}
    (hs : c.statements = before ++ s :: rest) :
    Within (s.front ++ lose s.losses (statementsOccurrences c.finish rest)) b.occurrences := by
  have hsplit : Within (s.front ++ lose s.losses (statementsOccurrences c.finish rest))
      (statementsOccurrences c.finish (s :: rest)) := by
    rw [statementsOccurrences, lose_append, ← List.append_assoc]
    exact (Within.refl _).append_left _
  have hblock := hsplit.trans (within_later c.finish before (s :: rest))
  rw [← hs, ← Block.occurrences_eq] at hblock
  exact hblock.trans (Block.within_of_mem hc)

end Order

end DoBlocks
