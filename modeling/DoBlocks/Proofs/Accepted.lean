import DoBlocks.Block.Parser
import DoBlocks.Proofs.Steps
import DoBlocks.Proofs.WellFormed

/-!
# Blocks that are read are well-formed

Whatever the reader makes of a text is well-formed: host trees hold no generated names, tests of loops
and guards with escapes in them are refused, and the sink of a nested block is written before it.
-/

namespace DoBlocks

/-! ### Expressions from trees -/

namespace Host.Tree

theorem written_exprWithin_and_lastExpr :
    (∀ opening closing t, (exprWithin opening closing t).written = true) ∧
      ∀ ts, (lastExpr ts).written = true := by
  apply exprWithin.mutual_induct
  case case1 =>
    intro opening closing l
    rfl
  case case2 =>
    intro opening closing l inner r ih
    rwa [exprWithin]
  case case3 =>
    intro opening closing left w right c hc hl hr
    rw [exprWithin, hc]
    simp [Expr.written, hl, hr]
  case case4 =>
    intro opening closing left w right hc
    rw [exprWithin, hc]
    rfl
  case case5 =>
    intro opening closing left w right c hc hl hr
    rw [exprWithin, hc]
    simp [Expr.written, hl, hr]
  case case6 =>
    intro opening closing left w right hc
    rw [exprWithin, hc]
    rfl
  case case7 =>
    intro opening closing body i test e orelse hb ht ho
    rw [exprWithin, Expr.written, hb, ht, ho]
    rfl
  case case8 =>
    intro opening closing k mark head head' kind argument tail h₁ h₂ h₃ h₄ hm ih
    rw [exprWithin]
    · exact ih
    all_goals assumption
  case case9 =>
    intro opening closing k children h₁ h₂ h₃ h₄ hm
    rw [exprWithin]
    · rfl
    all_goals assumption
  case case10 => rfl
  case case11 =>
    intro t ih
    exact ih
  case case12 =>
    intro head rest hne ih
    rwa [lastExpr]
    exact hne

theorem written_toExpr (t : Tree) : t.toExpr.written = true :=
  written_exprWithin_and_lastExpr.1 [] [] t

end Host.Tree

namespace BlockReader

/-! ### Fragments -/

theorem ne_none_of_leastMark {marks : List EscapeMark} {n : Nat} {least : Option Nat}
    (h : marks.foldlM (fun least mark => do
      let n ← markNumber mark
      return some (least.elim n (min n))) (some n) = .ok least) : least ≠ none := by
  induction marks generalizing n with
  | nil =>
    cases h
    exact Option.some_ne_none n
  | cons mark marks ih =>
    rw [List.foldlM_cons] at h
    cases hm : markNumber mark with
    | error e =>
      rw [hm] at h
      cases h
    | ok k =>
      rw [hm] at h
      exact ih h

theorem eq_nil_of_leastMark {marks : List EscapeMark} (h : leastMark marks = .ok none) : marks = [] := by
  cases marks with
  | nil => rfl
  | cons mark marks =>
    rw [leastMark, List.foldlM_cons] at h
    cases hm : markNumber mark with
    | error e =>
      rw [hm] at h
      cases h
    | ok k =>
      rw [hm] at h
      exact absurd rfl (ne_none_of_leastMark h)

/-- Marks that are not rejected are none. -/
theorem always_rejectMarks (marks : List EscapeMark) (fault : ParseFault) :
    Always (rejectMarks marks fault) fun _ => marks = [] := by
  unfold rejectMarks
  split
  · exact .throw _
  · exact .pure (eq_nil_of_leastMark ‹_›)
  · refine .after fun st => ?_
    split
    · exact .throw _
    · exact .throw _

theorem always_hostExpression (r : Range) (role : FragmentRole) (escapes : Bool) :
    Always (hostExpression r role escapes) fun e =>
      e.written = true ∧ (escapes = false → e.fixed = true) := by
  refine .after fun text => .after fun tree => ?_
  have hw := tree.written_toExpr
  refine .ite (fun he => .after fun _ => .pure ⟨hw, fun h => ?_⟩) fun _ => ?_
  · exact absurd (he.symm.trans h) (by decide)
  · refine (always_rejectMarks _ _).bind fun _ hm => .pure ⟨hw, fun _ => ?_⟩
    rw [Expr.fixed, hw, Expr.hasEscape, hm]
    rfl

theorem written_value_toSimple (t : Host.Tree) : t.toSimple.value.all Expr.written = true := by
  have hlast : ∀ form children, (Host.Tree.valueLast form children).value.all Expr.written = true := by
    intro form children
    rw [Host.Tree.valueLast]
    split
    · exact Host.Tree.written_toExpr _
    · rfl
  unfold Host.Tree.toSimple
  split
  · exact hlast _ _
  · exact hlast _ _
  · split
    · exact hlast _ _
    · rfl
  · split
    · rfl
    · exact hlast _ _
  all_goals rfl

theorem always_hostSimple (r : Range) :
    Always (hostSimple r) fun s => s.value.all Expr.written = true := by
  refine .after fun text => .after fun tree => ?_
  split
  · exact .after fun _ => .pure (written_value_toSimple _)
  · exact .throw _

theorem all_isWritten_targetsOf (ts : List Host.Tree) : (targetsOf ts).all Target.isWritten = true := by
  fun_induction targetsOf ts with
  | case1 t equals v rest ih =>
    rw [List.all_cons, ih]
    rfl
  | case2 ts h => rfl

theorem always_sinkBefore (keyword : String) (before : List SpacedToken) (block : Token) :
    Always (sinkBefore keyword before block) fun s => s.isWritten = true := by
  unfold sinkBefore
  split
  · refine .ite (fun _ => .pure rfl) fun _ => .ite (fun _ => ?_) fun _ => .throw _
    split
    · split
      · exact .ite (fun _ => .pure (all_isWritten_targetsOf _)) fun _ => .throw _
      · exact .throw _
    · exact .throw _
    · exact .throw _
  · exact .pure rfl

/-! ### Statements -/

section Statements

variable {keyword : String} {block : Bool → Reader Block}

theorem always_escape (inArm : Bool) :
    Always (escape keyword inArm) fun e => e.value.written = true :=
  .after fun _ => .after fun _ => .refuse <|
    (always_hostExpression _ _ _).bind fun _ he => .after fun _ => .pure he.1

theorem always_header (role : FragmentRole) (escapes : Bool) :
    Always (header keyword role escapes) fun e =>
      e.written = true ∧ (escapes = false → e.fixed = true) :=
  .after fun _ => .ite (fun _ => .after fun _ => .thrown) fun _ =>
    (always_hostExpression _ _ _).bind fun _ he => .after fun _ =>
      .ite (fun _ => .after fun _ => .thrown) fun _ => .pure he

theorem always_guard? : Always (guard? keyword) fun g => g.all Expr.fixed = true :=
  .after fun _ => .ite
    (fun _ => .after fun _ => .after fun _ => .refuse <|
      (always_hostExpression _ _ _).bind fun _ he => .pure (he.2 rfl))
    fun _ => .pure rfl

variable (hb : ∀ boundary, Always (block boundary) fun b => b.wellFormed true = true)
include hb

theorem always_armBody (anchor : Token) :
    Always (armBody keyword block anchor) fun b => b.wellFormed true = true := by
  refine .after fun t => .ite (fun _ => hb false) fun _ => .ite (fun _ => .throw _) fun _ =>
    .ite (fun _ => ?_) fun _ => .after fun r => .ite (fun _ => ?_) fun _ => ?_
  · exact (always_escape true).bind fun e he => .pure he
  · refine (always_hostSimple r).bind fun s hs => .pure ?_
    simp [Block.wellFormed, statementsWellFormed, Statement.wellFormed, hs]
  · exact (always_hostExpression r .armBody true).bind fun e he => .pure he.1

theorem always_arm : Always (arm keyword block) fun a =>
    a.guard.all Expr.fixed = true ∧ a.body.wellFormed true = true := by
  refine .after fun first => .after fun r => .after fun next => .refuse ?_
  refine .ite (fun _ => .ite (fun _ => .after fun pattern => ?_) fun _ => .thrown)
    fun _ => .after fun pattern => ?_
  all_goals
    exact always_guard?.bind fun guard hg => .after fun t =>
      .ite (fun _ => .after fun _ => .thrown) fun _ => .after fun _ => .after fun _ =>
        (always_armBody hb _).bind fun _ h => .after fun _ => .pure ⟨hg, h⟩

omit hb in
theorem armsWellFormed_cons {a : Arm} {rest : List Arm}
    (h : a.guard.all Expr.fixed = true ∧ a.body.wellFormed true = true)
    (hrest : armsWellFormed true rest = true) : armsWellFormed true (a :: rest) = true := by
  cases a with
  | mk pattern guard body span shorthand =>
    rw [armsWellFormed, Bool.and_eq_true, Bool.and_eq_true]
    exact ⟨h, hrest⟩

theorem always_moreArms (fuel : Nat) :
    Always (moreArms keyword block fuel) fun as => armsWellFormed true as = true := by
  induction fuel with
  | zero => exact .pure rfl
  | succ fuel ih =>
    refine .after fun _ => .ite (fun _ => .after fun _ => .after fun _ => .after fun _ => .refuse ?_)
      fun _ => .pure rfl
    exact (always_arm hb).bind fun _ h => ih.bind fun _ hrest => .pure (armsWellFormed_cons h hrest)

theorem always_arms (word : Token) :
    Always (arms keyword block word) fun as => armsWellFormed true as = true := by
  refine .after fun _ => .after fun _ => .refuse <| .after fun st => .ite (fun _ => ?_) fun _ => ?_
  · exact (always_arm hb).bind fun _ h =>
      (always_moreArms hb _).bind fun _ hrest => .pure (armsWellFormed_cons h hrest)
  · exact .after fun _ => (always_armBody hb _).bind fun _ h => .after fun _ =>
      .pure (armsWellFormed_cons ⟨rfl, h⟩ rfl)

theorem always_letMatch : Always (letMatch keyword block) fun s => s.wellFormed true = true := by
  refine .after fun _ => .after fun _ => .refuse <| .after fun primary => .after fun _ =>
    .after fun _ => .refuse <| (always_hostExpression _ _ _).bind fun source hs => .after fun _ =>
      .ite (fun _ => .after fun _ => (always_arms hb _).bind fun as h => .after fun _ => .pure ?_)
        fun _ => .bind (.pure rfl) fun as (has : [] = as) => .after fun _ => .pure ?_
  · simp [Statement.wellFormed, hs.1, h]
  · simp [Statement.wellFormed, hs.1, ← has, armsWellFormed]

theorem always_branch (role : FragmentRole) : Always (branch keyword block role) fun br =>
    br.test.written = true ∧ br.body.wellFormed true = true :=
  (always_header _ _).bind fun _ he => (hb false).bind fun _ h => .pure ⟨he.1, h⟩

omit hb in
theorem branchesWellFormed_cons {br : Branch} {rest : List Branch}
    (h : br.test.written = true ∧ br.body.wellFormed true = true)
    (hrest : branchesWellFormed true rest = true) : branchesWellFormed true (br :: rest) = true := by
  cases br with
  | mk test body =>
    rw [branchesWellFormed, Bool.and_eq_true, Bool.and_eq_true]
    exact ⟨h, hrest⟩

theorem always_moreBranches (fuel : Nat) : Always (moreBranches keyword block fuel) fun p =>
    branchesWellFormed true p.1 = true ∧ p.2.all (Block.wellFormed true) = true := by
  induction fuel with
  | zero => exact .pure ⟨rfl, rfl⟩
  | succ fuel ih =>
    have hmore : ∀ role, Always (do
        let b ← branch keyword block role
        let r ← moreBranches keyword block fuel
        return (b :: r.1, r.2)) fun p =>
          branchesWellFormed true p.1 = true ∧ p.2.all (Block.wellFormed true) = true :=
      fun role => (always_branch hb role).bind fun _ h => ih.bind fun _ hrest =>
        .pure ⟨branchesWellFormed_cons h hrest.1, hrest.2⟩
    refine .after fun before => .after fun _ => .after fun _ => .ite (fun _ => .after fun _ => hmore _)
      fun _ => .after fun _ => .ite (fun _ => .after fun _ => .after fun _ => ?_)
        fun _ => .after fun _ => .pure ⟨rfl, rfl⟩
    exact .ite (fun _ => .after fun _ => hmore _) fun _ => (hb false).bind fun _ h => .pure ⟨rfl, h⟩

theorem always_conditional : Always (conditional keyword block) fun c => c.wellFormed true = true := by
  refine .after fun _ => (always_branch hb _).bind fun first h => .after fun _ =>
    (always_moreBranches hb _).bind fun more hmore => .after fun _ => .pure ?_
  obtain ⟨bs, orelse⟩ := more
  cases orelse with
  | none => simp [Conditional.wellFormed, branchesWellFormed_cons h hmore.1]
  | some b =>
    have hw : b.wellFormed true = true := hmore.2
    simp [Conditional.wellFormed, branchesWellFormed_cons h hmore.1, hw]

theorem always_whileLoop : Always (whileLoop keyword block) fun s => s.wellFormed true = true := by
  refine .after fun _ => (always_header _ _).bind fun test ht => (hb false).bind fun body hw =>
    .after fun _ => .pure ?_
  rw [Statement.wellFormed, ht.2 rfl, hw]
  rfl

theorem always_forLoop : Always (forLoop keyword block) fun s => s.wellFormed true = true := by
  refine .after fun _ => .after fun _ => .after fun _ => .refuse <| .after fun _ => .after fun _ =>
    (always_header _ _).bind fun iterable hi => (hb false).bind fun body hw => .after fun _ => .pure ?_
  rw [Statement.wellFormed, hi.1, hw]
  rfl

theorem always_nestedBlock (before : List SpacedToken) :
    Always (nestedBlock keyword block before) fun s => s.wellFormed true = true := by
  refine .after fun _ => .after fun _ => .after fun _ => (always_sinkBefore _ _ _).bind fun sink hs =>
    .after fun _ => (hb true).bind fun b hw => .after fun _ =>
      .ite (fun _ => .after fun _ => .thrown) fun _ => .after fun _ => .pure ?_
  rw [Statement.wellFormed, hs, hw]
  rfl

theorem always_statement : Always (statement keyword block) fun s => s.wellFormed true = true := by
  refine .after fun t => .after fun st => .ite (fun _ => ?_) fun _ =>
    .ite (fun _ => always_letMatch hb) fun _ => .ite (fun _ => ?_) fun _ =>
      .ite (fun _ => always_whileLoop hb) fun _ => .ite (fun _ => always_forLoop hb) fun _ => ?_
  · exact (always_escape false).bind fun _ h => .pure h
  · exact (always_conditional hb).bind fun _ h => .pure h
  · split
    · exact always_nestedBlock hb _
    · exact .after fun r => (always_hostSimple r).bind fun _ h => .pure h

theorem always_statements (opener : Token) (fuel : Nat) :
    Always (statements keyword block opener fuel) fun ss => statementsWellFormed true ss = true := by
  induction fuel with
  | zero => exact .throw _
  | succ fuel ih =>
    refine .after fun _ => .after fun _ => .refuse <| .ite (fun _ => .pure rfl) fun _ =>
      (always_statement hb).bind fun s hs => .after fun _ =>
        .ite (fun _ => .after fun _ => .after fun _ => .thrown) fun _ => ih.bind fun ss hss => .pure ?_
    rw [statementsWellFormed, hs, hss]
    rfl

omit hb in
theorem statementsWellFormed_iff {ss : List Statement} :
    statementsWellFormed true ss = true ↔ ∀ s ∈ ss, s.wellFormed true = true := by
  induction ss with
  | nil => simp [statementsWellFormed]
  | cons s ss ih => simp [statementsWellFormed, ih]

omit hb in
theorem wellFormed_of_tailOf? {s : Statement} {t : Tail} (hs : s.wellFormed true = true)
    (h : tailOf? s = some t) : t.wellFormed true = true := by
  cases s with
  | simple simple span =>
    rw [tailOf?] at h
    split at h
    · rename_i e hform hvalue
      cases h
      rw [Statement.wellFormed, hvalue] at hs
      exact hs
    · cases h
  | escape e =>
    cases h
    exact hs
  | conditional c =>
    cases h
    exact hs
  | nested sink b span =>
    rw [tailOf?] at h
    split at h
    · cases h
      rw [Statement.wellFormed, Bool.and_eq_true] at hs
      exact hs.2
    · cases h
  | letMatch primary source arms span => cases h
  | whileLoop test body span => cases h
  | forLoop target iterable body span => cases h

omit hb in
theorem wellFormed_splitTail {ss : List Statement} (h : statementsWellFormed true ss = true) (span : Span)
    (boundary : Bool) :
    (Block.mk (splitTail ss).1 (splitTail ss).2 span boundary).wellFormed true = true := by
  have hall := statementsWellFormed_iff.1 h
  unfold splitTail
  split
  · rename_i tail htail
    obtain ⟨s, hlast, htail⟩ := Option.bind_eq_some_iff.1 htail
    have ht := wellFormed_of_tailOf? (hall s (List.mem_of_getLast? hlast)) htail
    have hinit : statementsWellFormed true ss.dropLast = true :=
      statementsWellFormed_iff.2 fun s hs => hall s (List.dropLast_subset ss hs)
    simp [Block.wellFormed, hinit, ht]
  · simp [Block.wellFormed, h]

theorem always_blockBody (boundary : Bool) :
    Always (blockBody keyword block boundary) fun b => b.wellFormed true = true :=
  .after fun _ => .refuse <| .refuse <| .after fun _ => .after fun _ =>
    (always_statements hb _ _).bind fun _ h => .after fun _ => .pure (wellFormed_splitTail h _ _)

end Statements

variable (keyword : String)

theorem always_blockAt (depth : Nat) (boundary : Bool) :
    Always (blockAt keyword depth boundary) fun b => b.wellFormed true = true := by
  induction depth generalizing boundary with
  | zero => exact .after fun _ => .throw _
  | succ depth ih => exact always_blockBody ih boundary

theorem always_nextBlock (boundary : Bool) :
    Always (nextBlock keyword boundary) fun b => b.wellFormed true = true :=
  .after fun _ => always_blockAt keyword _ boundary

theorem always_wholeText : Always (wholeText keyword) fun b => b.wellFormed true = true := by
  have hrest : Always (do
      let b ← nextBlock keyword true
      skipNewlines
      let t ← peek
      if t.kind != .eof then fail (.afterBlock t.text) t.span
      return b) fun b => b.wellFormed true = true :=
    (always_nextBlock keyword true).bind fun _ h => .after fun _ => .after fun _ => .refuse (.pure h)
  exact .after fun _ => .after fun _ => .ite (fun _ => .after fun _ => hrest) fun _ => hrest

end BlockReader

namespace Block

/-- The block was read from a text, as a whole text or at one of its tokens. -/
def Accepted (b : Block) : Prop :=
  (∃ keyword text, parse keyword text = .ok b) ∨
    ∃ keyword text index boundary next, parseAt keyword text index boundary = .ok (b, next)

/-- The text reads as a block, and the block passes a test. -/
def reads (keyword text : String) (test : Block → Bool) : Bool :=
  match Block.parse keyword text with
  | .ok b => test b
  | .error _ => false

theorem exists_parse_of_reads {keyword text : String} {test : Block → Bool}
    (h : reads keyword text test = true) : ∃ b, Block.parse keyword text = .ok b ∧ test b = true := by
  unfold reads at h
  split at h
  · exact ⟨_, ‹_›, h⟩
  · cases h

theorem Accepted.wellFormed {b : Block} (h : b.Accepted) : b.wellFormed true = true := by
  rcases h with ⟨keyword, text, h⟩ | ⟨keyword, text, index, boundary, next, h⟩
  · rw [parse] at h
    split at h
    · cases h
    · exact BlockReader.always_wholeText keyword (Prod.ext h rfl)
  · rw [parseAt] at h
    split at h
    · cases h
    · split at h
      · rename_i hr
        cases h
        exact BlockReader.always_nextBlock keyword boundary hr
      · cases h

end Block

end DoBlocks
