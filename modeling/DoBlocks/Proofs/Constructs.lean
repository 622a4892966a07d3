import DoBlocks.Proofs.LoweringSteps

/-!
# How constructs are lowered

What lowering has written for each construct of a block when it succeeds, and from what: one statement for
each construct, so that a fact about lowered code needs no look at the steps themselves.
-/

namespace DoBlocks.Yields

open Lowering

variable {guards : Bool} {span : Span} {sink : Sink} {st st' : State} {stmts : List Lowered}
variable {rest : List Branch} {escapes : Bool} {orelse result : Option (List Lowered)}

/-- After a statement that leaves nothing is written; otherwise what follows it is. -/
theorem andThen_cases {here rest : Lower (List Lowered)} {leaves : Bool}
    (h : Yields (andThen here leaves rest) st stmts st') :
    (leaves = true ∧ Yields here st stmts st') ∨
      leaves = false ∧ ∃ first t later, Yields here st first t ∧ Yields rest t later st' ∧
        stmts = first ++ later := by
  obtain ⟨first, t, hfirst, h⟩ := bind_iff.1 h
  split at h
  · obtain ⟨rfl, rfl⟩ := pure_iff.1 h
    exact .inl ⟨‹_›, hfirst⟩
  · obtain ⟨later, t', hlater, h⟩ := bind_iff.1 h
    obtain ⟨rfl, rfl⟩ := pure_iff.1 h
    exact .inr ⟨Bool.eq_false_iff.2 ‹_›, first, t, later, hfirst, hlater, rfl⟩

/-- What follows a lifted expression is written if the expression has a value. -/
theorem lift_bind_cases {e : Expr} {f : Expr → Lower (List Lowered)}
    (h : Yields (do
      let (prelude, value) ← lift span e
      match value with
      | none => return prelude
      | some v => return prelude ++ (← f v)) st stmts st') :
    Yields (lift span e) st (stmts, none) st' ∨
      ∃ prelude v t later, Yields (lift span e) st (prelude, some v) t ∧ Yields (f v) t later st' ∧
        stmts = prelude ++ later := by
  obtain ⟨⟨prelude, value⟩, t, hl, h⟩ := bind_iff.1 h
  cases value with
  | none =>
    obtain ⟨rfl, rfl⟩ := pure_iff.1 h
    exact .inl hl
  | some v =>
    obtain ⟨later, t', hlater, h⟩ := bind_iff.1 h
    obtain ⟨rfl, rfl⟩ := pure_iff.1 h
    exact .inr ⟨prelude, v, t, later, hl, hlater, rfl⟩

theorem lowerEscape_cases {e : Escape} (h : Yields (lowerEscape e) st stmts st') :
    Yields (lift e.span e.value) st (stmts, none) st' ∨
      ∃ prelude v w, Yields (lift e.span e.value) st (prelude, some v) st' ∧ st'.wrapper = some w ∧
        stmts = prelude ++ leaveWrapper w v := by
  obtain hl | ⟨prelude, v, t, later, hl, he, rfl⟩ := lift_bind_cases h
  · exact .inl hl
  · obtain ⟨w, hw, rfl, rfl⟩ := escapeTo_iff.1 he
    exact .inr ⟨prelude, v, w, hl, hw, rfl⟩

/-! ### Matches and loops -/

/-- A match takes the rest of its block into its first case. With guards it leaves no value to what comes
after it. -/
theorem letMatch_cases {finish : Lower (List Lowered)} {primary : Pattern} {source : Expr} {arms : List Arm}
    {rest : List Statement}
    (h : Yields (lowerStatements guards finish (.letMatch primary source arms span :: rest)) st stmts st') :
    Yields (lift span source) st (stmts, none) st' ∨
      ∃ prelude e t body t₁ cases t₂ catchAll, Yields (lift span source) st (prelude, some e) t ∧
        Yields (lowerStatements guards finish rest) t body t₁ ∧ Yields (lowerArms guards arms) t₁ cases t₂ ∧
        (guards = true → isCovered (.mk primary none (Lowered.suite body) :: cases) = true ∨
          catchAll.isSome = true) ∧
        stmts = prelude ++ [.matchOn e (.mk primary none (Lowered.suite body) :: cases) catchAll] := by
  obtain ⟨⟨prelude, source?⟩, t, hl, h⟩ := bind_iff.1 h
  cases source? with
  | none =>
    obtain ⟨rfl, rfl⟩ := pure_iff.1 h
    exact .inl hl
  | some e =>
    obtain ⟨body, t₁, hbody, h⟩ := bind_iff.1 h
    obtain ⟨cases, t₂, hcases, h⟩ := bind_iff.1 h
    obtain ⟨m, t₃, hm, h⟩ := bind_iff.1 h
    obtain ⟨rfl, rfl⟩ := pure_iff.1 h
    obtain ⟨hc, rfl⟩ | ⟨-, -, c, rfl⟩ := hm.closeMatch_cases
    · refine .inr ⟨prelude, e, t, body, t₁, cases, t₂, none, hl, hbody, hcases, fun hg => .inl ?_, rfl⟩
      exact hc.resolve_right (by rw [hg]; decide)
    · exact .inr ⟨prelude, e, t, body, t₁, cases, t₂, some c, hl, hbody, hcases, fun _ => .inr rfl, rfl⟩

/-- A host loop is followed at most by the test of the flag. -/
theorem loop_cases {inside : Lower (List Lowered)} {prelude : List Lowered} {loop : List Lowered → Lowered}
    (h : Yields (do
      let body ← withLoop inside
      return prelude ++ loop (Lowered.suite body) :: (← afterLoop escapes)) st stmts st') :
    ∃ body t after, Yields inside { st with loopDepth := st.loopDepth + 1 } body t ∧
      (after = [] ∨ ∃ w : WrapperNames, after = [.branch [.mk (.expr (.hidden w.exit)) [.break]] none]) ∧
      stmts = prelude ++ loop (Lowered.suite body) :: after := by
  obtain ⟨body, u, hw, h⟩ := bind_iff.1 h
  obtain ⟨after, v, hafter, h⟩ := bind_iff.1 h
  obtain ⟨rfl, rfl⟩ := pure_iff.1 h
  obtain ⟨t, hin, -⟩ := withLoop_iff.1 hw
  refine ⟨body, t, after, hin, ?_, rfl⟩
  obtain ⟨w, -, -, rfl⟩ | ⟨-, rfl⟩ := hafter.afterLoop_cases
  · exact .inr ⟨w, rfl⟩
  · exact .inl rfl

/-! ### Branches -/

/-- The branches of a conditional are lowered before a final `else`: its own, or what a sink without a value
gets. -/
theorem lowerConditional_cases {branches : List Branch} {orelse : Option Block}
    (h : Yields (lowerConditional guards sink (.mk branches orelse span)) st stmts st') :
    ∃ other t result, Yields (lowerBranches guards sink span other branches) t result st' ∧
      stmts = result.getD [] ∧
      ((∃ b body, orelse = some b ∧ Yields (lowerBlock guards sink b) st body t ∧
          other = some (Lowered.suite body)) ∨
        ∃ body, orelse = none ∧ deliver sink none = .ok body ∧ t = st ∧
          other = if body.isEmpty then none else some body) := by
  cases orelse with
  | some b =>
    obtain ⟨body, t, hb, h⟩ := bind_iff.1 h
    obtain ⟨result, u, hr, h⟩ := bind_iff.1 (pure_bind_iff.1 h)
    obtain ⟨rfl, rfl⟩ := pure_iff.1 h
    exact ⟨_, t, result, hr, rfl, .inl ⟨b, body, rfl, hb, rfl⟩⟩
  | none =>
    obtain ⟨body, t, hd, h⟩ := bind_iff.1 h
    obtain ⟨result, u, hr, h⟩ := bind_iff.1 (pure_bind_iff.1 h)
    obtain ⟨rfl, rfl⟩ := pure_iff.1 h
    obtain ⟨hdeliver, rfl⟩ := delivered_iff.1 hd
    exact ⟨_, _, result, hr, rfl, .inr ⟨body, rfl, hdeliver, rfl, rfl⟩⟩

/-- The later branches are lowered first and continue the branch in front of them, unless its test always
escapes. -/
theorem lowerBranches_cons {test : Expr} {body : Block}
    (h : Yields (lowerBranches guards sink span orelse (.mk test body :: rest)) st result st') :
    ∃ later t prelude, Yields (lowerBranches guards sink span orelse rest) st later t ∧
      ((Yields (lift span test) t (prelude, none) st' ∧ result = some prelude) ∨
        ∃ e u inside, Yields (lift span test) t (prelude, some e) u ∧
          Yields (lowerBlock guards sink body) u inside st' ∧
          result = some (prelude ++ [.branch
            (.mk (.expr e) (Lowered.suite inside) :: ((later.map continueWith).getD ([], orelse)).1)
            ((later.map continueWith).getD ([], orelse)).2])) := by
  rw [lowerBranches] at h
  obtain ⟨later, t, hlater, h⟩ := bind_iff.1 h
  obtain ⟨⟨prelude, test?⟩, u, hl, h⟩ := bind_iff.1 h
  refine ⟨later, t, prelude, hlater, ?_⟩
  cases test? with
  | none =>
    obtain ⟨rfl, rfl⟩ := pure_iff.1 h
    exact .inl ⟨hl, rfl⟩
  | some e =>
    obtain ⟨inside, v, hin, h⟩ := bind_iff.1 h
    obtain ⟨rfl, rfl⟩ := pure_iff.1 h
    exact .inr ⟨e, u, inside, hl, hin, rfl⟩

theorem exists_of_lowerBranches {branch : Branch}
    (h : Yields (lowerBranches guards sink span orelse (branch :: rest)) st result st') :
    ∃ chain, result = some chain := by
  obtain ⟨test, body⟩ := branch
  obtain ⟨_, _, _, -, ⟨-, rfl⟩ | ⟨_, _, _, -, -, rfl⟩⟩ := h.lowerBranches_cons
  · exact ⟨_, rfl⟩
  · exact ⟨_, rfl⟩

/-! ### Boundary blocks -/

/-- A boundary block is lowered at its place, or inside a loop that is followed by the delivery of its result
slot. -/
theorem boundary_cases {inside : Sink → Lower (List Lowered)} {r : Result}
    (h : Yields (boundary escapes span sink inside) st r st') :
    (escapes = false ∧ ∃ t, Yields (inside sink) t r.body st' ∧ t.wrapper = st.wrapper ∧
        t.loopDepth = st.loopDepth) ∨
      escapes = true ∧ ∃ w t t' tree after, Yields (inside (innerSink w)) t tree t' ∧
        t.wrapper = some w ∧ t.loopDepth = 0 ∧
        (if sink.isDiscard then after = [] else deliver sink (some (.hidden w.result)) = .ok after) ∧
        r.body = [.set (.hidden w.result) (.constant .none), .set (.hidden w.exit) (.constant .false),
          .whileLoop (.not w.exit) (Lowered.suite tree)] ++ after := by
  cases escapes with
  | false =>
    obtain ⟨t, hy, -, hw, hl⟩ := h.boundary_false
    exact .inl ⟨rfl, t, hy, hw, hl⟩
  | true =>
    obtain ⟨w, t, t', tree, after, hy, -, -, -, -, hw, hl, ha, hb, -⟩ := h.boundary_true
    exact .inr ⟨rfl, w, t, t', tree, after, hy, hw, hl, ha, hb⟩

end DoBlocks.Yields
