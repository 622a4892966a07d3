import DoBlocks.Proofs.Accepted

/-!
# The blocks inside a block

The bodies of arms, branches and loops, and the boundary blocks inside a block. What a well-formed block
holds is well-formed.
-/

namespace DoBlocks

mutual

/-- The block and all blocks inside it. -/
def Block.blocks : Block → List Block
  | .mk ss tail span boundary =>
    .mk ss tail span boundary :: (blocksOf ss ++
      match tail with
      | none => []
      | some t => t.blocks)

def Tail.blocks : Tail → List Block
  | .conditional c => c.blocks
  | .block b => b.blocks
  | _ => []

def blocksOf : List Statement → List Block
  | [] => []
  | s :: rest => s.blocks ++ blocksOf rest

def Statement.blocks : Statement → List Block
  | .letMatch _ _ arms _ => blocksOfArms arms
  | .conditional c => c.blocks
  | .whileLoop _ body _ => body.blocks
  | .forLoop _ _ body _ => body.blocks
  | .nested _ b _ => b.blocks
  | _ => []

def blocksOfArms : List Arm → List Block
  | [] => []
  | .mk _ _ body _ _ :: rest => body.blocks ++ blocksOfArms rest

def Conditional.blocks : Conditional → List Block
  | .mk branches orelse _ =>
    blocksOfBranches branches ++
      match orelse with
      | none => []
      | some b => b.blocks

def blocksOfBranches : List Branch → List Block
  | [] => []
  | .mk _ body :: rest => body.blocks ++ blocksOfBranches rest

end

section Blocks

variable {guards : Bool} {c : Block}

mutual

theorem Block.wellFormed_of_mem : ∀ {b : Block}, b.wellFormed guards = true → c ∈ b.blocks →
    c.wellFormed guards = true
  | .mk ss none _ _, hb, hc => by
    rw [Block.blocks, List.append_nil] at hc
    rcases List.mem_cons.1 hc with rfl | hc
    · exact hb
    · rw [Block.wellFormed, Bool.and_true] at hb
      exact wellFormed_of_mem_blocksOf hb hc
  | .mk ss (some t) _ _, hb, hc => by
    rw [Block.blocks] at hc
    rcases List.mem_cons.1 hc with rfl | hc
    · exact hb
    · simp only [Block.wellFormed, Bool.and_eq_true] at hb
      rcases List.mem_append.1 hc with hc | hc
      · exact wellFormed_of_mem_blocksOf hb.1 hc
      · exact Tail.wellFormed_of_mem hb.2 hc

theorem Tail.wellFormed_of_mem : ∀ {t : Tail}, t.wellFormed guards = true → c ∈ t.blocks →
    c.wellFormed guards = true
  | .value _, _, hc => nomatch hc
  | .escape _, _, hc => nomatch hc
  | .conditional _, h, hc => Conditional.wellFormed_of_mem h hc
  | .block _, h, hc => Block.wellFormed_of_mem h hc

theorem wellFormed_of_mem_blocksOf : ∀ {ss : List Statement}, statementsWellFormed guards ss = true →
    c ∈ blocksOf ss → c.wellFormed guards = true
  | [], _, hc => nomatch hc
  | s :: rest, hs, hc => by
    simp only [statementsWellFormed, Bool.and_eq_true] at hs
    rcases List.mem_append.1 hc with hc | hc
    · exact Statement.wellFormed_of_mem hs.1 hc
    · exact wellFormed_of_mem_blocksOf hs.2 hc

theorem Statement.wellFormed_of_mem : ∀ {s : Statement}, s.wellFormed guards = true → c ∈ s.blocks →
    c.wellFormed guards = true
  | .simple _ _, _, hc => nomatch hc
  | .escape _, _, hc => nomatch hc
  | .letMatch _ _ arms _, hs, hc => by
    simp only [Statement.wellFormed, Bool.and_eq_true] at hs
    exact wellFormed_of_mem_blocksOfArms hs.2 hc
  | .conditional _, hs, hc => Conditional.wellFormed_of_mem hs hc
  | .whileLoop _ body _, hs, hc => by
    simp only [Statement.wellFormed, Bool.and_eq_true] at hs
    exact Block.wellFormed_of_mem hs.2 hc
  | .forLoop _ _ body _, hs, hc => by
    simp only [Statement.wellFormed, Bool.and_eq_true] at hs
    exact Block.wellFormed_of_mem hs.2 hc
  | .nested _ b _, hs, hc => by
    simp only [Statement.wellFormed, Bool.and_eq_true] at hs
    exact Block.wellFormed_of_mem hs.2 hc

theorem wellFormed_of_mem_blocksOfArms : ∀ {arms : List Arm}, armsWellFormed guards arms = true →
    c ∈ blocksOfArms arms → c.wellFormed guards = true
  | [], _, hc => nomatch hc
  | .mk _ _ body _ _ :: rest, ha, hc => by
    simp only [armsWellFormed, Bool.and_eq_true] at ha
    rcases List.mem_append.1 hc with hc | hc
    · exact Block.wellFormed_of_mem ha.1.2 hc
    · exact wellFormed_of_mem_blocksOfArms ha.2 hc

theorem Conditional.wellFormed_of_mem : ∀ {x : Conditional}, x.wellFormed guards = true → c ∈ x.blocks →
    c.wellFormed guards = true
  | .mk bs none _, h, hc => by
    simp only [Conditional.wellFormed, Bool.and_eq_true] at h
    rw [Conditional.blocks, List.append_nil] at hc
    exact wellFormed_of_mem_blocksOfBranches h.1.2 hc
  | .mk bs (some b) _, h, hc => by
    simp only [Conditional.wellFormed, Bool.and_eq_true] at h
    rcases List.mem_append.1 hc with hc | hc
    · exact wellFormed_of_mem_blocksOfBranches h.1.2 hc
    · exact Block.wellFormed_of_mem h.2 hc

theorem wellFormed_of_mem_blocksOfBranches : ∀ {bs : List Branch}, branchesWellFormed guards bs = true →
    c ∈ blocksOfBranches bs → c.wellFormed guards = true
  | [], _, hc => nomatch hc
  | .mk _ body :: rest, hb, hc => by
    simp only [branchesWellFormed, Bool.and_eq_true] at hb
    rcases List.mem_append.1 hc with hc | hc
    · exact Block.wellFormed_of_mem hb.1.2 hc
    · exact wellFormed_of_mem_blocksOfBranches hb.2 hc

end

theorem Block.statement_wellFormed {b : Block} {s : Statement} (hb : b.wellFormed true = true)
    (hs : s ∈ b.statements) : s.wellFormed true = true := by
  obtain ⟨ss, tail, span, boundary⟩ := b
  refine BlockReader.statementsWellFormed_iff.1 ?_ s hs
  cases tail with
  | none => simpa [Block.wellFormed, Block.statements] using hb
  | some t =>
    rw [Block.wellFormed, Bool.and_eq_true] at hb
    exact hb.1

end Blocks

end DoBlocks
