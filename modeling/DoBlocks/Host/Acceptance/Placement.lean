import DoBlocks.Host.Acceptance.Cases
import DoBlocks.Host.Acceptance.Scope

/-!
# What may stand where

`break` and `continue` need a loop around them, nothing leaves a handler of a group of exceptions,
statements nest twenty deep at most, and starred expressions stand in displays only. The tree is
walked from the top with the statements around each node.
-/

namespace DoBlocks.Host.Placement

/-- A part of a statement that has to be left when control goes past it. -/
inductive Frame where
  | loop
  | guarded
  | handler
  | groupHandler
  | cleanup
  | withItem
  deriving Repr, DecidableEq, Inhabited

def maxFrames : Nat := 20

/-- Control can go to the innermost loop. -/
def canLeaveLoop : List Frame → Bool
  | [] => false
  | .loop :: _ => true
  | .groupHandler :: _ => false
  | _ :: outer => canLeaveLoop outer

def framesFor (frames : List Frame) (k : Kind) (children : List Tree) (child : Tree) : List Frame :=
  match k with
  | .whileLoop | .forLoop => if child.is .suite then .loop :: frames else frames
  | .function | .classDefinition => if child.is .suite then [] else frames
  | .withStatement =>
    if child.is .suite then (children.filter fun t => t.is .withItem).map (fun _ => .withItem) ++ frames
    else frames
  | .tryStatement =>
    let inside := if children.any fun t => t.is .finallySuite then .guarded :: frames else frames
    if child.is .suite then
      if children.any fun t => t.is .handler || t.is .starHandler then .guarded :: inside else inside
    else if child.is .handler then .cleanup :: .handler :: inside
    else if child.is .starHandler then .cleanup :: .groupHandler :: inside
    else if child.is .finallySuite then .cleanup :: frames
    else inside
  | _ => frames

/-! ### Targets -/

def targets (k : Kind) (children : List Tree) : List Tree :=
  if k == .assign || k == .forLoop || k == .comprehensionFor || k == .withItem ||
      k == .annotatedAssign then
    ((children.zip (Item.roles .load k children)).filter fun c =>
      c.2 == .store || c.2 == .iterate).map Prod.fst
  else []

/-- One star at most among the elements of a target, and not too many before it. -/
def starsFit (children : List Tree) : Bool :=
  let parts := children.filter fun t => t.kind?.isSome
  let before := parts.takeWhile fun t => !t.is .starred
  decide (parts.countP (fun t => t.is .starred) ≤ 1) &&
    (before.length == parts.length || decide (before.length < Cases.maxBeforeStar))

mutual

def targetFits : Tree → Bool
  | .leaf _ => true
  | .node .attribute children =>
    (children.getLast?.bind Tree.word?) != some debugConstant
  | .node .paren children => targetsFit children
  | .node .starred children => targetsFit children
  | .node .tuple children => starsFit children && targetsFit children
  | .node .parenTuple children => starsFit children && targetsFit children
  | .node .list children => starsFit children && targetsFit children
  | .node _ _ => true

def targetsFit : List Tree → Bool
  | [] => true
  | t :: rest => targetFits t && targetsFit rest

end

/-! ### Nodes -/

def takesStars : Kind → Bool
  | .tuple | .parenTuple | .list | .set | .subscript | .typeMark => true
  | _ => false

def keywordsFit (children : List Tree) : Bool :=
  let names := (children.filter fun t => t.is .keywordArgument).filterMap fun a =>
    a.children.head?.bind Tree.word?
  Cases.distinct names && !names.contains debugConstant

/-- Only the last handler may catch everything. -/
def handlersFit : List Tree → Bool
  | [] => true
  | h :: rest => (decide (1 < h.parts.length) || rest.isEmpty) && handlersFit rest

def nodeFits (frames : List Frame) (k : Kind) (children : List Tree) : Bool :=
  decide (frames.length ≤ maxFrames) &&
  (takesStars k || !children.any fun t => t.is .starred) &&
  (targets k children).all targetFits &&
  match k with
  | .breakStatement | .continueStatement => canLeaveLoop frames
  | .returnStatement => !frames.contains .groupHandler
  | .call | .classDefinition => keywordsFit children
  | .tryStatement => handlersFit (children.filter fun t => t.is .handler)
  | .matchStatement => Cases.fit (children.filter fun t => t.is .caseClause)
  | _ => true

/-- Where a node stands: the frames around it, and whether it is part of a function. -/
structure Place where
  frames : List Frame
  inFunction : Bool
  deriving Repr, DecidableEq, Inhabited

def Place.top : Place := ⟨[], false⟩

/-- Where a child of a node stands; `none` if it is a type that nobody evaluates. `texts` tells that
types are kept as text. -/
def placeFor (texts : Bool) (p : Place) (k : Kind) (children : List Tree) (child : Tree) :
    Option Place :=
  if child.is .typeMark && (texts || (k == .annotatedAssign && p.inFunction)) then none
  else
    let inFunction :=
      if child.is .suite && k == .function then true
      else if child.is .suite && k == .classDefinition then false
      else p.inFunction
    some ⟨framesFor p.frames k children child, inFunction⟩

mutual

def fits (texts : Bool) (p : Place) : Tree → Bool
  | .leaf _ => true
  | .node k children =>
    nodeFits p.frames k children && allFit texts (children.map (placeFor texts p k children)) children

def allFit (texts : Bool) : List (Option Place) → List Tree → Bool
  | some p :: more, t :: rest => fits texts p t && allFit texts more rest
  | none :: more, _ :: rest => allFit texts more rest
  | _, _ => true

end

end DoBlocks.Host.Placement
