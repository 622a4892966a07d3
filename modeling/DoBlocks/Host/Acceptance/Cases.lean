import DoBlocks.Host.Literal
import DoBlocks.Host.Tree

/-!
# Cases of a match

A pattern that always matches must come last. The alternatives of a pattern bind the same names, no
name is bound twice, a sequence has one star at most, and the keys and attributes of a pattern
differ.
-/

namespace DoBlocks.Host.Cases

/-! ### Reach -/

mutual

/-- No part of a pattern is cut off by one that always matches. `last` tells that this pattern may
match always. -/
def reachable (last : Bool) : Tree → Bool
  | .leaf _ => true
  | .node .capture _ => last
  | .node .wildcard _ => last
  | .node .groupPattern children => reachableAll last children
  | .node .asPattern children =>
    match children with
    | p :: _ => reachable last p
    | [] => true
  | .node .orPattern children => alternativesReachable last children
  | .node .starPattern _ => true
  | .node _ children => reachableAll true children

def reachableAll (last : Bool) : List Tree → Bool
  | [] => true
  | t :: rest => reachable last t && reachableAll last rest

/-- Only the last alternative may match always. -/
def alternativesReachable (last : Bool) : List Tree → Bool
  | [] => true
  | t :: rest => reachable (last && rest.isEmpty) t && alternativesReachable last rest

end

/-! ### Names -/

def distinct : List String → Bool
  | [] => true
  | n :: rest => !rest.contains n && distinct rest

def sameNames (a b : List String) : Bool :=
  a.length == b.length && a.all fun n => b.contains n

mutual

/-- The names that a pattern binds; `none` if it binds one twice or its alternatives differ. -/
def names? : Tree → Option (List String)
  | .leaf _ => some []
  | .node .capture children =>
    some (children.filterMap fun t =>
      match t with
      | .leaf l => some l.text
      | .node _ _ => none)
  | .node .orPattern children => alternativeNames? children
  | .node .attribute _ => some []
  | .node .name _ => some []
  | .node _ children => (allNames? children).bind fun ns => if distinct ns then some ns else none

def allNames? : List Tree → Option (List String)
  | [] => some []
  | t :: rest => do
    let ns ← names? t
    let more ← allNames? rest
    return ns ++ more

/-- The names of alternatives, all of which bind the same. -/
def alternativeNames? : List Tree → Option (List String)
  | [] => some []
  | .leaf _ :: rest => alternativeNames? rest
  | .node k children :: rest => do
    let ns ← names? (.node k children)
    let more ← alternativeNames? rest
    if rest.isEmpty || sameNames ns more then some ns else none

end

/-! ### Keys -/

/-- What a literal key of a mapping pattern stands for. -/
inductive Key where
  | none
  | text (cs : List Nat)
  | bytes (cs : List Nat)
  | number (real imaginary : Decimal)
  deriving Repr, DecidableEq, Inhabited

/-- The value of a number, perhaps with a minus sign. -/
def numberKey? : Tree → Option Key
  | .node .number [.leaf l] =>
    let cs := l.text.toList
    match cs.getLast? with
    | some c =>
      if (c == 'j' || c == 'J') then some (.number ⟨0, 0⟩ (Decimal.ofDigits cs.dropLast))
      else some (.number (Decimal.ofLiteral cs) ⟨0, 0⟩)
    | Option.none => Option.none
  | .node .unary [_, t] =>
    match numberKey? t with
    | some (.number re im) => some (.number re.neg im.neg)
    | k => k
  | _ => Option.none

/-- The value of a string without fields. -/
def stringKey? (t : Tree) : Option Key :=
  let parts := t.lexemes.map fun l => StringParts.ofText l.text.toList
  (parts.mapM StringParts.value?).map fun vs =>
    if parts.any StringParts.isBytes then .bytes vs.flatten else .text vs.flatten

/-- What a key stands for, if it is a literal. -/
def key? (t : Tree) : Option Key :=
  match t with
  | .node .constant [.leaf l] =>
    if l.text == "True" then some (.number ⟨1, 0⟩ ⟨0, 0⟩)
    else if l.text == "False" then some (.number ⟨0, 0⟩ ⟨0, 0⟩)
    else some .none
  | .node .binary [a, .leaf sign, b] =>
    match numberKey? a, numberKey? b with
    | some (.number re _), some (.number _ im) =>
      some (.number re (if sign.text == "-" then im.neg else im))
    | _, _ => Option.none
  | .node .string _ => stringKey? t
  | .node .concatenated _ => stringKey? t
  | .node .joined _ => Option.none
  | .node .attribute _ => Option.none
  | _ => numberKey? t

def distinctKeys : List Key → Bool
  | [] => true
  | k :: rest => !rest.contains k && distinctKeys rest

/-! ### Patterns -/

/-- A literal has no replacement fields. -/
def isPlain (t : Tree) : Bool := !t.is .joined && !t.children.any fun u => u.is .joined

/-- The place of the first star; nothing limits what comes after it. -/
def maxBeforeStar : Nat := 256

def nodeFits (k : Kind) (children : List Tree) : Bool :=
  match k with
  | .literalPattern => children.all isPlain
  | .mappingItem => (children.take 1).all isPlain
  | .sequencePattern | .openSequence =>
    let parts := children.filter fun t => t.kind?.isSome
    decide (parts.countP (fun t => t.is .starPattern) ≤ 1) &&
      decide ((parts.takeWhile fun t => !t.is .starPattern).length < maxBeforeStar ||
        !parts.any fun t => t.is .starPattern)
  | .mappingPattern =>
    distinctKeys ((children.filter fun t => t.is .mappingItem).filterMap fun item =>
      item.children.head?.bind key?)
  | .classPattern =>
    let attributes := (children.filter fun t => t.is .keywordPattern).filterMap fun p =>
      p.children.head?.bind Tree.word?
    distinct attributes && !attributes.contains "__debug__"
  | _ => true

mutual

def partsFit : Tree → Bool
  | .leaf _ => true
  | .node k children => nodeFits k children && allPartsFit children

def allPartsFit : List Tree → Bool
  | [] => true
  | t :: rest => partsFit t && allPartsFit rest

end

/-- A case is in order; `last` tells that no case comes after it. -/
def caseFits (last : Bool) (clause : Tree) : Bool :=
  let guarded := !(clause.partsOf .guard).isEmpty
  (clause.parts.take 1).all fun p =>
    reachable (last || guarded) p && (names? p).isSome && partsFit p

def fit : List Tree → Bool
  | [] => true
  | c :: rest => caseFits rest.isEmpty c && fit rest

end DoBlocks.Host.Cases
