import DoBlocks.Host.Tree

/-!
# Patterns

A pattern is host text; the only thing known of it is whether it matches every subject.
-/

namespace DoBlocks

/-- A host pattern. -/
structure Pattern where
  text : Host.Surface
  irrefutable : Bool
  deriving Repr, DecidableEq, Inhabited

namespace Pattern

/-- The pattern that matches everything and binds nothing. -/
def wildcard : Pattern := ⟨.ofString "_", true⟩

end Pattern

namespace Host.Tree

mutual

/-- A pattern that matches every subject: a capture, the wildcard, one of these with a name for it or
in parentheses, or alternatives one of which is such a pattern. -/
def isIrrefutable : Tree → Bool
  | .leaf _ => false
  | .node .capture _ => true
  | .node .wildcard _ => true
  | .node .asPattern (inner :: _) => inner.isIrrefutable
  | .node .groupPattern children => anyIrrefutable children
  | .node .orPattern children => anyIrrefutable children
  | .node _ _ => false

/-- One of the trees matches every subject. -/
def anyIrrefutable : List Tree → Bool
  | [] => false
  | t :: rest => t.isIrrefutable || anyIrrefutable rest

end

def toPattern (t : Tree) : Pattern := ⟨t.surface, t.isIrrefutable⟩

end Host.Tree

end DoBlocks
