/-!
# Places in a text

A `Position` is a line, counted from one, and a column, counted from zero. A `Span` runs from the
position of its first character to the position just after its last.
-/

namespace DoBlocks

/-- A line (from one) and a column (from zero). -/
structure Position where
  line : Int
  column : Int
  deriving Repr, DecidableEq, Inhabited

/-- The written form of a position; its column counts from one. -/
def Position.render (p : Position) : String := s!"{p.line}:{p.column + 1}"

/-- A stretch of text from `start` up to, and not including, `stop`. -/
structure Span where
  start : Position
  stop : Position
  deriving Repr, DecidableEq, Inhabited

namespace Span

def render (s : Span) : String := s.start.render

/-- The span from the start of `a` to the end of `b`. -/
def through (a b : Span) : Span := ⟨a.start, b.stop⟩

@[simp] theorem through_start (a b : Span) : (a.through b).start = a.start := rfl

@[simp] theorem through_stop (a b : Span) : (a.through b).stop = b.stop := rfl

end Span

end DoBlocks
