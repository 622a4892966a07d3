/-!
# Host text that follows its surroundings

A `Surface` is host text as it was written, except that a line break inside brackets may be followed
by a `margin`: the indentation of whatever statement the text ends up in. Text in strings and after a
line continuation never moves.
-/

namespace DoBlocks.Host

/-- A piece of host text. -/
inductive Piece where
  /-- Characters as written. -/
  | text (s : String)
  /-- The indentation of the enclosing statement. -/
  | margin
  deriving Repr, DecidableEq, Inhabited

abbrev Surface := List Piece

namespace Surface

def ofString (s : String) : Surface := [.text s]

/-- The characters of a piece inside a statement indented by `margin`. -/
def pieceText (margin : String) : Piece → String
  | .text s => s
  | .margin => margin

/-- The characters of a surface inside a statement indented by `margin`. -/
def render (margin : String) (s : Surface) : String :=
  String.join (s.map (pieceText margin))

def plain (s : Surface) : String := s.render ""

theorem render_nil (m : String) : render m [] = "" := rfl

end Surface

end DoBlocks.Host
