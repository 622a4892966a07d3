import DoBlocks.Text.Ranges

/-!
# Blanks and lines

Which characters count as blanks at the ends of a text, and which characters end a line when a text
is cut into lines.
-/

namespace DoBlocks.Text

def blankRanges : List (Nat × Nat) :=
  [(0x85, 0x85), (0xA0, 0xA0), (0x1680, 0x1680), (0x2000, 0x200A), (0x2028, 0x2029), (0x202F, 0x202F),
   (0x205F, 0x205F), (0x3000, 0x3000)]

/-- White space of any script, including the four separator controls. -/
def isBlank (c : Char) : Bool :=
  let n := c.toNat
  if n < 128 then (decide (9 ≤ n) && decide (n ≤ 13)) || (decide (28 ≤ n) && decide (n ≤ 32))
  else inRanges blankRanges n

/-- The text without the blanks at its ends. -/
def strip (s : String) : String :=
  String.ofList ((s.toList.dropWhile isBlank).reverse.dropWhile isBlank).reverse

/-- The text without the blanks at its right end. -/
def stripRight (s : String) : String :=
  String.ofList (s.toList.reverse.dropWhile isBlank).reverse

/-- Characters that end a line; a carriage return and a line feed together end one line. -/
def isLineEnd (c : Char) : Bool :=
  let n := c.toNat
  (decide (10 ≤ n) && decide (n ≤ 13)) || (decide (28 ≤ n) && decide (n ≤ 30)) || n == 0x85 ||
    n == 0x2028 || n == 0x2029

/-- The lines of a text with `current` (reversed) already read; a line end at the end of the text
starts no further line. -/
def linesFrom (current : List Char) : List Char → List (List Char)
  | [] => if current.isEmpty then [] else [current.reverse]
  | '\r' :: '\n' :: rest => current.reverse :: linesFrom [] rest
  | c :: rest =>
    if isLineEnd c then current.reverse :: linesFrom [] rest else linesFrom (c :: current) rest

/-- The lines of a text, without their ends. -/
def splitLines (s : String) : List String := (linesFrom [] s.toList).map String.ofList

end DoBlocks.Text
