import DoBlocks.Text.Blank
import DoBlocks.Text.Width

/-!
# Wrapping

Lines are broken before the first word that no longer fits. A word that fits on no line is cut where
the line is full. Blanks stay with the word before them and may hang over the end of a line.
-/

namespace DoBlocks.Text

/-- The words of a line: blanks before the first word belong to it, blanks after a word to the word.
`word` (reversed) is being read; `ended` says that it has had its first blank behind it. -/
def wordsFrom (word : List Char) (ended : Bool) : List Char → List (List Char)
  | [] => if word.isEmpty then [] else [word.reverse]
  | c :: rest =>
    if isBlank c then wordsFrom (c :: word) (word.any fun d => !isBlank d) rest
    else if ended then word.reverse :: wordsFrom [c] false rest
    else wordsFrom (c :: word) false rest

/-- A line without the blanks at its end. -/
def trimRight (cs : List Char) : List Char := (cs.reverse.dropWhile isBlank).reverse

/-- Cuts a word into pieces that take at most `room` columns; `piece` (reversed) is being filled and
takes `used` columns. -/
def chop (room : Nat) (piece : List Char) (used : Nat) : List Char → List (List Char)
  | [] => [piece.reverse]
  | c :: rest =>
    if used + charWidth c > room then piece.reverse :: chop room [c] (charWidth c) rest
    else chop room (c :: piece) (used + charWidth c) rest

/-- Puts words on lines of `room` columns; `line` holds what the current line has so far and takes
`used` columns. -/
def fill (room : Nat) (line : List Char) (used : Nat) : List (List Char) → List (List Char)
  | [] => [line]
  | word :: rest =>
    let need := width (trimRight word)
    if used + need ≤ room then fill room (line ++ word) (used + width word) rest
    else if need ≤ room then line :: fill room word (width word) rest
    else
      let pieces := chop room [] 0 word
      let lines := if line.isEmpty then pieces else line :: pieces
      let last := lines.getLastD []
      lines.dropLast ++ fill room last (width last) rest

/-- Tabs become blanks up to the next multiple of eight columns, at least one. -/
def expandTabs (used : Nat) : List Char → List Char
  | [] => []
  | '\t' :: rest =>
    let gap := 8 - used % 8
    List.replicate gap ' ' ++ expandTabs (used + gap) rest
  | c :: rest => c :: expandTabs (used + charWidth c) rest

/-- The lines of a text on a page of `room` columns. -/
def wrap (room : Nat) (s : String) : List String :=
  (s.splitOn "\n").flatMap fun line =>
    (fill room [] 0 (wordsFrom [] false (expandTabs 0 line.toList))).map fun l =>
      String.ofList (trimRight l)

end DoBlocks.Text
