import DoBlocks.Log
import DoBlocks.Markup
import DoBlocks.Text.Wrap

/-!
# Consoles

Messages go to the console that is bound. A console that is recorded keeps its lines; the default
console is the terminal, and what goes there is not kept. Printed text takes the whole width; a log
line starts with its level in a column of its own.
-/

namespace DoBlocks

/-- Recorded consoles in the order in which they were bound, and the one that is bound now; `none`
is the default console. -/
structure Consoles where
  width : Nat
  recorded : List (List String)
  active : Option Nat
  deriving Repr, DecidableEq, Inhabited

namespace Consoles

/-- One recorded console, which is bound. -/
def start (width : Nat) : Consoles := ⟨width, [[]], some 0⟩

def bindNew (c : Consoles) : Consoles :=
  { c with recorded := c.recorded ++ [[]], active := some c.recorded.length }

def reset (c : Consoles) : Consoles := { c with active := none }

def add (c : Consoles) (lines : List String) : Consoles :=
  match c.active with
  | none => c
  | some n => { c with recorded := c.recorded.modify n fun old => old ++ lines }

def print (c : Consoles) (message : String) : Except Markup.Unmatched Consoles := do
  return c.add (Text.wrap c.width (← Markup.plain message))

def levelWidth : Nat := 8

/-- The level of a log line, filled up to its column. -/
def levelColumn (level : LogLevel) : String :=
  level.render ++ String.ofList (List.replicate (levelWidth - level.render.length) ' ')

/-- Puts the first line behind `first` and the others under it. -/
def hang (first : String) : List String → List String
  | [] => []
  | line :: rest =>
    let margin := String.ofList (List.replicate first.length ' ')
    (first ++ line) :: rest.map fun l => margin ++ l

def log (c : Consoles) (l : LogLine) : Except Markup.Unmatched Consoles := do
  let lines := Text.wrap (c.width - levelWidth - 1) (← Markup.plain l.text)
  return c.add (hang (levelColumn l.level ++ " ") lines)

/-- What the recorded consoles show: their lines without blanks at the end, and the empty line
behind the last line feed. -/
def texts (c : Consoles) : List (List String) :=
  c.recorded.map fun lines => lines.map Text.stripRight ++ [""]

end Consoles

end DoBlocks
