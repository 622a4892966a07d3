import DoBlocks.Expr

/-!
# Where the value of a block goes

A sink takes the value of a block: it assigns it, returns it or drops it. The sink inside an escape
wrapper also raises the exit flag of the wrapper.
-/

namespace DoBlocks

/-- A name in lowered code: written by the user or generated. -/
inductive Name where
  | written (s : String)
  | hidden (name : HiddenName)
  deriving Repr, DecidableEq, Inhabited

namespace Name

def render : Name → String
  | written s => s
  | hidden n => n.render

def isValid (n : Name) : Bool := Text.isIdentifier n.render

end Name

/-- A place that an assignment writes to, with the equals sign after it. -/
inductive Target where
  /-- Host text up to and with the gap after the equals sign. -/
  | written (text : Host.Surface)
  | hidden (name : HiddenName)
  deriving Repr, DecidableEq, Inhabited

def Target.surface : Target → Host.Surface
  | written text => text
  | hidden name => .ofString (name.render ++ " = ")

/-- What a sink does with a value. -/
inductive Destination where
  | assign (targets : List Target)
  | return
  | discard
  deriving Repr, DecidableEq, Inhabited

def Destination.render : Destination → String
  | assign _ => "assign"
  | .return => "return"
  | discard => "discard"

/-- The destination of the value of a block. -/
structure Sink where
  destination : Destination
  /-- The flag that is raised after delivery. -/
  exitFlag : Option Name
  deriving Repr, DecidableEq, Inhabited

namespace Sink

def assign (targets : List Target) : Sink := ⟨.assign targets, none⟩

def returning : Sink := ⟨.return, none⟩

def discard : Sink := ⟨.discard, none⟩

/-- A sink that assigns to plain names; `none` if one of them is no name. -/
def assignNames? (names : List String) : Option Sink :=
  if names.all Text.isIdentifier then
    some (assign (names.map fun n => .written (.ofString (n ++ " = "))))
  else none

def isDiscard (s : Sink) : Bool := s.destination == .discard

def isReturn (s : Sink) : Bool := s.destination == .return

end Sink

end DoBlocks
