/-!
# Traces

A trace is a flat list of events, each with the phase it lies in. Phases nest: an event belongs to
the innermost phase that is open when it is recorded, and the end of a phase belongs to the start it
closes.
-/

namespace DoBlocks

/-- What happened during an expansion. -/
inductive Event where
  | phaseStart (name detail : String)
  | phaseEnd
  | blockLowered (location : String) (wrapped : Bool) (sink : String)
  | wrapperAllocated (slot label : String)
  | warning (text : String)
  /-- A decision that produced no code of its own. -/
  | inspection (subject outcome detail : String)
  deriving Repr, DecidableEq, Inhabited

namespace Event

def kind : Event → String
  | phaseStart _ _ => "phase_start"
  | phaseEnd => "phase_end"
  | blockLowered _ _ _ => "block_lowered"
  | wrapperAllocated _ _ => "wrapper_allocated"
  | warning _ => "analysis_warning"
  | inspection _ _ _ => "inspection"

def description : Event → String
  | phaseStart name _ => name
  | phaseEnd => "End Phase"
  | blockLowered location wrapped _ =>
    s!"Lowered block at {location} (" ++ (if wrapped then "escape wrapper" else "inline") ++ ")"
  | wrapperAllocated slot label => s!"Allocated {slot} / {label}"
  | warning text => text
  | inspection subject _ _ => s!"Inspecting '{subject}'"

/-- A detail of an event. -/
inductive Detail where
  | text (s : String)
  | flag (b : Bool)
  deriving Repr, DecidableEq, Inhabited

def details : Event → List (String × Detail)
  | phaseStart _ detail => [("detail", .text detail)]
  | phaseEnd => []
  | blockLowered location wrapped sink =>
    [("location", .text location), ("wrapped", .flag wrapped), ("sink", .text sink)]
  | wrapperAllocated slot label => [("result_slot", .text slot), ("loop_label", .text label)]
  | warning _ => [("level", .text "warning")]
  | inspection _ outcome detail => [("outcome", .text outcome), ("detail", .text detail)]

end Event

/-- An event with the number of the event it lies in. -/
structure Recorded where
  event : Event
  parent : Option Nat
  deriving Repr, DecidableEq, Inhabited

/-- Events in order, and the numbers of the open phases, innermost first. -/
structure Trace where
  events : List Recorded
  phases : List Nat
  deriving Repr, DecidableEq, Inhabited

namespace Trace

def empty : Trace := ⟨[], []⟩

/-- Records an event in the innermost open phase. -/
def record (t : Trace) (e : Event) : Trace :=
  { t with events := t.events ++ [⟨e, t.phases.head?⟩] }

def startPhase (t : Trace) (name detail : String) : Trace :=
  let t' := t.record (.phaseStart name detail)
  { t' with phases := t.events.length :: t.phases }

/-- Closes the innermost open phase, if there is one. -/
def endPhase (t : Trace) : Trace :=
  match t.phases with
  | p :: outer => ⟨t.events ++ [⟨.phaseEnd, some p⟩], outer⟩
  | [] => t

end Trace

end DoBlocks
