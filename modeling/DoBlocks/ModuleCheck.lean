import DoBlocks.Exhaustiveness
import DoBlocks.Host.Acceptance

/-!
# Checks of an expanded module

An expanded module is first shown to the host. If the host accepts it, a type checker looks at its
catch-alls.
-/

namespace DoBlocks

/-- A module after expansion: its text, its catch-alls and the local name of the function that they
call, and the name of the file. -/
structure ExpandedModule where
  code : String
  catchAlls : List CatchAllSite
  callee : Option String
  filename : String
  deriving Repr, DecidableEq, Inhabited

abbrev ModuleCheck := ExpandedModule → Exhaustiveness.Outcome

namespace ModuleCheck

def lenient : ModuleCheck := fun _ => {}

/-- Shows a module to the host, then to the type checker if the settings ask for it and there is
something to look at. -/
def host (settings : Settings) (checker : List String → CheckerReport) : ModuleCheck := fun m =>
  if !Host.accepts m.code then { diagnostics := [.hostRefusal m.filename] }
  else
    match m.callee with
    | none => {}
    | some callee =>
      if m.catchAlls.isEmpty || !settings.checkExhaustiveness then {}
      else Exhaustiveness.check settings checker m.code m.catchAlls callee m.filename

end ModuleCheck

end DoBlocks
