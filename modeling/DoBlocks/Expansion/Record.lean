import DoBlocks.Diagnostic

/-!
# Records of expansions

An expansion as plain data, the way it is stored or sent: what was produced, what was reported, and
the trace as tables.
-/

namespace DoBlocks

/-- A stored expansion. -/
structure ExpansionRecord where
  code : String
  diagnostics : List Diagnostic
  success : Bool
  traceEvents : List (List (String × Datum))
  sites : Int
  wrappers : Int
  deriving Repr, Inhabited

namespace ExpansionRecord

def hasErrors (r : ExpansionRecord) : Bool := !r.diagnostics.isEmpty

/-- The reports, one line each. -/
def errors (r : ExpansionRecord) : List String := r.diagnostics.map Diagnostic.render

def diagnostic : Datum → Validated Diagnostic
  | .table entries => Diagnostic.ofTable entries
  | _ => .problem (.notRecord "Diagnostic")

def ofTable (entries : List (String × Datum)) : Validated ExpansionRecord :=
  let code := Validated.field entries "code" (.ok "") Validated.text
  let diagnostics := Validated.field entries "diagnostics" (.ok []) (Validated.list diagnostic)
  let success := Validated.field entries "success" (.ok true) Validated.bool
  let trace := Validated.field entries "trace_events" (.ok []) (Validated.list Validated.table)
  let sites := Validated.field entries "sites" (.ok 0) Validated.int
  let wrappers := Validated.field entries "wrappers" (.ok 0) Validated.int
  match code, diagnostics, success, trace, sites, wrappers with
  | .ok c, .ok d, .ok s, .ok t, .ok n, .ok w => .ok ⟨c, d, s, t, n, w⟩
  | _, _, _, _, _, _ =>
    .error (code.errors ++ diagnostics.errors ++ success.errors ++ trace.errors ++ sites.errors ++
      wrappers.errors)

end ExpansionRecord

end DoBlocks
