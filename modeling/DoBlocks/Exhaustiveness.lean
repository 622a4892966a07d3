import DoBlocks.Diagnostic
import DoBlocks.Settings
import DoBlocks.Text.Word

/-!
# Exhaustiveness by a type checker

Each catch-all of the expanded code calls a function that no value may reach. A type checker that
can see a value reach it reports an error on the line of the call; `findings` takes such errors
back to the match that the call belongs to.
-/

namespace DoBlocks

/-- A catch-all: the name it binds and the place of its match. -/
structure CatchAllSite where
  subject : String
  span : Span
  deriving Repr, DecidableEq, Inhabited

def Obligation.site (o : Obligation) : CatchAllSite := ⟨o.subject.render, o.span⟩

/-- What a type checker answers. -/
structure CheckerReport where
  stdout : String := ""
  stderr : String := ""
  status : Int := 0
  deriving Repr, DecidableEq, Inhabited

/-- The severities of report lines. -/
inductive Severity where
  | error
  | note
  deriving Repr, DecidableEq, Inhabited

/-- A line of a report: where it points, how severe it is, and what it says. -/
structure ReportLine where
  line : Nat
  severity : Severity
  message : String
  deriving Repr, DecidableEq, Inhabited

namespace ReportLine

def number? (cs : List Char) : Option (Nat × List Char) :=
  let digits := cs.takeWhile Text.isDecimal
  match digits, cs.drop digits.length with
  | _ :: _, ':' :: rest =>
    some (digits.foldl (fun n c => 10 * n + (Text.digitValue? c).getD 0) 0, rest)
  | _, _ => none

def verdict? (cs : List Char) : Option (Severity × String) :=
  let error := " error: ".toList
  let note := " note: ".toList
  if error.isPrefixOf cs then some (.error, String.ofList (cs.drop error.length))
  else if note.isPrefixOf cs then some (.note, String.ofList (cs.drop note.length))
  else none

/-- What comes after the name of the file and a colon: line, perhaps column, severity, message. -/
def afterName? (cs : List Char) : Option ReportLine := do
  let (line, rest) ← number? cs
  let rest := ((number? rest).map Prod.snd).getD rest
  let (severity, message) ← verdict? rest
  return ⟨line, severity, message⟩

/-- Looks for the shortest name after which the rest fits; `named` tells whether the name has begun. -/
def search (named : Bool) : List Char → Option ReportLine
  | [] => none
  | c :: rest =>
    if named && c == ':' then
      match afterName? rest with
      | some r => some r
      | none => search true rest
    else search true rest

def ofString? (s : String) : Option ReportLine := search false s.toList

end ReportLine

namespace Exhaustiveness

def callText (callee : String) (s : CatchAllSite) : String := s!"{callee}({s.subject})"

/-- The site whose call is all that a line holds; of several the last. -/
def siteAt? (callee : String) (sites : List CatchAllSite) (line : String) : Option CatchAllSite :=
  sites.reverse.find? fun s => callText callee s == Text.strip line

/-- The lines of a module that hold a call of a catch-all, numbered from `n`. -/
def linesFrom (callee : String) (sites : List CatchAllSite) (n : Nat) :
    List String → List (Nat × CatchAllSite)
  | [] => []
  | line :: rest =>
    ((siteAt? callee sites line).map fun s => (n, s)).toList ++ linesFrom callee sites (n + 1) rest

def callLines (callee : String) (sites : List CatchAllSite) (code : String) :
    List (Nat × CatchAllSite) :=
  linesFrom callee sites 1 (Text.splitLines code)

def checkerFlags : List String :=
  ["--check-untyped-defs", "--ignore-missing-imports", "--no-incremental", "--cache-dir=/dev/null",
   "--no-error-summary", "--no-pretty"]

/-- What the check of a module leads to. -/
structure Outcome where
  diagnostics : List Diagnostic := []
  /-- The arguments of the call of the type checker, if there was one. -/
  call : Option (List String) := none
  warnings : List String := []
  deriving Repr, DecidableEq, Inhabited

def finding? (calls : List (Nat × CatchAllSite)) (filename line : String) : Option Diagnostic := do
  let r ← ReportLine.ofString? line
  if r.severity != .error then none
  let (_, site) ← calls.find? fun c => c.1 == r.line
  return .atSpan .exhaustiveness
    s!"Patterns do not cover every value of the source ({r.message})" (some site.span) none filename

def findings (calls : List (Nat × CatchAllSite)) (filename : String) (report : CheckerReport) :
    List Diagnostic :=
  (Text.splitLines report.stdout).filterMap (finding? calls filename)

/-- The status of a type checker that could not do its work. -/
def failedStatus : Int := 2

def check (settings : Settings) (checker : List String → CheckerReport) (code : String)
    (sites : List CatchAllSite) (callee filename : String) : Outcome :=
  let calls := callLines callee sites code
  if calls.isEmpty then
    { warnings := ["No exhaustiveness guard found in expanded code; skipping mypy."] }
  else
    let args := checkerFlags ++ settings.checkerArgs ++ ["-c", code]
    let report := checker args
    if report.status == failedStatus then
      let reason := Text.strip report.stderr
      let reason := if reason.isEmpty then Text.strip report.stdout else reason
      { call := some args, warnings := [s!"mypy could not run: {reason}"] }
    else
      { call := some args, diagnostics := findings calls filename report }

end Exhaustiveness

end DoBlocks
