import DoBlocks.ModuleCheck
import DoBlocks.Prologue
import DoBlocks.Site

/-!
# Expansion of a module

The sites of a module are lowered one by one, and the text of each gives way to what it was lowered
to. A site that cannot be read or lowered stays as it is and is reported. If the lowered code has
catch-alls, the function they call is imported behind the prologue. A module without reports is then
checked.
-/

namespace DoBlocks

/-- The outcome of an expansion. -/
structure Expansion where
  code : String
  diagnostics : List Diagnostic
  trace : Trace
  /-- The number of sites found. -/
  sites : Nat
  /-- The number of wrappers in the lowered code. -/
  wrappers : Nat
  /-- The arguments of the call of the type checker, if there was one. -/
  call : Option (List String)
  /-- What the check warns of. -/
  warnings : List String
  deriving Repr, Inhabited

/-- Why an expansion stops without an outcome. -/
inductive ExpansionFailure where
  /-- A site holds a mark or a text that stops the reader. -/
  | reading (e : BlockFailure)
  /-- Lowered code or the expanded module cannot be written. -/
  | spelling
  deriving Repr, Inhabited

namespace Expansion

def succeeded (e : Expansion) : Bool := e.diagnostics.isEmpty

/-- The reports, one line each. -/
def errors (e : Expansion) : List String := e.diagnostics.map Diagnostic.render

def failureText (e : Expansion) : String := "Expansion failed:\n" ++ "\n".intercalate e.errors

abbrev Expand := ExceptT ExpansionFailure (StateM Lowering.State)

/-! ### Splicing -/

/-- A range of a text and what to put in its place. -/
structure Patch where
  start : Nat
  stop : Nat
  text : String
  deriving Repr, DecidableEq, Inhabited

/-- The text from `cursor` on with patches applied. Where a range starts before the end of the one
before it, nothing stands between their replacements. -/
def splice (cs : List Char) (cursor : Nat) : List Patch → List Char
  | [] => cs.drop cursor
  | p :: rest => (cs.take p.start).drop cursor ++ p.text.toList ++ splice cs p.stop rest

/-- The text without the line feeds at its end. -/
def dropLastBreaks (s : String) : String :=
  String.ofList (s.toList.reverse.dropWhile (· == '\n')).reverse

/-! ### Phases -/

def phase {α : Type} (name detail : String) (step : Expand α) : Expand α := do
  modify fun st => { st with trace := st.trace.startPhase name detail }
  let a ← step
  modify fun st => { st with trace := st.trace.endPhase }
  return a

def warn (text : String) : Expand Unit :=
  modify fun st => { st with trace := st.trace.record (.warning text) }

/-- Lowers one site: its replacement, or the error for which it is left as it is. -/
def lowerSite (settings : Settings) (s : Site) :
    Expand (Except (ParseError ⊕ LoweringError) String) := do
  match s.content with
  | .error e => return .error (.inl e)
  | .ok (sink, block) =>
    let st ← get
    match (Lowering.lowerSite settings.emitGuard sink block).run st with
    | (.error (.error e), st') =>
      set st'
      return .error (.inr e)
    | (.error .spelling, st') =>
      set st'
      throw .spelling
    | (.ok r, st') =>
      set st'
      match renderStatements? r.statements s.indent settings.indent with
      | some text => return .ok (dropLastBreaks text)
      | none => throw .spelling

def siteReport (filename : String) : ParseError ⊕ LoweringError → Diagnostic
  | .inl e => .ofParseError e filename
  | .inr e => .ofLoweringError e filename

/-- Lowers the sites in order; gives their patches and the reports. -/
def lowerSites (settings : Settings) (filename : String) (cs : List Char) :
    List Site → Expand (List Patch × List Diagnostic)
  | [] => return ([], [])
  | s :: rest => do
    let (text, report) ← match ← lowerSite settings s with
      | .ok text => pure (text, none)
      | .error e => do
        let report := siteReport filename e
        warn s!"Site at {s.span.render} left verbatim: {report.message}"
        pure (String.ofList ((cs.take s.stop).drop s.start), some report)
    let (patches, reports) ← lowerSites settings filename cs rest
    return (⟨s.start, s.stop, text⟩ :: patches, report.toList ++ reports)

def guardImport (callee : String) : String := s!"from typing import assert_never as {callee}"

/-- Adds the import that the catch-alls need, or reports that the module cannot be read. -/
def addGuardImport (filename code : String) : Expand (String × List Diagnostic) := do
  let st ← get
  let callee : Option String := st.callee.map HiddenName.render
  match callee with
  | none => return (code, [])
  | some c =>
    match Prologue.insertAfterPrologue (guardImport c) code with
    | .ok code' => return (code', [])
    | .error .grammar => return (code, [.hostRefusal filename])
    | .error .spelling => throw .spelling

/-- The sites of a module given as tokens, its text with the lowered sites in place, and the reports. -/
def lowerModule (settings : Settings) (filename code : String) (tokens : List Token) :
    Expand (List Site × String × List Diagnostic) := do
  let sites ← phase "Locate" "Parsing invocation sites" do
    match locateSitesOf settings.blockKeyword (.ofTokens tokens) with
    | .ok sites => return sites
    | .error e => throw (.reading e)
  let cs := code.toList
  let (patches, reports) ← phase "Lower" s!"{sites.length} site(s)" do
    lowerSites settings filename cs sites
  return (sites, String.ofList (splice cs 0 patches), reports)

def expandTokens (settings : Settings) (check : ModuleCheck) (filename code : String)
    (tokens : List Token) : Expand (Expansion) := do
  let (sites, spliced, reports) ← lowerModule settings filename code tokens
  let obligations := (← get).obligations
  let (expanded, reports) ←
    if obligations.isEmpty || !reports.isEmpty then pure (spliced, reports)
    else addGuardImport filename spliced
  let outcome ←
    if reports.isEmpty then
      phase "Host Check" "compile() and mypy" do
        let callee := (← get).callee.map HiddenName.render
        return check ⟨expanded, obligations.map Obligation.site, callee, filename⟩
    else pure { diagnostics := reports }
  let st ← get
  return ⟨expanded, outcome.diagnostics, st.trace, sites.length, st.wrappers.length, outcome.call,
    outcome.warnings⟩

/-- Expands a module. The names of the module are reserved first. -/
def expand (settings : Settings) (check : ModuleCheck) (filename code : String) :
    Expand Expansion := do
  let e ← phase "Expansion Pipeline" filename do
    let stream := Lexer.tokenize code
    let readable ← phase "Tokenize" "Lexing module" do
      if stream.fault.isNone then
        let words := (stream.tokens.filter fun t => t.kind == .name).map fun t => t.text
        modify fun st => { st with names := st.names.reserve words }
      return stream.fault
    match readable with
    | some e => return ⟨code, [.ofParseError e filename], .empty, 0, 0, none, []⟩
    | none => expandTokens settings check filename code stream.tokens
  return { e with trace := (← get).trace }

/-- Expands a module with names from an allocator; also gives the allocator after it. -/
def run (settings : Settings) (check : ModuleCheck) (names : Allocator) (filename code : String) :
    Except ExpansionFailure Expansion × Allocator :=
  let (result, st) := (expand settings check filename code).run (.initial names)
  (result, st.names)

def freshNames (settings : Settings) : Allocator := ⟨settings.hiddenStem, 0, []⟩

end Expansion

end DoBlocks
