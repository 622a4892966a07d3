import DoBlocks.Datum.Validation
import DoBlocks.Lowering
import DoBlocks.ParseError

/-!
# Diagnostics

A diagnostic is the report of one problem: its kind, an optional code within the kind, the message,
and the place. Without a place, line and column are zero.
-/

namespace DoBlocks

inductive DiagnosticKind where
  | parse
  | divergence
  | lowering
  | exhaustiveness
  | host
  deriving Repr, DecidableEq, Inhabited

namespace DiagnosticKind

def render : DiagnosticKind → String
  | parse => "parse"
  | divergence => "divergence"
  | lowering => "lowering"
  | exhaustiveness => "exhaustiveness"
  | host => "host"

def all : List (String × DiagnosticKind) :=
  [parse, divergence, lowering, exhaustiveness, host].map fun k => (k.render, k)

end DiagnosticKind

/-- The report of a problem; line and column count from one. -/
structure Diagnostic where
  kind : DiagnosticKind
  message : String
  line : Int
  column : Int
  code : Option String
  filename : String
  deriving Repr, DecidableEq, Inhabited

namespace Diagnostic

/-- One line: place, kind with code, message. An empty code is left out. -/
def render (d : Diagnostic) : String :=
  let tag := match d.code with
    | some c => if c.isEmpty then d.kind.render else s!"{d.kind.render}[{c}]"
    | none => d.kind.render
  s!"{d.filename}:{d.line}:{d.column}: {tag}: {d.message}"

def atSpan (kind : DiagnosticKind) (message : String) (span : Option Span) (code : Option String)
    (filename : String) : Diagnostic :=
  match span with
  | some s => ⟨kind, message, s.start.line, s.start.column + 1, code, filename⟩
  | none => ⟨kind, message, 0, 0, code, filename⟩

def ofParseError (e : ParseError) (filename : String) : Diagnostic :=
  atSpan .parse e.fault.message (some e.span) (some e.fault.code.render) filename

def kindOf : LoweringFault → DiagnosticKind
  | .armFallsThrough => .divergence
  | _ => .lowering

def ofLoweringError (e : LoweringError) (filename : String) : Diagnostic :=
  atSpan (kindOf e.fault) e.fault.message (some e.span) none filename

/-- The report that the host language refuses a module. The host only refuses, so there is neither a
reason nor a place. -/
def hostRefusal (filename : String) : Diagnostic :=
  ⟨.host, ParseFault.hostReason, 0, 0, some "syntax", filename⟩

/-- A problem in words: the place, if there is one, and the message. -/
def problemText (message : String) (span : Option Span) : String :=
  match span with
  | some s => s!"{s.render}: {message}"
  | none => message

def ofTable (entries : List (String × Datum)) : Validated Diagnostic :=
  let kind := Validated.field entries "kind" (.problem .missing) (Validated.oneOf DiagnosticKind.all)
  let message := Validated.field entries "message" (.problem .missing) Validated.text
  let line := Validated.field entries "line" (.ok 0) Validated.int
  let column := Validated.field entries "column" (.ok 0) Validated.int
  let code := Validated.field entries "code" (.ok none) Validated.optionalText
  let filename := Validated.field entries "filename" (.ok "<string>") Validated.text
  match kind, message, line, column, code, filename with
  | .ok k, .ok m, .ok l, .ok c, .ok o, .ok f => .ok ⟨k, m, l, c, o, f⟩
  | _, _, _, _, _, _ =>
    .error (kind.errors ++ message.errors ++ line.errors ++ column.errors ++ code.errors ++
      filename.errors)

end Diagnostic

end DoBlocks
