import DoBlocks.Host.Reading

/-!
# Statements at another indentation

A statement is printed inside a suite with a given margin. Suites indented by the first indentation
of the text are printed with the indentation `unit` instead; other suites keep their own.
-/

namespace DoBlocks.Host

/-- How a text is laid out: its usual line break and its usual indentation. -/
structure Layout where
  lineBreak : String
  indent : String
  deriving Repr, DecidableEq, Inhabited

def Layout.of (text : String) (lexemes : List Lexeme) : Layout :=
  ⟨String.ofList (Lexer.firstBreak text.toList),
   ((lexemes.find? fun l => l.kind == .indent).map Lexeme.text).getD "    "⟩

namespace Layout

def lexemeText (lay : Layout) (margin : String) (l : Lexeme) : String :=
  match l.kind with
  | .indent | .dedent | .stop => ""
  | .newline =>
    l.gap.render margin ++ (if l.text.isEmpty || l.text == lay.lineBreak then "\n" else l.text)
  | _ => l.gap.render margin ++ l.text

def suiteMargin (lay : Layout) (unit margin : String) (children : List Tree) : String :=
  match children with
  | _ :: .leaf l :: _ =>
    if l.kind == .indent then margin ++ (if l.text == lay.indent then unit else l.text) else margin
  | _ => margin

mutual

def reprint (lay : Layout) (unit margin : String) : Tree → String
  | .leaf l => lay.lexemeText margin l
  | .node .suite (first :: rest) =>
    lay.reprint unit margin first ++
      lay.reprintAll unit (lay.suiteMargin unit margin (first :: rest)) rest
  | .node .matchStatement children => lay.reprintMatch unit margin margin children
  | .node _ children => lay.reprintAll unit margin children

def reprintAll (lay : Layout) (unit margin : String) : List Tree → String
  | [] => ""
  | t :: rest => lay.reprint unit margin t ++ lay.reprintAll unit margin rest

/-- The text of the parts of a match statement, whose cases stand at an indentation of their own. -/
def reprintMatch (lay : Layout) (unit outer margin : String) : List Tree → String
  | [] => ""
  | .leaf l :: rest =>
    let margin' :=
      if l.kind == .indent then outer ++ (if l.text == lay.indent then unit else l.text) else margin
    lay.lexemeText margin l ++ lay.reprintMatch unit outer margin' rest
  | .node k children :: rest =>
    lay.reprint unit margin (.node k children) ++ lay.reprintMatch unit outer margin rest

end

end Layout

/-- The text of a statement, read from `text`, in a suite with the given margin. -/
def reindent (text unit margin : String) : Except Refusal String := do
  let t ← readStatement text
  return (Layout.of text t.lexemes).reprint unit margin t

end DoBlocks.Host
