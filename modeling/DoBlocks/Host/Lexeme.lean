import DoBlocks.Host.Surface

/-!
# Lexemes of the host language

A lexeme is a token of the host language with the gap (blanks, comments, continued lines) that stands
before it. The end of a logical line and changes of indentation are lexemes too.
-/

namespace DoBlocks.Host

/-- Two readings of the host language. Fragments are read with the tolerant one, which knows newer
forms; the strict one is the version the finished module has to satisfy. -/
inductive Dialect where
  | tolerant
  | strict
  deriving Repr, DecidableEq, Inhabited

/-- What a lexeme is. -/
inductive LexemeKind where
  | name
  | number
  | string
  /-- The marks and quotes that open a string with replacement fields. -/
  | joinedStart
  /-- Literal text inside such a string. -/
  | joinedText
  | joinedEnd
  | operator
  /-- The end of a logical line. -/
  | newline
  | indent
  | dedent
  | stop
  deriving Repr, DecidableEq, Inhabited

/-- A host token with the gap before it and the offsets of its text. -/
structure Lexeme where
  kind : LexemeKind
  text : String
  gap : Surface
  start : Nat
  stop : Nat
  deriving Repr, DecidableEq, Inhabited

namespace Lexeme

/-- The lexeme is the operator or bracket `sign`. -/
def isOperator (l : Lexeme) (sign : String) : Bool := l.kind == .operator && l.text == sign

/-- The lexeme is the word `w`, reserved or not. -/
def isWord (l : Lexeme) (w : String) : Bool := l.kind == .name && l.text == w

/-- The text of a lexeme without the gap before it. -/
def surface (l : Lexeme) : Surface := if l.text.isEmpty then [] else [.text l.text]

end Lexeme

/-- The surface of consecutive lexemes; the gap before the first is left out. -/
def surfaceOf : List Lexeme → Surface
  | [] => []
  | l :: rest => l.surface ++ rest.flatMap fun m => m.gap ++ m.surface

end DoBlocks.Host
