import DoBlocks.Span

/-!
# Tokens of the block language

A token keeps its text and where it stands: the line and column of its first character and the
offsets of its first character and of the character after its last. White space, comments and line
continuations are tokens too; `isTrivia` tells them from the significant ones.
-/

namespace DoBlocks

/-- What a token is. -/
inductive TokenKind where
  | comment
  | string
  | number
  | name
  | arrow
  | operator
  | symbol
  | continuation
  | newline
  | whitespace
  | eof
  deriving Repr, DecidableEq, Inhabited

namespace TokenKind

/-- Kinds that separate tokens and carry no meaning. -/
def isTrivia : TokenKind → Bool
  | .whitespace | .comment | .continuation => true
  | _ => false

end TokenKind

/-- A piece of the text with its place. -/
structure Token where
  kind : TokenKind
  text : String
  line : Nat
  column : Nat
  offset : Nat
  stop : Nat
  deriving Repr, DecidableEq, Inhabited

/-- The columns from the last line feed of `cs` to its end, starting at `column`, with the number of
line feeds. -/
def advance (line column : Nat) : List Char → Nat × Nat
  | [] => (line, column)
  | c :: rest => if c == '\n' then advance (line + 1) 0 rest else advance line (column + 1) rest

namespace Token

def after (t : Token) : Nat × Nat := advance t.line t.column t.text.toList

def span (t : Token) : Span :=
  ⟨⟨t.line, t.column⟩, ⟨t.after.1, t.after.2⟩⟩

/-- The token is the name `word`. -/
def isName (t : Token) (word : String) : Bool := t.kind == .name && t.text == word

/-- The token is the symbol `sign`. -/
def isSymbol (t : Token) (sign : String) : Bool := t.kind == .symbol && t.text == sign

/-- The token is the operator `sign`. -/
def isOperator (t : Token) (sign : String) : Bool := t.kind == .operator && t.text == sign

def isOpener (t : Token) : Bool :=
  t.kind == .symbol && (t.text == "(" || t.text == "[" || t.text == "\x7b")

def isCloser (t : Token) : Bool :=
  t.kind == .symbol && (t.text == ")" || t.text == "]" || t.text == "\x7d")

/-- The bracket that closes the bracket `opener`. -/
def closerOf (opener : String) : String :=
  if opener == "(" then ")" else if opener == "[" then "]" else "\x7d"

end Token

/-- The text without its trivia. -/
def significant (tokens : List Token) : List Token := tokens.filter fun t => !t.kind.isTrivia

end DoBlocks
