import DoBlocks.Token.Lexer

/-!
# Texts as significant tokens

A `Script` is a text as its significant tokens, each with the trivia before it, and the place where
the text ends. The text of a run of tokens is their texts with the trivia between them.
-/

namespace DoBlocks

/-- A significant token with the trivia before it. -/
structure SpacedToken extends Token where
  gap : String
  deriving Repr, DecidableEq, Inhabited

/-- The significant tokens of a text and its end. -/
structure Script where
  tokens : List SpacedToken
  stop : Token
  deriving Repr, DecidableEq, Inhabited

namespace Script

/-- Collects significant tokens; `gap` is the trivia since the last one. -/
def collect (gap : String) : List Token → List SpacedToken
  | [] => []
  | t :: rest =>
    if t.kind.isTrivia then collect (gap ++ t.text) rest
    else if t.kind == .eof then []
    else ⟨t, gap⟩ :: collect "" rest

def ofTokens (tokens : List Token) : Script :=
  ⟨collect "" tokens, (tokens.find? fun t => t.kind == .eof).getD default⟩

/-- The script of a text, or the fault that no token starts with some character. -/
def ofText (text : String) : Except ParseError Script :=
  let stream := Lexer.tokenize text
  match stream.fault with
  | some e => .error e
  | none => .ok (ofTokens stream.tokens)

end Script

namespace SpacedToken

def textOf : List SpacedToken → String
  | [] => ""
  | t :: rest => t.text ++ String.join (rest.map fun u => u.gap ++ u.text)

/-- The span from the first to the last of consecutive tokens. -/
def spanOf (ts : List SpacedToken) : Span :=
  match ts, ts.getLast? with
  | t :: _, some l => t.span.through l.span
  | _, _ => default

end SpacedToken

end DoBlocks
