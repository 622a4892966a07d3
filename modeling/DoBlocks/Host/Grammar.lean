import DoBlocks.Host.Grammar.Statement
import DoBlocks.Host.Lexeme.Lexer

/-!
# Reading host text

Host text is cut into lexemes and read by the rules of the grammar. Each rule takes a lexeme before
it calls another one, so the number of lexemes bounds the depth.
-/

namespace DoBlocks.Host

/-- Reads the lexemes of a text with a rule given the rules of every depth that can occur. -/
def read? (d : Dialect) (text : String) (start : (Grammar.Goal → Rule Unit) → Rule Unit) :
    Option (List Tree) := do
  let lexemes ← Lexer.lexemes? d text
  let ((), c) ← (start (Grammar.rule d (lexemes.length + 1))).run ⟨lexemes, []⟩
  return c.built.reverse

/-- Reads an expression, which ends with the text. -/
def expression? (d : Dialect) (text : String) : Option Tree := do
  let trees ← read? d text fun self => do
    Grammar.starExpressions self
    Rule.kind .newline
    Rule.kind .stop
  trees.head?

/-- Reads one statement, which ends with the text. -/
def statement? (d : Dialect) (text : String) : Option Tree := do
  let trees ← read? d text fun self => do
    self .statement
    Rule.kind .stop
  trees.head?

def module? (d : Dialect) (text : String) : Option Tree := do
  let trees ← read? d text fun self => Rule.node .module do
    Rule.many (self .statement)
    Rule.kind .stop
  trees.head?

end DoBlocks.Host
