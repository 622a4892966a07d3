import DoBlocks.Span
import DoBlocks.Text.Quoted

/-!
# Why a text is no block

`ParseFault` lists the causes for which a text is refused; `ParseFault.message` is the one place with
their wording, and `ParseFault.code` groups them into the classes that diagnostics report.
-/

namespace DoBlocks

/-- The classes of causes that diagnostics report. -/
inductive ParseCode where
  | missingPattern
  | missingSource
  | malformedArm
  | unbalanced
  | invalidPattern
  | hostSyntax
  | blockPosition
  | expectedToken
  | unexpectedCharacter
  | escapePosition
  deriving Repr, DecidableEq, Inhabited

namespace ParseCode

def render : ParseCode → String
  | missingPattern => "missing_pattern"
  | missingSource => "missing_source"
  | malformedArm => "malformed_arm"
  | unbalanced => "unbalanced"
  | invalidPattern => "invalid_pattern"
  | hostSyntax => "host_syntax"
  | blockPosition => "block_position"
  | expectedToken => "expected_token"
  | unexpectedCharacter => "unexpected_character"
  | escapePosition => "escape_position"

def all : List ParseCode :=
  [missingPattern, missingSource, malformedArm, unbalanced, invalidPattern, hostSyntax, blockPosition,
   expectedToken, unexpectedCharacter, escapePosition]

def ofString? (s : String) : Option ParseCode := all.find? fun c => c.render == s

/-- The wording for a text that names no class, or for a missing one. -/
def unknownMessage (s : Option String) : String :=
  ((s.map Text.quoted).getD "None") ++ " is not a valid ParseErrorKind"

end ParseCode

/-- The part a host fragment plays in a block. -/
inductive FragmentRole where
  | statement
  | source
  | escapeValue
  | guard
  | armBody
  | ifTest
  | elifTest
  | elseIfTest
  | whileTest
  | iterable
  | loopTarget
  deriving Repr, DecidableEq, Inhabited

def FragmentRole.render : FragmentRole → String
  | statement => "statement"
  | source => "source expression"
  | escapeValue => "escape value"
  | guard => "guard"
  | armBody => "arm body"
  | ifTest => "if condition"
  | elifTest => "elif condition"
  | elseIfTest => "else-if condition"
  | whileTest => "while condition"
  | iterable => "loop iterable"
  | loopTarget => "loop target"

/-- Why a text is no block. -/
inductive ParseFault where
  /-- No token starts with this character. -/
  | strayCharacter (c : Char)
  /-- The text ends where a block should open. -/
  | noBlock
  /-- Something other than a block stands where one should open. -/
  | blockExpected (got : String)
  | unclosed (opener : String)
  | unmatched (closer : String)
  | mismatched (closer opener : String) (opened : Span)
  /-- A block inside a larger expression. -/
  | blockInside (keyword : String)
  /-- A block inside a larger expression of the module. -/
  | siteInside (keyword : String)
  /-- A block followed by more of the same statement. -/
  | blockNotLast (keyword : String)
  | escapeWithoutOperand
  | escapeMisplaced
  | escapeForbidden (role : FragmentRole)
  /-- The host language refuses the fragment. -/
  | invalidFragment (role : FragmentRole)
  | invalidPattern
  | compoundStatement
  | afterBlock (got : String)
  | afterStatement (got : String)
  | missingPattern
  | missingSource
  | noArm
  | trailingComma
  | noArrow
  | armWithoutPattern
  | emptyGuard
  | armWithoutBody
  | missingHeader (role : FragmentRole)
  | noBody (role : FragmentRole)
  | malformedFor
  deriving Repr, DecidableEq, Inhabited

namespace ParseFault

def code : ParseFault → ParseCode
  | strayCharacter _ => .unexpectedCharacter
  | noBlock | unclosed _ | unmatched _ | mismatched _ _ _ => .unbalanced
  | blockExpected _ | escapeWithoutOperand | afterBlock _ | afterStatement _ | missingHeader _
  | noBody _ | malformedFor => .expectedToken
  | blockInside _ | siteInside _ | blockNotLast _ => .blockPosition
  | escapeMisplaced | escapeForbidden _ => .escapePosition
  | invalidFragment _ | compoundStatement => .hostSyntax
  | invalidPattern => .invalidPattern
  | missingPattern => .missingPattern
  | missingSource => .missingSource
  | noArm | trailingComma | noArrow | armWithoutPattern | emptyGuard | armWithoutBody => .malformedArm

/-- The host grammar only accepts or refuses; this mark stands where a reason would. -/
def hostReason : String := "<host>"

def message : ParseFault → String
  | strayCharacter c => s!"Unexpected character {Text.quoted (String.singleton c)}"
  | noBlock => "Unexpected end of input, expected '\x7b' to open a block"
  | blockExpected got => s!"Expected '\x7b' to open a block, got {Text.quoted got}"
  | unclosed opener => s!"Unclosed '{opener}'"
  | unmatched closer => s!"Unmatched '{closer}'"
  | mismatched closer opener opened =>
    s!"Mismatched '{closer}' closing '{opener}' opened at {opened.render}"
  | blockInside keyword =>
    s!"'{keyword} \x7b \x7d' may only be a statement, an assigned value, a returned value or a tail"
  | siteInside keyword =>
    s!"'{keyword} \x7b \x7d' may only be a statement, an assigned value or a returned value"
  | blockNotLast keyword => s!"'{keyword} \x7b \x7d' must end its statement"
  | escapeWithoutOperand => "Escape marker '^' needs an operand"
  | escapeMisplaced =>
    "Escape marker '^' can only stand for a whole value or an operand of 'and', 'or' or a conditional expression"
  | escapeForbidden role => s!"Escape marker '^' is not allowed in a {role.render}"
  | invalidFragment role => s!"Invalid {role.render}: {hostReason}"
  | invalidPattern => s!"Invalid pattern: {hostReason}"
  | compoundStatement => "Compound statements inside extended blocks must use brace bodies"
  | afterBlock got => s!"Unexpected {Text.quoted got} after block"
  | afterStatement got => s!"Expected newline, ';' or '\x7d' after statement, got {Text.quoted got}"
  | missingPattern => "Extended let is missing its primary pattern"
  | missingSource => "Extended let is missing its source expression"
  | noArm => "Expected a fallback arm after 'else'"
  | trailingComma => "Trailing ',' in arm list"
  | noArrow => "Expected '=>' in fallback arm"
  | armWithoutPattern => "Fallback arm is missing its pattern"
  | emptyGuard => "Empty guard"
  | armWithoutBody => "Fallback arm is missing its body"
  | missingHeader role => s!"Missing {role.render}"
  | noBody role =>
    s!"Expected '\x7b' after {role.render}; compound statements inside extended blocks use braces"
  | malformedFor => "Expected 'for <target> in <iterable> \x7b'"

end ParseFault

/-- A cause and the place it is reported at. -/
structure ParseError where
  fault : ParseFault
  span : Span
  deriving Repr, DecidableEq, Inhabited

end DoBlocks
