import DoBlocks.Host.Rule
import DoBlocks.Text.Identifier

/-!
# Rules for expressions

Every rule takes `self`, the rules at the next smaller depth, and calls it only after it has taken a
lexeme. A target is read as an expression and checked afterwards.
-/

namespace DoBlocks.Host.Grammar

open Rule

/-- What a recursive rule reads. -/
inductive Goal where
  | expression
  | disjunction
  | inversion
  | bitwiseOr
  | factor
  | field
  | pattern
  | statement
  deriving Repr, DecidableEq

/-- A name that is no reserved word. -/
def bindable (l : Lexeme) : Bool := l.kind == .name && !Text.isKeyword l.text

def name : Rule Unit := node .name (accept bindable)

/-! ### Targets -/

/-- A tree that can be the operand of a suffix, so that an attribute or subscript of it is a place. -/
def isPlace (t : Tree) : Bool := t.is .name || t.is .attribute || t.is .subscript

mutual

/-- A place to assign to; `stars` allows starred elements inside tuples and lists. -/
def isTarget (stars : Bool) : Tree → Bool
  | .node .paren children => isTargetList false children
  | .node .tuple children => isTargetList stars children
  | .node .parenTuple children => isTargetList stars children
  | .node .list children => isTargetList stars children
  | t => isPlace t

/-- All nodes are targets or, if allowed, starred targets. -/
def isTargetList (stars : Bool) : List Tree → Bool
  | [] => true
  | .leaf _ :: rest => isTargetList stars rest
  | .node .starred [_, t] :: rest => stars && isTarget stars t && isTargetList stars rest
  | .node k children :: rest => isTarget stars (.node k children) && isTargetList stars rest

end

def isStarTarget : Tree → Bool
  | .node .starred [_, t] => isTarget true t
  | t => isTarget true t

/-- A single place, perhaps in parentheses. -/
def isSingleTarget : Tree → Bool
  | .node .paren [_, inner, _] => isSingleTarget inner
  | t => isPlace t

/-! ### Elements -/

variable (self : Goal → Rule Unit)

/-- An expression, or a name bound by `:=` to one. -/
def namedExpression : Rule Unit :=
  node .named (do name; sign ":="; self .expression) <|> self .expression

/-- `*` and an operand. -/
def starred : Rule Unit := node .starred (do sign "*"; self .bitwiseOr)

def starExpression : Rule Unit := do
  if ← atSign "*" then starred self else self .expression

def starNamedExpression : Rule Unit := do
  if ← atSign "*" then starred self else namedExpression self

def starExpressions : Rule Unit := tupled .tuple (starExpression self)

/-- `yield` with what is handed out. -/
def yieldExpression : Rule Unit :=
  nodeAs (do
    word "yield"
    if ← atWord "from" then
      word "from"
      self .expression
      return .yieldedFrom
    else
      let _ ← attempt (starExpressions self)
      return .yielded)

/-- Targets with commas between them, before `in`. -/
def loopTargets : Rule Unit := do
  tupled .tuple (do if ← atSign "*" then starred self else self .bitwiseOr)
  check (isStarTarget (← latest))

def comprehensionClauses : Rule Unit := do
  let clause : Rule Unit := node .comprehensionFor do
    if ← atWord "async" then word "async"
    word "for"
    loopTargets self
    word "in"
    self .disjunction
    many (node .comprehensionIf do
      word "if"
      self .disjunction)
  clause
  many clause

def atClause : Rule Bool := do
  if ← atWord "for" then return true
  if ← atWord "async" then afterNext fun l => l.isWord "for" else return false

/-! ### Atoms -/

/-- What stands between `(` and `)`: nothing, a `yield`, an expression, a generator or a tuple. -/
def parenthesised : Rule Unit :=
  nodeAs do
    sign "("
    if ← atSign ")" then
      sign ")"
      return .parenTuple
    if ← atWord "yield" then
      yieldExpression self
      sign ")"
      return .paren
    starNamedExpression self
    let first ← latest
    if ← atSign "," then
      many (do sign ","; starNamedExpression self)
      let _ ← attempt (sign ",")
      sign ")"
      return .parenTuple
    check (!first.is .starred)
    if ← atClause then
      comprehensionClauses self
      sign ")"
      return .generator
    sign ")"
    return .paren

/-- What stands between `[` and `]`. -/
def listDisplay : Rule Unit :=
  nodeAs do
    sign "["
    if ← atSign "]" then
      sign "]"
      return .list
    starNamedExpression self
    let first ← latest
    if ← atClause then
      check (!first.is .starred)
      comprehensionClauses self
      sign "]"
      return .listComprehension
    many (do sign ","; starNamedExpression self)
    let _ ← attempt (sign ",")
    sign "]"
    return .list

def pairValue : Rule Unit := wrap .pair (do sign ":"; self .expression)

/-- A key with its value, or `**` and a mapping. -/
def dictItem : Rule Unit := do
  if ← atSign "**" then node .unpackedPair (do sign "**"; self .bitwiseOr)
  else
    self .expression
    pairValue self

/-- What stands between braces: a dictionary, a set or a comprehension of either. -/
def braceDisplay : Rule Unit :=
  nodeAs do
    sign "\x7b"
    if ← atSign "\x7d" then
      sign "\x7d"
      return .dict
    if ← atSign "**" then dictItem self
    else
      starNamedExpression self
      let first ← latest
      if !first.is .starred && !first.is .named && (← atSign ":") then pairValue self
    let first ← latest
    let isDict := first.is .pair || first.is .unpackedPair
    if ← atClause then
      check (!first.is .starred && !first.is .unpackedPair)
      comprehensionClauses self
      sign "\x7d"
      return if isDict then .dictComprehension else .setComprehension
    many (do sign ","; if isDict then dictItem self else starNamedExpression self)
    let _ ← attempt (sign ",")
    sign "\x7d"
    return if isDict then .dict else .set

/-- A replacement field of a string: an expression, perhaps shown with its text, a conversion, and a
format part that may hold fields itself. -/
def replacementField : Rule Unit :=
  node .field do
    sign "\x7b"
    if ← atWord "yield" then yieldExpression self else starExpressions self
    let _ ← attempt (sign "=")
    if ← atSign "!" then
      sign "!"
      accept fun l => l.kind == .name && l.gap.isEmpty && ["r", "s", "a"].contains l.text
    if ← atSign ":" then
      node .fieldSpec do
        sign ":"
        many (kind .joinedText <|> self .field)
    sign "\x7d"

def joinedString : Rule Unit :=
  node .joined do
    kind .joinedStart
    many (kind .joinedText <|> self .field)
    kind .joinedEnd

def stringPart : Rule Unit := do
  if ← atKind .string then node .string (kind .string) else joinedString self

def strings : Rule Unit :=
  nodeWhen .concatenated do
    stringPart self
    many (stringPart self)
    return decide (1 < (← built).length)

def isConstant (l : Lexeme) : Bool := l.kind == .name && ["None", "True", "False"].contains l.text

/-- An expression without operators. -/
def atom : Rule Unit := do
  if ← atSign "(" then parenthesised self
  else if ← atSign "[" then listDisplay self
  else if ← atSign "\x7b" then braceDisplay self
  else if ← atSign "..." then node .ellipsis (sign "...")
  else if ← atKind .number then node .number (kind .number)
  else if (← atKind .string) || (← atKind .joinedStart) then strings self
  else if ← next isConstant then node .constant (accept isConstant)
  else name

/-! ### Suffixes -/

/-- One argument of a call; a generator without parentheses only where `alone` allows it. -/
def argument (alone : Bool) : Rule Unit := do
  if ← atSign "**" then node .doubleStarArgument (do sign "**"; self .expression)
  else if ← atSign "*" then node .starArgument (do sign "*"; self .expression)
  else if (← next bindable) && (← afterNext fun l => l.isOperator "=") then
    node .keywordArgument (do name; sign "="; self .expression)
  else
    nodeAs do
      namedExpression self
      if alone && (← atClause) then
        comprehensionClauses self
        return .generatorArgument
      return .argument

/-- Which arguments may still come: after a keyword none by position, and after `**` no `*`. -/
inductive ArgumentOrder where
  | positional
  | keyword
  | doubleStar
  deriving Repr, DecidableEq

/-- The order after one more argument; `none` if it may not stand there. -/
def ArgumentOrder.step (o : ArgumentOrder) (t : Tree) : Option ArgumentOrder :=
  if t.is .argument then if o == .positional then some o else none
  else if t.is .starArgument then if o == .doubleStar then none else some o
  else if t.is .keywordArgument then some (if o == .positional then .keyword else o)
  else if t.is .doubleStarArgument then some .doubleStar
  else some o

def argumentsOrdered (ts : List Tree) : Bool := (ts.foldlM ArgumentOrder.step .positional).isSome

/-- Arguments before the closing parenthesis; a generator may stand alone there. -/
def arguments : Rule Unit := do
  if ← atSign ")" then return
  argument self true
  if (← latest).is .generatorArgument then return
  many (do sign ","; argument self false)
  let _ ← attempt (sign ",")
  check (argumentsOrdered (← built).reverse)

def callSuffix : Rule Unit := do
  sign "("
  arguments self
  sign ")"

/-- The part of a slice from its first colon. -/
def sliceTail : Rule Unit := do
  sign ":"
  let _ ← attempt (self .expression)
  if ← atSign ":" then
    sign ":"
    let _ ← attempt (self .expression)

def sliceItem : Rule Unit := do
  if ← atSign "*" then node .starred (do sign "*"; self .expression)
  else if ← atSign ":" then node .slice (sliceTail self)
  else
    namedExpression self
    if (← atSign ":") && !(← latest).is .named then wrap .slice (sliceTail self)

def subscriptSuffix : Rule Unit := do
  sign "["
  tupled .tuple (sliceItem self)
  sign "]"

/-- An atom with attributes, calls and subscripts. -/
def primary : Rule Unit := do
  atom self
  many do
    if ← atSign "." then wrap .attribute (do sign "."; name)
    else if ← atSign "(" then wrap .call (callSuffix self)
    else if ← atSign "[" then wrap .subscript (subscriptSuffix self)
    else failure

/-! ### Operators -/

/-- `await` and its operand, or the operand alone. -/
def awaitPrimary : Rule Unit := do
  if ← atWord "await" then node .awaited (do word "await"; primary self) else primary self

def factor : Rule Unit := do
  if ← atSigns ["+", "-", "~"] then
    node .unary do
      accept fun _ => true
      self .factor
  else
    awaitPrimary self
    if ← atSign "**" then
      let _ ← attempt (wrap .power (do sign "**"; self .factor))

/-- The binary operators, loosest first. -/
def binaryLevels : List (List String) :=
  [["|"], ["^"], ["&"], ["<<", ">>"], ["+", "-"], ["*", "/", "//", "%", "@"]]

/-- Operands joined by the operators of the given levels, each level associating to the left. -/
def binaryTower : List (List String) → Rule Unit
  | [] => factor self
  | level :: tighter => do
    binaryTower tighter
    many do
      check (← atSigns level)
      wrap .binary do
        accept fun _ => true
        binaryTower tighter

def bitwiseOr : Rule Unit := binaryTower self binaryLevels

def comparisonSign : Rule Unit := do
  if ← atSigns ["==", "!=", "<=", "<", ">=", ">"] then accept fun _ => true
  else if ← atWord "in" then word "in"
  else if ← atWord "not" then do word "not"; word "in"
  else
    word "is"
    let _ ← attempt (word "not")

def comparison : Rule Unit :=
  nodeWhen .comparison do
    bitwiseOr self
    many (do comparisonSign; bitwiseOr self)
    return decide (1 < (← built).length)

/-- A comparison, perhaps negated. -/
def inversion : Rule Unit := do
  if ← atWord "not" then node .negation (do word "not"; self .inversion) else comparison self

/-- Operands joined by `and`. -/
def conjunction : Rule Unit := do
  inversion self
  many (wrap .conjunction (do word "and"; inversion self))

/-- Operands joined by `or`. -/
def disjunction : Rule Unit := do
  conjunction self
  many (wrap .disjunction (do word "or"; conjunction self))

/-! ### Parameters -/

/-- The order that parameters keep: where the list stands after some of them. -/
structure ParameterOrder where
  /-- Nothing came yet. -/
  first : Bool := true
  slash : Bool := false
  star : Bool := false
  /-- A bare `*` waits for a parameter after it. -/
  pending : Bool := false
  default : Bool := false
  finished : Bool := false

/-- The order after one more parameter; `none` if it may not stand there. -/
def ParameterOrder.step (o : ParameterOrder) (t : Tree) : Option ParameterOrder :=
  let o' := { o with first := false }
  if o.finished then none
  else if t.is .slashParameter then
    if o.first || o.slash || o.star then none else some { o' with slash := true }
  else if t.is .starParameter then
    if o.star then none else some { o' with star := true, pending := (t.partsOf .name).isEmpty }
  else if t.is .doubleStarParameter then
    if o.pending then none else some { o' with finished := true }
  else if t.is .parameter then
    let hasDefault := !(t.partsOf .defaultValue).isEmpty
    if !hasDefault && o.default && !o.star then none
    else some { o' with pending := false, default := o.default || hasDefault }
  else some o

def parametersOrdered (ts : List Tree) : Bool :=
  match ts.foldlM ParameterOrder.step {} with
  | some o => !o.pending
  | none => false

/-- One parameter; `annotated` reads the annotations that may follow a name, given whether a star
stands before it. -/
def parameter (annotated : Bool → Rule Unit) : Rule Unit := do
  if ← atSign "/" then node .slashParameter (sign "/")
  else if ← atSign "**" then
    node .doubleStarParameter do
      sign "**"
      name
      annotated false
  else if ← atSign "*" then
    node .starParameter do
      sign "*"
      if ← attempt name then annotated true
  else
    node .parameter do
      name
      annotated false
      if ← atSign "=" then node .defaultValue (do sign "="; self .expression)

def parameters (annotated : Bool → Rule Unit) : Rule Unit :=
  node .parameters do
    let trailing ← commas (parameter self annotated)
    let built ← built
    check (parametersOrdered built.reverse)
    check (!(trailing && (built.drop 1).head?.any fun t =>
      t.is .starParameter && (t.partsOf .name).isEmpty))

def lambda : Rule Unit :=
  node .lambda do
    word "lambda"
    if !(← atSign ":") then parameters self fun _ => pure ()
    sign ":"
    self .expression

/-! ### The top -/

def expression : Rule Unit := do
  if ← atWord "lambda" then lambda self
  else
    disjunction self
    if ← atWord "if" then
      let _ ← attempt (wrap .conditional do
        word "if"
        disjunction self
        word "else"
        self .expression)

end DoBlocks.Host.Grammar
