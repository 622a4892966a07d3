import DoBlocks.Host.Grammar.Pattern

/-!
# Rules for statements

A line of simple statements, the compound statements, and whole modules. Assignments are read as
expressions first: what follows decides what the statement is, and then its targets are checked.
-/

namespace DoBlocks.Host.Grammar

open Rule

def augmentedSigns : List String :=
  ["+=", "-=", "*=", "@=", "/=", "%=", "&=", "|=", "^=", "<<=", ">>=", "**=", "//="]

variable (d : Dialect) (self : Goal → Rule Unit)

/-! ### Simple statements -/

/-- What may be assigned: `yield` or expressions. -/
def assignedValue : Rule Unit := do
  if ← atWord "yield" then yieldExpression self else starExpressions self

def isAnnotatable (t : Tree) : Bool :=
  isPlace t || (d == .strict && t.is .paren && isSingleTarget t)

/-- A statement that starts with an expression: an annotated, plain or augmented assignment, or the
expression alone. -/
def expressionLed : Rule Unit :=
  nodeAs do
    starExpressions self
    let first ← latest
    if ← atSign ":" then
      check (isAnnotatable d first)
      node .typeMark (do sign ":"; self .expression)
      if ← atSign "=" then
        sign "="
        assignedValue self
      return .annotatedAssign
    if ← atSign "=" then
      check (isStarTarget first)
      sign "="
      many do
        starExpressions self
        check (isStarTarget (← latest))
        sign "="
      assignedValue self
      check (!(← atSign "="))
      return .assign
    if ← atSigns augmentedSigns then
      check (isSingleTarget first)
      accept fun _ => true
      assignedValue self
      return .augmentedAssign
    return .expressionStatement

def nameList : Rule Unit := do
  name
  many (do sign ","; name)

/-- Targets of `del`. -/
def deleteTargets : Rule Unit := do
  tupled .tuple (self .bitwiseOr)
  check (isTarget false (← latest))

def dottedName : Rule Unit :=
  node .dottedName do
    name
    many (do sign "."; name)

def newName : Rule Unit := do
  if ← atWord "as" then
    word "as"
    name

def importedNames : Rule Unit := do
  let item : Rule Unit := node .importAlias (do name; newName)
  if ← atSign "*" then sign "*"
  else if ← atSign "(" then
    sign "("
    let _ ← commas item
    sign ")"
  else
    item
    many (do sign ","; item)

/-- An import of names from a module; dots before it count levels up. -/
def importNames : Rule Unit :=
  node .importNames do
    word "from"
    many (accept fun l => l.isOperator "." || l.isOperator "...")
    let dots := decide (1 < (← built).length)
    let named ← attempt dottedName
    check (dots || named)
    word "import"
    importedNames

def typeParameter : Rule Unit :=
  node .typeParameter do
    if ← atSign "**" then do sign "**"; name
    else if ← atSign "*" then do sign "*"; name
    else
      name
      if ← atSign ":" then
        sign ":"
        self .expression
    if ← atSign "=" then
      sign "="
      starExpression self

/-- Type parameters in brackets, where the dialect has them. -/
def typeParameters : Rule Unit := do
  if d == .tolerant && (← atSign "[") then
    node .typeParameters do
      sign "["
      let _ ← commas (typeParameter self)
      sign "]"

/-- A named type, where the dialect has them. -/
def typeAlias : Rule Unit :=
  node .typeAlias do
    check (d == .tolerant)
    word "type"
    name
    typeParameters d self
    sign "="
    self .expression

def simpleStatement : Rule Unit := do
  if ← atWord "return" then
    node .returnStatement do
      word "return"
      let _ ← attempt (starExpressions self)
  else if ← atWord "import" then
    node .importModules do
      word "import"
      let item : Rule Unit := node .importAlias (do dottedName; newName)
      item
      many (do sign ","; item)
  else if ← atWord "from" then importNames
  else if ← atWord "raise" then
    node .raiseStatement do
      word "raise"
      if ← attempt (self .expression) then
        if ← atWord "from" then
          word "from"
          self .expression
  else if ← atWord "pass" then node .passStatement (word "pass")
  else if ← atWord "del" then node .deleteStatement (do word "del"; deleteTargets self)
  else if ← atWord "yield" then node .expressionStatement (yieldExpression self)
  else if ← atWord "assert" then
    node .assertStatement do
      word "assert"
      self .expression
      if ← atSign "," then
        sign ","
        self .expression
  else if ← atWord "break" then node .breakStatement (word "break")
  else if ← atWord "continue" then node .continueStatement (word "continue")
  else if ← atWord "global" then node .globalStatement (do word "global"; nameList)
  else if ← atWord "nonlocal" then node .nonlocalStatement (do word "nonlocal"; nameList)
  else typeAlias d self <|> expressionLed d self

def simpleLine : Rule Unit :=
  node .line do
    simpleStatement d self
    many (do sign ";"; simpleStatement d self)
    let _ ← attempt (sign ";")
    kind .newline

/-! ### Compound statements -/

/-- The body of a compound statement: the rest of the line, or indented lines. -/
def suite : Rule Unit :=
  node .suite do
    if ← atKind .newline then
      kind .newline
      kind .indent
      self .statement
      many (self .statement)
      kind .dedent
    else simpleLine d self

def body : Rule Unit := do
  sign ":"
  suite d self

/-- The `else` part of a statement. -/
def elseSuite : Rule Unit := node .elseSuite (do word "else"; body d self)

def conditionalStatement : Rule Unit :=
  node .conditionalStatement do
    word "if"
    namedExpression self
    body d self
    many do
      word "elif"
      namedExpression self
      body d self
    if ← atWord "else" then elseSuite d self

def whileLoop : Rule Unit :=
  node .whileLoop do
    word "while"
    namedExpression self
    body d self
    if ← atWord "else" then elseSuite d self

/-- The word `async` where it is allowed. -/
def maybeAsync : Rule Unit := do
  if ← atWord "async" then word "async"

def forLoop : Rule Unit :=
  node .forLoop do
    maybeAsync
    word "for"
    loopTargets self
    word "in"
    starExpressions self
    body d self
    if ← atWord "else" then elseSuite d self

/-- An item of a `with` statement with its optional target. -/
def withItem : Rule Unit :=
  node .withItem do
    self .expression
    let _ ← attempt do
      word "as"
      starExpressionTarget
      check (← atSigns [",", ":", ")"])
where
  /-- One target. -/
  starExpressionTarget : Rule Unit := do
    if ← atSign "*" then starred self else self .bitwiseOr
    check (isStarTarget (← latest))

def withStatement : Rule Unit :=
  node .withStatement do
    maybeAsync
    word "with"
    let grouped ← attempt do
      sign "("
      let _ ← commas (withItem self)
      sign ")"
      check (← atSign ":")
    if !grouped then
      withItem self
      many (do sign ","; withItem self)
    body d self

/-- The header of a handler after `except`: what it catches and the name for it. -/
def caught : Rule Unit := do
  self .expression
  if d == .tolerant && (← atSign ",") then
    many (do sign ","; self .expression)
    let _ ← attempt (sign ",")
  else newName

def handler : Rule Unit :=
  node .handler do
    word "except"
    if !(← atSign ":") then caught d self
    body d self

def starHandler : Rule Unit :=
  node .starHandler do
    word "except"
    sign "*"
    caught d self
    body d self

def tryStatement : Rule Unit :=
  node .tryStatement do
    word "try"
    body d self
    let handled ← attempt do
      if ← afterNext fun l => l.isOperator "*" then
        starHandler d self
        many (starHandler d self)
      else
        handler d self
        many (handler d self)
    if handled then
      if ← atWord "else" then elseSuite d self
    let final ← attempt (node .finallySuite (do word "finally"; body d self))
    check (handled || final)

/-- Annotation of a parameter; after `*` it may be starred. -/
def parameterType (star : Bool) : Rule Unit := do
  if ← atSign ":" then
    node .typeMark do
      sign ":"
      if star then starExpression self else self .expression

def functionDefinition : Rule Unit :=
  node .function do
    maybeAsync
    word "def"
    name
    typeParameters d self
    sign "("
    if !(← atSign ")") then parameters self (parameterType self)
    sign ")"
    if ← atSign "->" then
      node .typeMark do
        sign "->"
        self .expression
    body d self

def classDefinition : Rule Unit :=
  node .classDefinition do
    word "class"
    name
    typeParameters d self
    if ← atSign "(" then
      callSuffix self
      check (!(← built).any fun t => t.is .generatorArgument)
    body d self

def decorated : Rule Unit :=
  node .decorated do
    let decorator : Rule Unit := node .decorator do
      sign "@"
      namedExpression self
      kind .newline
    decorator
    many decorator
    if ← atWord "class" then classDefinition d self else functionDefinition d self

def caseClause : Rule Unit :=
  node .caseClause do
    word "case"
    casePattern self
    if ← atWord "if" then
      node .guard do
        word "if"
        namedExpression self
    body d self

/-- The header of a `match` statement up to the first case. -/
def matchHeader : Rule Unit := do
  word "match"
  tupled .tuple (starNamedExpression self)
  check (!(← latest).is .starred)
  sign ":"
  kind .newline
  kind .indent

def matchStatement : Rule Unit :=
  node .matchStatement do
    matchHeader self
    caseClause d self
    many (caseClause d self)
    kind .dedent

def statement : Rule Unit := do
  if ← atSign "@" then decorated d self
  else if ← atWord "if" then conditionalStatement d self
  else if ← atWord "while" then whileLoop d self
  else if ← atWord "for" then forLoop d self
  else if ← atWord "try" then tryStatement d self
  else if ← atWord "with" then withStatement d self
  else if ← atWord "def" then functionDefinition d self
  else if ← atWord "class" then classDefinition d self
  else if ← atWord "async" then
    if ← afterNext fun l => l.isWord "def" then functionDefinition d self
    else if ← afterNext fun l => l.isWord "for" then forLoop d self
    else withStatement d self
  else if ← atWord "match" then matchStatement d self <|> simpleLine d self
  else simpleLine d self

/-! ### Closing the recursion -/

/-- The rule for a goal, given the rules at the next smaller depth. -/
def production (self : Goal → Rule Unit) : Goal → Rule Unit
  | .expression => expression self
  | .disjunction => disjunction self
  | .inversion => inversion self
  | .bitwiseOr => bitwiseOr self
  | .factor => factor self
  | .field => replacementField self
  | .pattern => pattern self
  | .statement => statement d self

/-- The rule for a goal with at most `depth` rules inside one another. -/
def rule : Nat → Goal → Rule Unit
  | 0, _ => failure
  | depth + 1, goal => production d (rule depth) goal

end DoBlocks.Host.Grammar
