import DoBlocks.Host.Grammar.Expression

/-!
# Rules for patterns

A pattern is read by trying the closed forms in a fixed order: literal, capture, wildcard, value,
group, sequence, mapping, class.
-/

namespace DoBlocks.Host.Grammar

open Rule

/-! ### Literals -/

def isImaginary (text : String) : Bool :=
  match text.toList.getLast? with
  | some c => (c == 'j' || c == 'J') && !(text.startsWith "0x" || text.startsWith "0X")
  | none => false

/-- A number, imaginary or not as asked. -/
def numberThat (imaginary : Bool) : Rule Unit :=
  node .number (accept fun l => l.kind == .number && isImaginary l.text == imaginary)

/-- A number with an optional minus sign, read by `digits`. -/
def signed (digits : Rule Unit) : Rule Unit := do
  if ← atSign "-" then node .unary (do sign "-"; digits) else digits

/-- A number, or a real and an imaginary number joined by a sign. -/
def numberPattern : Rule Unit :=
  (do
    signed (node .number (kind .number))
    check (!(← atSigns ["+", "-"]))) <|>
  node .binary (do
    signed (numberThat false)
    accept fun l => l.isOperator "+" || l.isOperator "-"
    numberThat true)

/-- A dotted name of at least two parts. -/
def dottedValue : Rule Unit := do
  name
  wrap .attribute (do sign "."; name)
  many (wrap .attribute (do sign "."; name))

def nameOrDotted : Rule Unit := do
  name
  many (wrap .attribute (do sign "."; name))

def captureTarget : Rule Unit := do
  accept fun l => bindable l && l.text != "_"
  check (!(← atSigns [".", "(", "="]))

variable (self : Goal → Rule Unit)

def literal : Rule Unit := do
  if (← atKind .number) || (← atSign "-") then numberPattern
  else if (← atKind .string) || (← atKind .joinedStart) then strings self
  else node .constant (accept isConstant)

/-! ### Compound patterns -/

/-- `*` and a capture or a wildcard. -/
def starPattern : Rule Unit :=
  node .starPattern do
    sign "*"
    node .capture captureTarget <|> node .wildcard (word "_")

def maybeStarPattern : Rule Unit := do
  if ← atSign "*" then starPattern else self .pattern

/-- Patterns with commas between them; the result tells whether there is a comma. -/
def patternItems : Rule Bool := do
  maybeStarPattern self
  let before := (← built).length
  many (do sign ","; maybeStarPattern self)
  let _ ← attempt (sign ",")
  return decide (before < (← built).length)

/-- What stands between `(` and `)` in a pattern. -/
def parenPattern : Rule Unit :=
  nodeAs do
    sign "("
    if ← atSign ")" then
      sign ")"
      return .sequencePattern
    let several ← patternItems self
    check (several || !(← latest).is .starPattern)
    sign ")"
    return if several then .sequencePattern else .groupPattern

/-- What stands between `[` and `]` in a pattern. -/
def bracketPattern : Rule Unit :=
  node .sequencePattern do
    sign "["
    if !(← atSign "]") then
      let _ ← patternItems self
    sign "]"

def mappingItem : Rule Unit :=
  node .mappingItem do
    if ← next bindable then dottedValue else literal self
    sign ":"
    self .pattern

/-- `**` and the name that takes the rest of a mapping. -/
def restPattern : Rule Unit := node .restPattern (do sign "**"; node .capture captureTarget)

/-- A mapping pattern; a rest may come last. -/
def mappingPattern : Rule Unit :=
  node .mappingPattern do
    sign "\x7b"
    if ← attempt restPattern then
      let _ ← attempt (sign ",")
    else if ← attempt (mappingItem self) then
      many (do sign ","; mappingItem self)
      let _ ← attempt (do sign ","; restPattern)
      let _ ← attempt (sign ",")
    sign "\x7d"

def keywordPattern : Rule Unit :=
  node .keywordPattern (do name; sign "="; self .pattern)

def classItem : Rule Unit := do
  if (← next bindable) && (← afterNext fun l => l.isOperator "=") then keywordPattern self
  else self .pattern

def keywordsLast : List Tree → Bool
  | [] => true
  | t :: rest =>
    (!t.is .keywordPattern || rest.all fun u => u.kind?.isNone || u.is .keywordPattern) && keywordsLast rest

def classSuffix : Rule Unit := do
  sign "("
  if !(← atSign ")") then
    let _ ← commas (classItem self)
    check (keywordsLast (← built).reverse)
  sign ")"

/-- A name in a pattern: a capture, the wildcard, a dotted value or a class. -/
def namePattern : Rule Unit := do
  if ← attempt (node .capture captureTarget) then return
  if ← atWord "_" then node .wildcard (word "_")
  else
    nodeAs do
      nameOrDotted
      if ← atSign "(" then
        classSuffix self
        return .classPattern
      check (!(← atSign "=") && (← latest).is .attribute)
      return .valuePattern

/-- A pattern without `|` and `as`. -/
def closedPattern : Rule Unit := do
  if ← atSign "(" then parenPattern self
  else if ← atSign "[" then bracketPattern self
  else if ← atSign "\x7b" then mappingPattern self
  else if ← next bindable then namePattern self
  else node .literalPattern (literal self)

/-- Closed patterns joined by `|`. -/
def orPattern : Rule Unit :=
  nodeWhen .orPattern do
    closedPattern self
    many (do sign "|"; closedPattern self)
    return decide (1 < (← built).length)

/-- A pattern, perhaps with a name for what it matches. -/
def pattern : Rule Unit := do
  orPattern self
  let _ ← attempt (wrap .asPattern do
    word "as"
    node .capture captureTarget)

/-- The pattern of a case: one pattern, or several with commas between them. -/
def casePattern : Rule Unit := do
  nodeWhen .openSequence (patternItems self)
  check (!(← latest).is .starPattern)

end DoBlocks.Host.Grammar
