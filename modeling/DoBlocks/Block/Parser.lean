import DoBlocks.Block
import DoBlocks.Fragment
import DoBlocks.Host.Reading
import DoBlocks.ParseError

/-!
# Reading blocks

The reader walks over the significant tokens of a text. It finds the extent of each host fragment by
its brackets, hands the text of the fragment to the host grammar, and keeps a table with the places
of all escape markers seen so far. The table outlives a failure: the numbers of later markers go on
from there.

A block inside a block is read by the reader at the next smaller depth, so the number of tokens
bounds the depth.
-/

namespace DoBlocks

/-- Why reading a block stops. -/
inductive BlockFailure where
  | fault (e : ParseError)
  /-- The host text of a fragment is badly written. -/
  | spelling
  /-- An escape call written by hand has a number that is not decimal. -/
  | badMark (mark : EscapeMark)
  /-- An escape call written by hand has a number with too many digits. -/
  | longMark (digits : Nat)
  /-- An escape call written by hand has a number beyond the table. -/
  | unknownMark
  deriving Repr, DecidableEq, Inhabited

/-- The wording of a bad number; other failures have none of their own. -/
def BlockFailure.message? : BlockFailure → Option String
  | fault e => some e.fault.message
  | spelling => none
  | badMark mark => some s!"invalid literal for int() with base 10: {Text.quoted mark}"
  | longMark digits => some (s!"Exceeds the limit (4300 digits) for integer string conversion: value has {digits} digits; " ++
      "use sys.set_int_max_str_digits() to increase the limit")
  | unknownMark => none

/-- The most digits that the number of an escape may have. -/
def markDigitLimit : Nat := 4300

namespace BlockReader

/-- Where the reader stands: the tokens to come, the token before them, the end of the text, and the
places of the escape markers so far. -/
structure State where
  rest : List SpacedToken
  last : Token
  stop : Token
  markers : List Span
  deriving Repr, Inhabited

abbrev Reader := ExceptT BlockFailure (StateM State)

/-! ### Tokens -/

def fail {α : Type} (fault : ParseFault) (span : Span) : Reader α := throw (.fault ⟨fault, span⟩)

/-- The next token; at the end of the text, its end. -/
def peek : Reader Token := do
  let st ← get
  return (st.rest.head?.map SpacedToken.toToken).getD st.stop

/-- Moves past the next token; at the end of the text, past its end. -/
def consume : Reader Token := do
  let st ← get
  let t := (st.rest.head?.map SpacedToken.toToken).getD st.stop
  set { st with rest := st.rest.drop 1, last := t }
  return t

/-- Moves past the given tokens, which come next. -/
def advance (ts : List SpacedToken) : Reader Unit :=
  modify fun st =>
    { st with
      rest := st.rest.drop ts.length
      last := (ts.getLast?.map SpacedToken.toToken).getD st.last }

def last : Reader Token := return (← get).last

/-- The next token is the symbol `sign`. -/
def atSymbol (sign : String) : Reader Bool := return (← peek).isSymbol sign

/-- The next token is the name `word`. -/
def atName (word : String) : Reader Bool := return (← peek).isName word

def endsStatement (t : Token) : Bool :=
  t.kind == .newline || t.kind == .eof || t.isSymbol ";" || t.isSymbol "\x7d"

def atStatementEnd : Reader Bool := return endsStatement (← peek)

/-- Moves past the next tokens that satisfy `p`. -/
def skipWhile (p : Token → Bool) : Reader Unit := do
  advance ((← get).rest.takeWhile fun t => p t.toToken)

def skipNewlines : Reader Unit := skipWhile fun t => t.kind == .newline

def skipSeparators : Reader Unit := skipWhile fun t => t.kind == .newline || t.isSymbol ";"

/-! ### Extents -/

def startsBlock (keyword : String) : List SpacedToken → Bool
  | k :: brace :: _ => k.isName keyword && brace.isSymbol "\x7b"
  | _ => false

/-- The tokens of a fragment: up to the end of the statement, or to a token outside brackets that
satisfies `stop`. `openers` are the open brackets, `before` is the token before the next. -/
def extent (keyword : String) (stop : Token → Bool) (openers : List SpacedToken)
    (before : Option SpacedToken) : List SpacedToken → Except ParseError (List SpacedToken)
  | [] =>
    match openers with
    | o :: _ => .error ⟨.unclosed o.text, o.span⟩
    | [] => .ok []
  | t :: rest => do
    if openers.isEmpty then
      if stop t.toToken || t.kind == .newline || t.isSymbol ";" || t.isSymbol "\x7d" then
        return []
      if t.isCloser then throw ⟨.unmatched t.text, t.span⟩
    if t.isOpener then
      match before with
      | some k =>
        if startsBlock keyword [k, t] then throw ⟨.blockInside keyword, k.span⟩
      | none => pure ()
      return t :: (← extent keyword stop (t :: openers) (some t) rest)
    else if t.isCloser then
      match openers with
      | o :: outer =>
        if Token.closerOf o.text != t.text then
          throw ⟨.mismatched t.text o.text o.span, t.span⟩
        return t :: (← extent keyword stop outer (some t) rest)
      | [] => throw ⟨.unmatched t.text, t.span⟩
    else return t :: (← extent keyword stop openers (some t) rest)

/-- The tokens of this statement before the first place outside brackets that satisfies `p`. Brackets
are only counted. -/
def before? (p : List SpacedToken → Bool) (depth : Nat) : List SpacedToken → Option (List SpacedToken)
  | [] => none
  | t :: rest =>
    if depth == 0 && p (t :: rest) then some []
    else if depth == 0 && (t.kind == .newline || t.isSymbol ";") then none
    else if t.isOpener then (before? p (depth + 1) rest).map (t :: ·)
    else if t.isCloser then
      match depth with
      | 0 => none
      | d + 1 => (before? p d rest).map (t :: ·)
    else (before? p depth rest).map (t :: ·)

/-- The tokens of the fragment that comes next; they stay to be read. -/
def scan (keyword : String) (stop : Token → Bool) : Reader (List SpacedToken) := do
  match extent keyword stop [] none (← get).rest with
  | .ok ts => return ts
  | .error e => throw (.fault e)

/-! ### Host fragments -/

/-- A token range that was scanned: its tokens and the span of the range. The span of an empty range
runs back to the token before it. -/
structure Range where
  tokens : List SpacedToken
  span : Span

/-- The fragment that comes next, up to a token that satisfies `stop`; the reader moves past it. -/
def range (keyword : String) (stop : Token → Bool) : Reader Range := do
  let ts ← scan keyword stop
  let first ← peek
  advance ts
  return ⟨ts, first.span.through (← last).span⟩

/-- The host text of a fragment; its markers enter the table. -/
def hostText (ts : List SpacedToken) : Reader String := do
  let items := Fragment.ofTokens ts
  let index := (← get).markers.length
  let enter (ms : List SpacedToken) : Reader Unit :=
    modify fun st => { st with markers := st.markers ++ ms.map fun m => m.span }
  match Fragment.incomplete items with
  | some (complete, marker) =>
    enter complete
    fail .escapeWithoutOperand marker.span
  | none =>
    enter (Fragment.markers items)
    return Fragment.text index items

/-- The number an escape mark stands for: decimal digits, with underscores between them. -/
def markNumber (mark : EscapeMark) : Except BlockFailure Nat :=
  let cs := mark.toList.filter (· != '_')
  if !cs.all Char.isDigit then .error (.badMark mark)
  else if markDigitLimit < cs.length then .error (.longMark cs.length)
  else .ok (cs.foldl (fun n c => 10 * n + (c.toNat - '0'.toNat)) 0)

/-- The least number of the marks. -/
def leastMark (marks : List EscapeMark) : Except BlockFailure (Option Nat) :=
  marks.foldlM (fun least mark => do
    let n ← markNumber mark
    return some (least.elim n (min n))) none

/-- Stops with a fault at the first of the marked escapes, if there is any. -/
def rejectMarks (marks : List EscapeMark) (fault : ParseFault) : Reader Unit := do
  match leastMark marks with
  | .error e => throw e
  | .ok none => return
  | .ok (some n) =>
    match (← get).markers[n]? with
    | some span => fail fault span
    | none => throw .unknownMark

/-- The tree the host grammar finds, or a fault at the given place. -/
def hostTree (r : Except Host.Refusal Host.Tree) (fault : ParseFault) (span : Span) :
    Reader Host.Tree :=
  match r with
  | .ok t => return t
  | .error .grammar => fail fault span
  | .error .spelling => throw .spelling

/-- Reads a range as an expression. Where escapes are allowed, those that cannot be lifted are
faults; elsewhere all of them are. -/
def hostExpression (r : Range) (role : FragmentRole) (escapes : Bool) : Reader Expr := do
  let text ← hostText r.tokens
  let tree ← hostTree (Host.readExpression text) (.invalidFragment role) r.span
  let e := tree.toExpr
  if escapes then rejectMarks e.misplaced .escapeMisplaced
  else rejectMarks e.marks (.escapeForbidden role)
  return e

def hostPattern (r : Range) : Reader Pattern := do
  let text := "match _:\n    case " ++ SpacedToken.textOf r.tokens ++ ":\n        pass\n"
  let tree ← hostTree (Host.readStatement text) .invalidPattern r.span
  match tree.partsOf .caseClause with
  | c :: _ => return (c.parts.head?.map Host.Tree.toPattern).getD default
  | [] => fail .invalidPattern r.span

/-- The only simple statement of a line. -/
def onlySimple? (tree : Host.Tree) : Option Host.Tree :=
  if tree.is .line then
    match tree.parts with
    | [t] => some t
    | _ => none
  else none

def hostSimple (r : Range) : Reader Simple := do
  let text ← hostText r.tokens
  let tree ← hostTree (Host.readStatement text) (.invalidFragment .statement) r.span
  match onlySimple? tree with
  | some t =>
    let s := t.toSimple
    rejectMarks s.misplaced .escapeMisplaced
    return s
  | none => fail .compoundStatement r.span

def hostTarget (r : Range) : Reader Host.Surface := do
  let text := "for " ++ SpacedToken.textOf r.tokens ++ " in _: pass"
  let tree ← hostTree (Host.readStatement text) (.invalidFragment .loopTarget) r.span
  match tree.parts with
  | target :: _ => return target.surface
  | [] => return []

/-- The targets of an assignment, each with its equals sign and the gaps around it. -/
def targetsOf : List Host.Tree → List Target
  | t :: .leaf equals :: v :: rest =>
    .written (t.surface ++ equals.gap ++ equals.surface ++ v.gap) :: targetsOf (v :: rest)
  | _ => []

def sinkBefore (keyword : String) (before : List SpacedToken) (block : Token) : Reader Sink := do
  match before, before.getLast? with
  | first :: _, some final =>
    if before.length == 1 && first.isName "return" then return .returning
    if final.isOperator "=" then
      match Host.readStatement (SpacedToken.textOf before ++ " None") with
      | .ok tree =>
        if let some t := onlySimple? tree then
          if t.is .assign then return .assign (targetsOf t.children)
      | .error .grammar => pure ()
      | .error .spelling => throw .spelling
    fail (.blockInside keyword) (first.span.through block.span)
  | _, _ => return .discard

/-! ### Statements -/

variable (keyword : String) (block : Bool → Reader Block)

/-- Reads `^` and the value after it; in an arm the value ends at a comma. -/
def escape (inArm : Bool) : Reader Escape := do
  let marker ← consume
  let r ← range keyword fun t => inArm && t.isSymbol ","
  if r.tokens.isEmpty then fail .escapeWithoutOperand marker.span
  let value ← hostExpression r .escapeValue true
  return ⟨value, marker.span.through (← last).span⟩

def nestedBlock (before : List SpacedToken) : Reader Statement := do
  let first ← peek
  advance before
  let sink ← sinkBefore keyword before (← peek)
  let _ ← consume
  let b ← block true
  if !(← atStatementEnd) then fail (.blockNotLast keyword) (← peek).span
  return .nested sink b (first.span.through (← last).span)

/-- Words that start a statement after which control does not continue. -/
def divergingWords : List String := ["return", "raise", "continue", "break"]

/-- Reads the body of an arm: a block in braces, an escape, a statement that leaves, or an
expression. All but the first become a block of one element. `anchor` is blamed for a missing body. -/
def armBody (anchor : Token) : Reader Block := do
  let t ← peek
  if t.isSymbol "\x7b" then block false
  else if endsStatement t then fail .armWithoutBody anchor.span
  else if t.isOperator "^" then
    let e ← escape keyword true
    return .mk [] (some (.escape e)) e.span false
  else
    let r ← range keyword fun t => t.isSymbol ","
    if t.kind == .name && divergingWords.contains t.text then
      let s ← hostSimple r
      return .mk [.simple s r.span] none r.span false
    else
      let value ← hostExpression r .armBody true
      return .mk [] (some (.value value)) r.span false

/-- Reads the guard of an arm, if there is one. -/
def guard? : Reader (Option Expr) := do
  if ← atName "if" then
    let word ← consume
    let r ← range keyword fun t => t.kind == .arrow
    if r.tokens.isEmpty then fail .emptyGuard word.span
    return some (← hostExpression r .guard false)
  else return none

/-- Reads an arm with an arrow; the pattern may be left out. -/
def arm : Reader Arm := do
  let first ← peek
  let r ← range keyword fun t => t.kind == .arrow || t.isName "if"
  let next ← peek
  if !(next.kind == .arrow || next.isName "if") then fail .noArrow next.span
  let pattern ←
    if r.tokens.isEmpty then
      if next.kind == .arrow then pure Pattern.wildcard else fail .armWithoutPattern next.span
    else hostPattern r
  let guard ← guard? keyword
  if (← peek).kind != .arrow then fail .noArrow (← peek).span
  let arrow ← consume
  skipNewlines
  let body ← armBody keyword block arrow
  return .mk pattern guard body (first.span.through (← last).span) false

/-- Reads the arms after a comma, at most `fuel` of them. -/
def moreArms : Nat → Reader (List Arm)
  | 0 => return []
  | fuel + 1 => do
    if ← atSymbol "," then
      let comma ← consume
      skipNewlines
      if ← atStatementEnd then fail .trailingComma comma.span
      let a ← arm keyword block
      return a :: (← moreArms fuel)
    else return []

/-- Reads the arms after `else`. Without an arrow in the statement there is one arm, written as its
body alone. -/
def arms (word : Token) : Reader (List Arm) := do
  skipNewlines
  if ← atStatementEnd then fail .noArm word.span
  let rest := (← get).rest
  if (before? (fun ts => ts.head?.any fun t => t.kind == .arrow) 0 rest).isSome then
    let a ← arm keyword block
    return a :: (← moreArms keyword block rest.length)
  else
    let first ← peek
    let body ← armBody keyword block first
    return [.mk .wildcard none body (first.span.through (← last).span) true]

def letMatch : Reader Statement := do
  let word ← consume
  let p ← range keyword fun t => t.isName "match"
  if p.tokens.isEmpty then fail .missingPattern word.span
  let primary ← hostPattern p
  let matchWord ← consume
  let s ← range keyword fun t => t.isName "else"
  if s.tokens.isEmpty then fail .missingSource matchWord.span
  let source ← hostExpression s .source true
  let fallbacks ← if ← atName "else" then arms keyword block (← consume) else pure []
  return .letMatch primary source fallbacks (word.span.through (← last).span)

def header (role : FragmentRole) (escapes : Bool) : Reader Expr := do
  let r ← range keyword fun t => t.isSymbol "\x7b"
  if r.tokens.isEmpty then fail (.missingHeader role) (← peek).span
  let value ← hostExpression r role escapes
  if !(← atSymbol "\x7b") then fail (.noBody role) (← peek).span
  return value

def branch (role : FragmentRole) : Reader Branch := do
  let test ← header keyword role true
  return .mk test (← block false)

/-- Reads the branches after the first, at most `fuel` of them, and the `else` body. Line ends before
them belong to them. -/
def moreBranches : Nat → Reader (List Branch × Option Block)
  | 0 => return ([], none)
  | fuel + 1 => do
    let before ← get
    skipNewlines
    if ← atName "elif" then
      let _ ← consume
      let b ← branch keyword block .elifTest
      let (bs, orelse) ← moreBranches fuel
      return (b :: bs, orelse)
    else if ← atName "else" then
      let _ ← consume
      if ← atName "if" then
        let _ ← consume
        let b ← branch keyword block .elseIfTest
        let (bs, orelse) ← moreBranches fuel
        return (b :: bs, orelse)
      else return ([], some (← block false))
    else
      set before
      return ([], none)

/-- Reads `if` with its branches. -/
def conditional : Reader Conditional := do
  let word ← consume
  let first ← branch keyword block .ifTest
  let (bs, orelse) ← moreBranches keyword block (← get).rest.length
  return .mk (first :: bs) orelse (word.span.through (← last).span)

/-- Reads `while` with its test and body. -/
def whileLoop : Reader Statement := do
  let word ← consume
  let test ← header keyword .whileTest false
  let body ← block false
  return .whileLoop test body (word.span.through (← last).span)

/-- Reads `for` with its target, iterable and body. -/
def forLoop : Reader Statement := do
  let word ← consume
  let r ← range keyword fun t => t.isName "in"
  if r.tokens.isEmpty || !(← atName "in") then fail .malformedFor word.span
  let target ← hostTarget r
  let _ ← consume
  let iterable ← header keyword .iterable true
  let body ← block false
  return .forLoop target iterable body (word.span.through (← last).span)

def statement : Reader Statement := do
  let t ← peek
  let rest := (← get).rest
  if t.isOperator "^" then return .escape (← escape keyword false)
  if t.isName "let" &&
      (before? (fun ts => ts.head?.any fun u => u.isName "match") 0 rest).isSome then
    return ← letMatch keyword block
  if t.isName "if" then return .conditional (← conditional keyword block)
  if t.isName "while" then return ← whileLoop keyword block
  if t.isName "for" then return ← forLoop keyword block
  match before? (startsBlock keyword) 0 rest with
  | some before => nestedBlock keyword block before
  | none =>
    let r ← range keyword fun _ => false
    return .simple (← hostSimple r) r.span

/-- Reads statements up to the closing brace, at most `fuel` of them. `opener` is blamed if there is
none. -/
def statements (opener : Token) : Nat → Reader (List Statement)
  | 0 => fail (.unclosed "\x7b") opener.span
  | fuel + 1 => do
    skipSeparators
    let t ← peek
    if t.kind == .eof then fail (.unclosed "\x7b") opener.span
    if t.isSymbol "\x7d" then return []
    let s ← statement keyword block
    if !(← atStatementEnd) then fail (.afterStatement (← peek).text) (← peek).span
    return s :: (← statements opener fuel)

/-- The tail that a last statement gives. -/
def tailOf? : Statement → Option Tail
  | .simple s _ =>
    match s.form, s.value with
    | .expression, some e => some (.value e)
    | _, _ => none
  | .escape e => some (.escape e)
  | .conditional c => some (.conditional c)
  | .nested sink b _ => if sink.isDiscard then some (.block b) else none
  | _ => none

/-- Splits off the last statement if it gives the block its value. -/
def splitTail (ss : List Statement) : List Statement × Option Tail :=
  match ss.getLast?.bind tailOf? with
  | some tail => (ss.dropLast, some tail)
  | none => (ss, none)

def blockBody (boundary : Bool) : Reader Block := do
  let t ← peek
  if t.kind == .eof then fail .noBlock t.span
  if !t.isSymbol "\x7b" then fail (.blockExpected t.text) t.span
  let opener ← consume
  let ss ← statements keyword block opener ((← get).rest.length + 1)
  let closer ← consume
  let (body, tail) := splitTail ss
  return .mk body tail (opener.span.through closer.span) boundary

/-- Reads a block with at most `depth` blocks inside one another. -/
def blockAt : Nat → Bool → Reader Block
  | 0, _ => do fail .noBlock (← peek).span
  | depth + 1, boundary => blockBody keyword (blockAt depth) boundary

def nextBlock (boundary : Bool) : Reader Block := do
  blockAt keyword ((← get).rest.length + 1) boundary

/-- Reads a text that holds exactly one block, with or without the keyword before it. -/
def wholeText : Reader Block := do
  skipNewlines
  if ← atName keyword then
    let _ ← consume
  let b ← nextBlock keyword true
  skipNewlines
  let t ← peek
  if t.kind != .eof then fail (.afterBlock t.text) t.span
  return b

/-- The start of a script, past its first `index` tokens. -/
def State.start (s : Script) (index : Nat) : State :=
  ⟨s.tokens.drop index, ((s.tokens.take index).getLast?.map SpacedToken.toToken).getD s.stop, s.stop, []⟩

end BlockReader

def Block.parse (keyword text : String) : Except BlockFailure Block :=
  match Script.ofText text with
  | .error e => .error (.fault e)
  | .ok s => ((BlockReader.wholeText keyword).run (.start s 0)).1

/-- The block whose opening brace is the significant token `index` of a text, and the index just past
its closing brace. -/
def Block.parseAt (keyword text : String) (index : Nat) (boundary : Bool) :
    Except BlockFailure (Block × Nat) :=
  match Script.ofText text with
  | .error e => .error (.fault e)
  | .ok s =>
    match (BlockReader.nextBlock keyword boundary).run (.start s index) with
    | (.ok b, st) => .ok (b, s.tokens.length - st.rest.length)
    | (.error e, _) => .error e

end DoBlocks
