import DoBlocks.Host.Lexeme
import DoBlocks.Text.Identifier

/-!
# Cutting host text into lexemes

The lexer walks the text once. Outside brackets a line break ends a logical line, and the blanks at
the start of the next line open or close indentation levels; inside brackets a line break is part of
a gap. In the tolerant dialect a string with replacement fields is cut into its literal parts and
the lexemes of its fields. `lexemes?` is `none` when some part of the text is no lexeme.
-/

namespace DoBlocks.Host.Lexer

/-- An indentation level: its width with tabs to the next multiple of eight, its number of
characters, and its text. -/
structure Level where
  width : Nat
  count : Nat
  text : List Char
  deriving Repr, Inhabited

/-- A string with replacement fields that is still open. `depth` counts the open brackets inside it
and `specs` the format parts that have begun. -/
structure Joined where
  quote : List Char
  raw : Bool
  depth : Nat
  specs : Nat
  deriving Repr, Inhabited

namespace Joined

def inField (j : Joined) : Bool := decide (j.specs < j.depth)

def inSpec (j : Joined) : Bool := !j.inField && decide (0 < j.specs)

def opened (j : Joined) : Joined := { j with depth := j.depth + 1 }

def closed (j : Joined) : Joined :=
  { j with depth := j.depth - 1, specs := if j.depth ≤ 1 then 0 else j.specs }

end Joined

/-- Where the lexer stands. Lexemes and gap are kept latest first. -/
structure State where
  lexemes : List Lexeme
  gap : List Char
  brackets : List Char
  levels : List Level
  joined : List Joined
  lineStart : Bool
  offset : Nat
  deriving Repr, Inhabited

def State.initial : State := ⟨[], [], [], [], [], true, 0⟩

/-- The text of the innermost indentation level. -/
def State.levelText (st : State) : List Char :=
  match st.levels with
  | l :: _ => l.text
  | [] => []

/-! ### Line breaks and gaps -/

def breakLength : List Char → Nat
  | '\r' :: '\n' :: _ => 2
  | '\r' :: _ => 1
  | '\n' :: _ => 1
  | _ => 0

/-- The first line break of a text; a line feed if it has none. -/
def firstBreak : List Char → List Char
  | [] => ['\n']
  | c :: rest => if breakLength (c :: rest) == 0 then firstBreak rest else (c :: rest).take (breakLength (c :: rest))

/-- Adds a text piece unless it is empty. -/
def pushText (s : List Char) (pieces : Surface) : Surface :=
  if s.isEmpty then pieces else .text (String.ofList s) :: pieces

/-- The pieces of a gap. After each line break that no backslash precedes, the text of the
indentation level gives way to a margin. A line break equal to `usual` becomes a line feed. -/
def gapPieces (level usual : List Char) : Nat → Bool → List Char → List Char → Surface
  | 0, _, current, _ => pushText current.reverse []
  | fuel + 1, atStart, current, cs =>
    if atStart && level.isPrefixOf cs then
      pushText current.reverse (.margin :: gapPieces level usual fuel false [] (cs.drop level.length))
    else
      match cs with
      | [] => pushText current.reverse []
      | '#' :: _ =>
        let comment := cs.takeWhile fun c => c != '\r' && c != '\n'
        gapPieces level usual fuel false (comment.reverse ++ current) (cs.drop comment.length)
      | '\\' :: rest =>
        let n := breakLength rest
        gapPieces level usual fuel false ((rest.take n).reverse ++ '\\' :: current) (rest.drop n)
      | c :: rest =>
        let n := breakLength (c :: rest)
        if n == 0 then gapPieces level usual fuel false (c :: current) rest
        else
          let ending := (c :: rest).take n
          let written := if ending == usual then ['\n'] else ending
          gapPieces level usual fuel true (written.reverse ++ current) ((c :: rest).drop n)

def gapSurface (level usual : List Char) (atStart : Bool) (gap : List Char) : Surface :=
  gapPieces level usual (2 * gap.length + 2) atStart [] gap

/-! ### Adding lexemes -/

def State.emit (usual : List Char) (st : State) (kind : LexemeKind) (text : List Char) : State :=
  let atStart := st.lineStart
  { st with
    lexemes := ⟨kind, String.ofList text, gapSurface st.levelText usual atStart st.gap.reverse,
      st.offset, st.offset + text.length⟩ :: st.lexemes
    gap := []
    lineStart := false
    offset := st.offset + text.length }

/-- Adds a lexeme that stands for a change of indentation. It takes no text and leaves the gap. -/
def State.mark (st : State) (kind : LexemeKind) (text : List Char) : State :=
  { st with lexemes := ⟨kind, String.ofList text, [], st.offset, st.offset⟩ :: st.lexemes }

def State.skip (st : State) (text : List Char) : State :=
  { st with gap := text.reverse ++ st.gap, offset := st.offset + text.length }

/-! ### Numbers -/

def isDigit (c : Char) : Bool := c.isDigit

def isHex (c : Char) : Bool :=
  c.isDigit || (decide ('a' ≤ c) && decide (c ≤ 'f')) || (decide ('A' ≤ c) && decide (c ≤ 'F'))

def isOctal (c : Char) : Bool := decide ('0' ≤ c) && decide (c ≤ '7')

def isBinary (c : Char) : Bool := c == '0' || c == '1'

/-- Digits of class `p` in groups that single underscores separate: the number of characters, with
at least one digit and none of the groups empty. -/
def groups (p : Char → Bool) (n : Nat) : List Char → Option Nat
  | [] => some n
  | '_' :: d :: rest => if p d then groups p (n + 2) rest else none
  | '_' :: [] => none
  | c :: rest => if p c then groups p (n + 1) rest else some n

def digits (p : Char → Bool) (cs : List Char) : Option Nat :=
  match cs with
  | c :: rest => if p c then groups p 1 rest else none
  | [] => none

/-- Digits after a base mark; an underscore may come first. -/
def based (p : Char → Bool) (cs : List Char) : Option Nat :=
  let n? := match cs with
    | '_' :: rest => (digits p rest).map (· + 1)
    | _ => digits p cs
  n?.bind fun n =>
    match cs.drop n with
    | c :: _ => if c.isDigit then none else some (n + 2)
    | [] => some (n + 2)

/-- The length of an exponent. Letters that start none leave it at zero; a sign without a digit is
an error. -/
def exponent (cs : List Char) : Option Nat :=
  match cs with
  | e :: rest =>
    if e == 'e' || e == 'E' then
      match rest with
      | s :: more =>
        if s == '+' || s == '-' then (digits isDigit more).map (· + 2)
        else if s.isDigit then (digits isDigit rest).map (· + 1)
        else some 0
      | [] => some 0
    else some 0
  | [] => some 0

/-- The length of what may follow the digits before a point: fraction, exponent, imaginary mark. -/
def numberTail (cs : List Char) : Option Nat := do
  let fraction ← match cs with
    | '.' :: rest =>
      match rest with
      | d :: _ => if d.isDigit then (digits isDigit rest).map (· + 1) else some 1
      | [] => some 1
    | _ => some 0
  let e ← exponent (cs.drop fraction)
  let imaginary := match cs.drop (fraction + e) with
    | c :: _ => if c == 'j' || c == 'J' then 1 else 0
    | [] => 0
  return fraction + e + imaginary

/-- A number that starts with zero and has no base mark. Other digits may follow the zeros only
before a fraction, an exponent or an imaginary mark. -/
def zeroLed (cs : List Char) : Option Nat := do
  let whole ← digits isDigit cs
  let tail ← numberTail (cs.drop whole)
  let zeros := (cs.take whole).all fun c => c == '0' || c == '_'
  if tail == 0 && !zeros then none else return whole + tail

def number (cs : List Char) : Option Nat :=
  match cs with
  | '0' :: b :: rest =>
    if b == 'x' || b == 'X' then
      (match rest with
        | '_' :: more => (digits isHex more).map (· + 1)
        | _ => digits isHex rest).map (· + 2)
    else if b == 'o' || b == 'O' then based isOctal rest
    else if b == 'b' || b == 'B' then based isBinary rest
    else zeroLed cs
  | '.' :: _ => numberTail cs
  | _ => do
    let whole ← digits isDigit cs
    let tail ← numberTail (cs.drop whole)
    return whole + tail

/-- Words that may follow a number with no gap in the strict dialect. -/
def wordsAfterNumber : List (List Char) :=
  ["and", "else", "for", "if", "in", "is", "or", "not"].map String.toList

def isWordLike (c : Char) : Bool := c.isAlphanum || c == '_' || decide (128 ≤ c.toNat)

def endsNumber (rest : List Char) : Bool :=
  match rest with
  | c :: _ => !isWordLike c || wordsAfterNumber.any fun w => w.isPrefixOf rest
  | [] => true

/-! ### Strings -/

/-- The length of a string body up to and with its closing quotes, after `n` characters. -/
def stringBody (quote : List Char) : Nat → Nat → List Char → Option Nat
  | 0, _, _ => none
  | fuel + 1, n, cs =>
    if quote.isPrefixOf cs then some (n + quote.length)
    else
      match cs with
      | [] => none
      | '\\' :: rest =>
        let k := max (breakLength rest) 1
        if rest.isEmpty then none else stringBody quote fuel (n + 1 + k) (rest.drop k)
      | c :: rest =>
        if (c == '\n' || c == '\r') && quote.length == 1 then none
        else stringBody quote fuel (n + 1) rest

def stringMarks (dialect : Dialect) : List String :=
  ["", "r", "u", "b", "f", "br", "rb", "fr", "rf"] ++
    (if dialect == .tolerant then ["t", "tr", "rt"] else [])

def stringOpening (dialect : Dialect) (cs : List Char) : Option (List Char × List Char) :=
  let marks := cs.takeWhile Char.isAlpha
  if marks.length ≤ 2 && (stringMarks dialect).contains (String.ofList (marks.map Char.toLower)) then
    match cs.drop marks.length with
    | q :: rest =>
      if q == '\x27' || q == '\x22' then
        some (marks, if [q, q].isPrefixOf rest then [q, q, q] else [q])
      else none
    | [] => none
  else none

def marksJoined (marks : List Char) : Bool :=
  marks.any fun c => c == 'f' || c == 'F' || c == 't' || c == 'T'

def marksRaw (marks : List Char) : Bool := marks.any fun c => c == 'r' || c == 'R'

/-- The length of the literal text at the start of `cs` inside a string with fields. `named` holds
inside the braces of a character name. -/
def joinedText (j : Joined) : Nat → Bool → Nat → List Char → Option Nat
  | 0, _, _, _ => none
  | fuel + 1, named, n, cs =>
    if j.quote.isPrefixOf cs then some n
    else
      match cs with
      | [] => none
      | '\\' :: c :: rest =>
        if j.raw then
          if c == '\\' || c == '\x27' || c == '\x22' then joinedText j fuel named (n + 2) rest
          else joinedText j fuel named (n + 1) (c :: rest)
        else if c == '\x7b' || c == '\x7d' then joinedText j fuel named (n + 1) (c :: rest)
        else if j.inSpec then joinedText j fuel named (n + 2) rest
        else if c == 'N' && rest.head? == some '\x7b' then joinedText j fuel true (n + 3) (rest.drop 1)
        else joinedText j fuel named (n + 2) rest
      | '\x7b' :: rest =>
        if !j.inSpec && rest.head? == some '\x7b' then joinedText j fuel named (n + 2) (rest.drop 1)
        else some n
      | '\x7d' :: rest =>
        if named then joinedText j fuel false (n + 1) rest
        else if j.inSpec then some n
        else if rest.head? == some '\x7d' then joinedText j fuel named (n + 2) (rest.drop 1)
        else none
      | c :: rest =>
        if (c == '\n' || c == '\r') && j.quote.length == 1 then none
        else joinedText j fuel named (n + 1) rest

/-! ### Operators -/

/-- Operators and brackets, each before its own beginnings. -/
def operators : List (List Char) :=
  ["**=", "//=", ">>=", "<<=", "...", "!=", "->", ":=", "==", "<=", ">=", "+=", "-=", "*=", "/=", "%=",
   "&=", "|=", "^=", "@=", "**", "//", "<<", ">>", "+", "-", "*", "/", "%", "@", "&", "|", "^", "~", "<",
   ">", "(", ")", "[", "]", "\x7b", "\x7d", ",", ":", ".", ";", "=", "!"].map String.toList

def openerOf (c : Char) : Char :=
  if c == ')' then '(' else if c == ']' then '[' else '\x7b'

/-- Adds an operator and keeps account of brackets. Closing a bracket that is not open fails. -/
def State.operator (usual : List Char) (st : State) (text : List Char) : Option State :=
  match text with
  | [c] =>
    if c == '(' || c == '[' || c == '\x7b' then
      let st' := st.emit usual .operator text
      some { st' with
        brackets := c :: st.brackets
        joined := match st.joined with
          | j :: rest => j.opened :: rest
          | [] => [] }
    else if c == ')' || c == ']' || c == '\x7d' then
      match st.brackets with
      | o :: outer =>
        if o == openerOf c then
          let st' := st.emit usual .operator text
          some { st' with
            brackets := outer
            joined := match st.joined with
              | j :: rest => j.closed :: rest
              | [] => [] }
        else none
      | [] => none
    else some (st.emit usual .operator text)
  | _ => some (st.emit usual .operator text)

/-! ### Lines -/

/-- Width, number of characters and rest of the blanks at the start of a line. -/
def measure (width count : Nat) : List Char → Nat × Nat
  | ' ' :: rest => measure (width + 1) (count + 1) rest
  | '\t' :: rest => measure ((width / 8 + 1) * 8) (count + 1) rest
  | '\x0c' :: rest => measure 0 0 rest
  | _ => (width, count)

/-- Closes indentation levels until one of the given width is innermost. -/
def closeLevels (width count : Nat) : List Level → State → Option State
  | [], st => if width == 0 && count == 0 then some { st with levels := [] } else none
  | l :: outer, st =>
    if l.width == width then if l.count == count then some { st with levels := l :: outer } else none
    else if width < l.width then closeLevels width count outer (st.mark .dedent [])
    else none

/-- Opens or closes indentation levels for a line that starts with `blanks` of the given width and
number. -/
def State.indentTo (st : State) (width count : Nat) (blanks : List Char) : Option State :=
  let top := st.levels.headD ⟨0, 0, []⟩
  if width == top.width then if count == top.count then some st else none
  else if top.width < width then
    if top.count < count then
      let st' := st.mark .indent (blanks.drop top.text.length)
      some { st' with levels := ⟨width, count, blanks⟩ :: st.levels }
    else none
  else closeLevels width count st.levels st

def isInlineBlank (c : Char) : Bool := c == ' ' || c == '\t' || c == '\x0c'

/-- The blanks at the start of a line, continued lines among them, with their width and number. The
blanks before the first continuation decide if there are any; `first` is their width. -/
def continuedBlanks : Nat → Nat → Nat → Nat → List Char → List Char × Nat × Nat
  | 0, _, width, count, _ => ([], width, count)
  | fuel + 1, first, width, count, cs =>
    let blanks := cs.takeWhile isInlineBlank
    let (width, count) := measure width count blanks
    let rest := cs.drop blanks.length
    let n := breakLength (rest.drop 1)
    if rest.head? == some '\\' && n != 0 && !(rest.drop (n + 1)).isEmpty then
      let first := if first == 0 then width else first
      let (more, w, c) := continuedBlanks fuel first width count (rest.drop (n + 1))
      (blanks ++ rest.take (n + 1) ++ more, w, c)
    else (blanks, if first == 0 then width else first, if first == 0 then count else first)

/-- The blanks at the start of a line with their width and number. In the tolerant dialect a
continuation ends them. -/
def leadingBlanks (dialect : Dialect) (cs : List Char) : List Char × Nat × Nat :=
  if dialect == .strict then continuedBlanks (cs.length + 1) 0 0 0 cs
  else
    let blanks := cs.takeWhile isInlineBlank
    (blanks, measure 0 0 blanks)

/-- The last lexeme ends a line, or there is none. -/
def State.atLineEnd (st : State) : Bool :=
  match st.lexemes with
  | l :: _ => l.kind == .newline || l.kind == .dedent
  | [] => true

/-- The end of the text: a last line end if one is missing, then the open levels, then the stop. -/
def State.finish (usual : List Char) (st : State) : Option (List Lexeme) :=
  if !st.brackets.isEmpty || !st.joined.isEmpty then none
  else
    let st := if st.atLineEnd then st else st.emit usual .newline []
    let st := st.levels.foldl (fun s _ => s.mark .dedent []) st
    some ((st.mark .stop []).lexemes.reverse)

/-! ### One step -/

/-- A name, a number, a string or an operator at the start of `cs`. -/
def lexWord (dialect : Dialect) (usual : List Char) (st : State) (cs : List Char) :
    Option (State × List Char) :=
  match stringOpening dialect cs with
  | some (marks, quote) =>
    if dialect == .tolerant && marksJoined marks then
      let opening := marks ++ quote
      let st' := st.emit usual .joinedStart opening
      some ({ st' with joined := ⟨quote, marksRaw marks, 0, 0⟩ :: st.joined }, cs.drop opening.length)
    else
      let n := marks.length + quote.length
      (stringBody quote (cs.length + 1) n (cs.drop n)).map fun m =>
        (st.emit usual .string (cs.take m), cs.drop m)
  | none =>
    match cs with
    | [] => none
    | c :: rest =>
      if c.isDigit || (c == '.' && (rest.head?.map Char.isDigit).getD false) then
        (number cs).bind fun n =>
          if dialect == .strict && !endsNumber (cs.drop n) then none
          else some (st.emit usual .number (cs.take n), cs.drop n)
      else if isWordLike c then
        let word := cs.takeWhile isWordLike
        if Text.isIdentifier (String.ofList word) then
          some (st.emit usual .name word, cs.drop word.length)
        else none
      else
        let startsSpec := match st.joined with
          | j :: _ => c == ':' && j.depth == j.specs + 1
          | [] => false
        if startsSpec then
          let st' := st.emit usual .operator [c]
          some ({ st' with
            joined := match st.joined with
              | j :: more => { j with specs := j.specs + 1 } :: more
              | [] => [] }, rest)
        else
          match operators.find? fun o => o.isPrefixOf cs with
          | some o => (st.operator usual o).map fun st' => (st', cs.drop o.length)
          | none => none

/-- Literal text, the end of the string, or the start of a field. -/
def lexJoined (dialect : Dialect) (usual : List Char) (j : Joined) (st : State) (cs : List Char) :
    Option (State × List Char) :=
  match joinedText j (cs.length + 1) false 0 cs with
  | none => none
  | some 0 =>
    if j.quote.isPrefixOf cs then
      let st' := st.emit usual .joinedEnd j.quote
      some ({ st' with joined := st.joined.drop 1 }, cs.drop j.quote.length)
    else lexWord dialect usual st cs
  | some n => some (st.emit usual .joinedText (cs.take n), cs.drop n)

def step (dialect : Dialect) (usual : List Char) (st : State) (cs : List Char) :
    Option (State × List Char) :=
  let inString := match st.joined with
    | j :: _ => if j.inField then none else some j
    | [] => none
  match inString with
  | some j => lexJoined dialect usual j st cs
  | none =>
    if st.lineStart && st.brackets.isEmpty then
      let (blanks, width, count) := leadingBlanks dialect cs
      match cs.drop blanks.length with
      | [] => some (st.skip blanks, [])
      | c :: rest =>
        if c == '#' then
          let comment := (c :: rest).takeWhile fun d => d != '\n' && d != '\r'
          some (st.skip (blanks ++ comment), (c :: rest).drop comment.length)
        else
          let n := breakLength (c :: rest)
          if n == 0 then
            (st.indentTo width count blanks).bind fun st' =>
              let st'' := st'.skip blanks
              if c == '\\' then
                let k := breakLength rest
                if k == 0 || (rest.drop k).isEmpty then none
                else some ({ st''.skip (c :: rest.take k) with lineStart := false }, rest.drop k)
              else lexWord dialect usual st'' (c :: rest)
          else some (st.skip (blanks ++ (c :: rest).take n), (c :: rest).drop n)
    else
      match cs with
      | [] => none
      | c :: rest =>
        if isInlineBlank c then some (st.skip [c], rest)
        else if c == '#' then
          let comment := cs.takeWhile fun d => d != '\n' && d != '\r'
          some (st.skip comment, cs.drop comment.length)
        else if c == '\\' then
          let k := breakLength rest
          if k == 0 || (rest.drop k).isEmpty then none else some (st.skip (c :: rest.take k), rest.drop k)
        else
          let n := breakLength cs
          if n == 0 then lexWord dialect usual st cs
          else if st.brackets.isEmpty then
            some ({ st.emit usual .newline (cs.take n) with lineStart := true }, cs.drop n)
          else some (st.skip (cs.take n), cs.drop n)

/-- Runs the lexer to the end of the text. Each step takes at least one character, so `fuel` above
the length of the text is never used up. -/
def run (dialect : Dialect) (usual : List Char) : Nat → State → List Char → Option (List Lexeme)
  | _, st, [] => st.finish usual
  | 0, _, _ => none
  | fuel + 1, st, cs =>
    (step dialect usual st cs).bind fun next => run dialect usual fuel next.1 next.2

def lexemes? (dialect : Dialect) (text : String) : Option (List Lexeme) :=
  let cs := text.toList
  run dialect (firstBreak cs) (cs.length + 1) .initial cs

end DoBlocks.Host.Lexer
