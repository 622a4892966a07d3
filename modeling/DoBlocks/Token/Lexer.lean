import DoBlocks.ParseError
import DoBlocks.Text.Word
import DoBlocks.Token

/-!
# Cutting a text into tokens

Each class of tokens is a function that says how many characters at the start of a text belong to
it; zero means none. `lexeme` takes the first class, in a fixed order, that fits, so the tokens of a
text are contiguous and non-empty. A character that starts no token ends the stream with its fault.
-/

namespace DoBlocks.Lexer

/-! ### Strings -/

/-- The length of a triple-quoted body and its closing quotes, after `n` characters. A backslash
takes the next character with it. -/
def tripleBody (quote : Char) (n : Nat) : List Char → Option Nat
  | [] => none
  | '\\' :: _ :: rest => tripleBody quote (n + 2) rest
  | c :: rest =>
    if [quote, quote, quote].isPrefixOf (c :: rest) then some (n + 3)
    else if c == '\\' then none
    else tripleBody quote (n + 1) rest

/-- The length of a one-line body and its closing quote, after `n` characters. Only an escaped line
feed may stand in it. -/
def lineBody (quote : Char) (n : Nat) : List Char → Option Nat
  | [] => none
  | '\\' :: _ :: rest => lineBody quote (n + 2) rest
  | c :: rest =>
    if c == quote then some (n + 1)
    else if c == '\\' || c == '\n' then none
    else lineBody quote (n + 1) rest

/-- The length of a string that starts with a quote. An unclosed triple quote still starts an empty
string. -/
def quotedLength (cs : List Char) : Option Nat :=
  match cs with
  | q :: rest =>
    if q == '\x27' || q == '\x22' then
      let triple := if [q, q].isPrefixOf rest then tripleBody q 3 (rest.drop 2) else none
      triple.or (lineBody q 1 rest)
    else none
  | [] => none

def isStringMark (c : Char) : Bool := "rRbBuUfF".toList.contains c

/-- The length of a string with at most two marks. -/
def stringLength (cs : List Char) : Option Nat :=
  match cs with
  | a :: b :: rest =>
    let two := if isStringMark a && isStringMark b then (quotedLength rest).map (· + 2) else none
    let one := if isStringMark a then (quotedLength (b :: rest)).map (· + 1) else none
    (two.or one).or (quotedLength cs)
  | _ => none

/-! ### Numbers -/

/-- Digits of any script, and underscores. -/
def isDigitOrRule (c : Char) : Bool := Text.isDecimal c || c == '_'

/-- The number of characters at the start of `cs` that satisfy `p`. -/
def countWhile (p : Char → Bool) (cs : List Char) : Nat := (cs.takeWhile p).length

/-- The length of the digits after a base mark; at least one is needed. -/
def basedLength (p : Char → Bool) (rest : List Char) : Option Nat :=
  let n := countWhile p rest
  if n == 0 then none else some (n + 2)

/-- An exponent, or nothing. -/
def exponentLength (cs : List Char) : Nat :=
  match cs with
  | e :: rest =>
    if e == 'e' || e == 'E' then
      let sign := match rest with
        | s :: _ => if s == '+' || s == '-' then 1 else 0
        | [] => 0
      match rest.drop sign with
      | d :: more => if Text.isDecimal d then 2 + sign + countWhile isDigitOrRule more else 0
      | [] => 0
    else 0
  | [] => 0

/-- An imaginary mark, or nothing. -/
def imaginaryLength : List Char → Nat
  | c :: _ => if c == 'j' || c == 'J' then 1 else 0
  | [] => 0

/-- The digits before an exponent: digits with an optional fraction, or a fraction alone. -/
def mantissaLength (cs : List Char) : Option Nat :=
  match cs with
  | c :: rest =>
    if Text.isDecimal c then
      let whole := 1 + countWhile isDigitOrRule rest
      match cs.drop whole with
      | d :: more => if d == '.' then some (whole + 1 + countWhile isDigitOrRule more) else some whole
      | [] => some whole
    else if c == '.' then
      match rest with
      | d :: more => if Text.isDecimal d then some (2 + countWhile isDigitOrRule more) else none
      | [] => none
    else none
  | [] => none

def decimalLength (cs : List Char) : Option Nat :=
  (mantissaLength cs).map fun m =>
    let e := exponentLength (cs.drop m)
    m + e + imaginaryLength (cs.drop (m + e))

def isHexDigit (c : Char) : Bool :=
  c.isDigit || (decide ('a' ≤ c) && decide (c ≤ 'f')) || (decide ('A' ≤ c) && decide (c ≤ 'F')) ||
    c == '_'

def isOctalDigit (c : Char) : Bool := (decide ('0' ≤ c) && decide (c ≤ '7')) || c == '_'

def isBinaryDigit (c : Char) : Bool := c == '0' || c == '1' || c == '_'

def markedLength (cs : List Char) : Option Nat :=
  match cs with
  | '0' :: b :: rest =>
    if b == 'x' || b == 'X' then basedLength isHexDigit rest
    else if b == 'o' || b == 'O' then basedLength isOctalDigit rest
    else if b == 'b' || b == 'B' then basedLength isBinaryDigit rest
    else none
  | _ => none

def numberLength (cs : List Char) : Option Nat := (markedLength cs).or (decimalLength cs)

/-! ### Other classes -/

def commentLength (cs : List Char) : Option Nat :=
  match cs with
  | '#' :: rest => some (1 + countWhile (fun c => c != '\r' && c != '\n') rest)
  | _ => none

/-- A name is a word that does not start with a decimal digit. -/
def nameLength (cs : List Char) : Option Nat :=
  match cs with
  | c :: rest => if Text.isNameStart c then some (1 + countWhile Text.isWord rest) else none
  | [] => none

/-- Operators, each before its own beginnings. -/
def operators : List (List Char) :=
  ["**=", "//=", ">>=", "<<=", "...", "->", ":=", "-=", "+=", "*=", "/=", "%=", "&=", "|=", "^=", "@=",
   "<=", ">=", "==", "!=", "**", "//", "<<", ">>", "-", "+", "*", "/", "%", "&", "|", "^", "@", "<", ">",
   "=", "~", ".", "!"].map String.toList

def operatorLength (cs : List Char) : Option Nat :=
  (operators.find? fun o => o.isPrefixOf cs).map List.length

def symbolLength (cs : List Char) : Option Nat :=
  match cs with
  | c :: _ => if "()\x7b\x7d[],;:".toList.contains c then some 1 else none
  | [] => none

def arrowLength : List Char → Option Nat
  | '=' :: '>' :: _ => some 2
  | _ => none

/-- A line feed, alone or after a carriage return. -/
def newlineLength : List Char → Option Nat
  | '\n' :: _ => some 1
  | '\r' :: '\n' :: _ => some 2
  | _ => none

def continuationLength : List Char → Option Nat
  | '\\' :: rest => (newlineLength rest).map (· + 1)
  | _ => none

/-- Blanks, tabs and form feeds. -/
def whitespaceLength (cs : List Char) : Option Nat :=
  let n := countWhile (fun c => c == ' ' || c == '\t' || c == '\x0c') cs
  if n == 0 then none else some n

def classes : List (TokenKind × (List Char → Option Nat)) :=
  [(.comment, commentLength), (.string, stringLength), (.number, numberLength), (.name, nameLength),
   (.arrow, arrowLength), (.operator, operatorLength), (.symbol, symbolLength),
   (.continuation, continuationLength), (.newline, newlineLength), (.whitespace, whitespaceLength)]

def lexeme? (cs : List Char) : Option (TokenKind × Nat) :=
  classes.findSome? fun c => (c.2 cs).map fun n => (c.1, n)

/-- The tokens of a text, with the fault that cut the stream short. -/
structure Stream where
  tokens : List Token
  fault : Option ParseError
  deriving Repr, DecidableEq, Inhabited

/-- The tokens of the rest `cs` of a text, read from the given place. A length of zero, which no class
gives, would end the stream like a stray character. -/
def scan (line column offset : Nat) (cs : List Char) : Stream :=
  match cs with
  | [] => ⟨[⟨.eof, "", line, column, offset, offset⟩], none⟩
  | c :: rest =>
    match lexeme? (c :: rest) with
    | some (kind, n + 1) =>
      let text := c :: rest.take n
      let place := advance line column text
      let token : Token := ⟨kind, String.ofList text, line, column, offset, offset + text.length⟩
      let more := scan place.1 place.2 (offset + text.length) (rest.drop n)
      ⟨token :: more.tokens, more.fault⟩
    | _ => ⟨[], some ⟨.strayCharacter c, ⟨⟨line, column⟩, ⟨line, column + 1⟩⟩⟩⟩
termination_by cs.length
decreasing_by simp only [List.length_drop, List.length_cons]; omega

def tokenize (text : String) : Stream := scan 1 0 0 text.toList

end DoBlocks.Lexer
