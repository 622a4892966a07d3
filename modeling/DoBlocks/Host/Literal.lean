import DoBlocks.Host.Lexeme.Lexer

/-!
# What literals stand for

The text of a string literal is marks, quotes and a body; backslashes in the body stand for other
characters unless the marks say otherwise. Numbers are exact decimals, so that two spellings of one
number are equal.
-/

namespace DoBlocks.Host

/-- A string literal in parts. -/
structure StringParts where
  marks : List Char
  /-- What stands between the quotes. -/
  body : List Char
  /-- The number of characters before the body. -/
  opening : Nat
  deriving Repr, DecidableEq, Inhabited

namespace StringParts

def ofText (cs : List Char) : StringParts :=
  let marks := cs.takeWhile Char.isAlpha
  let quoted := cs.drop marks.length
  let width := match quoted with
    | a :: b :: c :: _ => if a == b && b == c then 3 else 1
    | _ => 1
  ⟨marks, (quoted.drop width).take (quoted.length - 2 * width), marks.length + width⟩

def isBytes (s : StringParts) : Bool := s.marks.any fun c => c == 'b' || c == 'B'

def isRaw (s : StringParts) : Bool := Lexer.marksRaw s.marks

def isJoined (s : StringParts) : Bool := Lexer.marksJoined s.marks

end StringParts

namespace Escapes

def hexValue (c : Char) : Nat :=
  if c.isDigit then c.toNat - '0'.toNat
  else if c.toNat < 'a'.toNat then c.toNat - 'A'.toNat + 10
  else c.toNat - 'a'.toNat + 10

/-- The value of exactly `n` hexadecimal digits. -/
def hex? (n : Nat) (cs : List Char) : Option Nat :=
  let digits := cs.take n
  if digits.length == n && digits.all Lexer.isHex then
    some (digits.foldl (fun v c => 16 * v + hexValue c) 0)
  else none

def simple? (c : Char) : Option Nat :=
  match c with
  | '\\' => some '\\'.toNat
  | '\x27' => some 0x27
  | '\x22' => some 0x22
  | 'a' => some 7
  | 'b' => some 8
  | 't' => some 9
  | 'n' => some 10
  | 'v' => some 11
  | 'f' => some 12
  | 'r' => some 13
  | _ => none

def isNameCharacter (c : Char) : Bool := c.isAlphanum || c == ' ' || c == '-'

/-- What the text after a backslash stands for, and how many of its characters are used up. `none` if
it is malformed. Byte strings know no characters by number or name. -/
def sequence? (bytes : Bool) (cs : List Char) : Option (List Nat × Nat) :=
  match cs with
  | [] => some (['\\'.toNat], 0)
  | c :: rest =>
    let n := Lexer.breakLength cs
    if n != 0 then some ([], n)
    else if let some v := simple? c then some ([v], 1)
    else if Lexer.isOctal c then
      let digits := (cs.take 3).takeWhile Lexer.isOctal
      some ([digits.foldl (fun v d => 8 * v + (d.toNat - '0'.toNat)) 0], digits.length)
    else if c == 'x' then (hex? 2 rest).map fun v => ([v], 3)
    else if bytes then some (['\\'.toNat, c.toNat], 1)
    else if c == 'u' then (hex? 4 rest).map fun v => ([v], 5)
    else if c == 'U' then (hex? 8 rest).bind fun v => if v ≤ 0x10FFFF then some ([v], 9) else none
    else if c == 'N' then
      match rest with
      | '\x7b' :: more =>
        let name := more.takeWhile (· != '\x7d')
        if name.isEmpty || name.length == more.length || !name.all isNameCharacter then none
        else some (name.map fun d => 0x110000 + d.toNat, name.length + 3)
      | _ => none
    else some (['\\'.toNat, c.toNat], 1)

/-- The characters that a body stands for; `none` if an escape is malformed. -/
def decode? (bytes : Bool) : List Char → Option (List Nat)
  | [] => some []
  | '\\' :: rest =>
    match sequence? bytes rest with
    | some (vs, n) => (decode? bytes (rest.drop n)).map (vs ++ ·)
    | none => none
  | c :: rest => (decode? bytes rest).map (c.toNat :: ·)
termination_by cs => cs.length
decreasing_by all_goals simp only [List.length_cons, List.length_drop]; omega

end Escapes

/-- The characters that a string literal without fields stands for. Byte strings are ASCII. -/
def StringParts.value? (s : StringParts) : Option (List Nat) :=
  if s.isBytes && s.body.any fun c => decide (128 ≤ c.toNat) then none
  else if s.isRaw then some (s.body.map Char.toNat)
  else Escapes.decode? s.isBytes s.body

/-- The number `mantissa * 10 ^ exponent`, with no zero at the end of the mantissa. -/
structure Decimal where
  mantissa : Int
  exponent : Int
  deriving Repr, DecidableEq, Inhabited

namespace Decimal

/-- Moves zeros at the end of the mantissa into the exponent, at most `fuel` of them. -/
def normalise : Nat → Int → Int → Decimal
  | 0, m, e => ⟨m, e⟩
  | fuel + 1, m, e =>
    if m == 0 then ⟨0, 0⟩ else if m % 10 == 0 then normalise fuel (m / 10) (e + 1) else ⟨m, e⟩

def ofNat (n : Nat) : Decimal := normalise (Nat.log2 n + 1) n 0

def neg (d : Decimal) : Decimal := { d with mantissa := -d.mantissa }

/-- The value of digits in a base; underscores are skipped. -/
def digitsValue (base : Nat) (cs : List Char) : Nat :=
  (cs.filter (· != '_')).foldl (fun v c => base * v + Escapes.hexValue c) 0

/-- The value of a decimal number without imaginary mark. -/
def ofDigits (cs : List Char) : Decimal :=
  let mantissa := cs.takeWhile fun c => c != 'e' && c != 'E'
  let exponent := (cs.drop (mantissa.length + 1)).filter (· != '_')
  let whole := mantissa.takeWhile (· != '.')
  let fraction := (mantissa.drop (whole.length + 1)).filter (· != '_')
  let shift : Int := match exponent with
    | '-' :: ds => -(digitsValue 10 ds : Int)
    | '+' :: ds => digitsValue 10 ds
    | ds => digitsValue 10 ds
  normalise (mantissa.length + 1) (digitsValue 10 (whole ++ fraction)) (shift - fraction.length)

/-- The value of a number literal without imaginary mark. -/
def ofLiteral (cs : List Char) : Decimal :=
  match cs with
  | '0' :: b :: rest =>
    if b == 'x' || b == 'X' then ofNat (digitsValue 16 rest)
    else if b == 'o' || b == 'O' then ofNat (digitsValue 8 rest)
    else if b == 'b' || b == 'B' then ofNat (digitsValue 2 rest)
    else ofDigits cs
  | _ => ofDigits cs

end Decimal

def maxWholeDigits : Nat := 4300

/-- A number literal that is not too long. -/
def numberFits (text : String) : Bool :=
  let cs := text.toList.filter (· != '_')
  !cs.all Char.isDigit || decide (cs.length ≤ maxWholeDigits)

end DoBlocks.Host
