import DoBlocks.Datum
import DoBlocks.Host.Literal

/-!
# Scalars of a TOML document

Strings, numbers, truth values and times. Every reader works on the characters that remain and gives
the rest back.
-/

namespace DoBlocks.Toml

abbrev Reader (α : Type) := List Char → Option (α × List Char)

def isSpace (c : Char) : Bool := c == ' ' || c == '\t'

/-- A control character that only escapes may stand for. -/
def isControl (c : Char) : Bool := (decide (c.toNat < 32) && c != '\t') || c.toNat == 127

/-- The text starts with `s`. -/
def startsWith (s : String) (cs : List Char) : Bool := s.toList.isPrefixOf cs

/-! ### Strings -/

def escapes : List (Char × Char) :=
  [('b', '\x08'), ('t', '\t'), ('n', '\n'), ('f', '\x0c'), ('r', '\r'), ('\x22', '\x22'), ('\\', '\\')]

/-- A character given by the number that `n` hexadecimal digits spell. -/
def numbered (n : Nat) : Reader Char := fun cs => do
  let v ← Host.Escapes.hex? n cs
  if v < 0xD800 || (0xE000 ≤ v && v ≤ 0x10FFFF) then some (Char.ofNat v, cs.drop n) else none

/-- What follows a backslash: the characters it stands for. In a long string a backslash at the end
of a line takes the blank text after it away. -/
def escape (long : Bool) : Reader (List Char) := fun cs =>
  match cs with
  | [] => none
  | c :: rest =>
    if long && (isSpace c || c == '\n') then
      match cs.dropWhile isSpace with
      | '\n' :: more => some ([], more.dropWhile fun d => isSpace d || d == '\n')
      | [] => some ([], [])
      | _ => none
    else if c == 'u' then (numbered 4 rest).map fun r => ([r.1], r.2)
    else if c == 'U' then (numbered 8 rest).map fun r => ([r.1], r.2)
    else (escapes.find? fun e => e.1 == c).map fun e => ([e.2], rest)

/-- The body of a string with escapes up to its end; `taken` is what came before, latest first. -/
def basicBody (long : Bool) : Nat → List Char → Reader String
  | 0, _, _ => none
  | fuel + 1, taken, cs =>
    match cs with
    | [] => none
    | '\x22' :: rest =>
      if !long then some (String.ofList taken.reverse, rest)
      else if startsWith "\x22\x22\x22" cs then some (String.ofList taken.reverse, cs.drop 3)
      else basicBody long fuel ('\x22' :: taken) rest
    | '\\' :: rest => do
      let (chars, rest) ← escape long rest
      basicBody long fuel (chars.reverse ++ taken) rest
    | c :: rest =>
      if isControl c && !(long && c == '\n') then none else basicBody long fuel (c :: taken) rest

/-- The body of a string without escapes up to `stop`. -/
def literalBody (stop : List Char) (long : Bool) : List Char → Reader String
  | taken, cs =>
    if stop.isPrefixOf cs then some (String.ofList taken.reverse, cs.drop stop.length)
    else
      match cs with
      | [] => none
      | c :: rest =>
        if isControl c && !(long && c == '\n') then none else literalBody stop long (c :: taken) rest
termination_by _ cs => cs.length

def extraQuotes (quote : Char) (s : String) (cs : List Char) : String × List Char :=
  let extra := (cs.take 2).takeWhile (· == quote)
  (s ++ String.ofList extra, cs.drop extra.length)

def afterOpening (cs : List Char) : List Char :=
  match cs with
  | '\n' :: rest => rest
  | _ => cs

def shortString : Reader String := fun cs =>
  match cs with
  | '\x22' :: rest => basicBody false (rest.length + 1) [] rest
  | '\x27' :: rest => literalBody ['\x27'] false [] rest
  | _ => none

def string : Reader String := fun cs =>
  if startsWith "\x22\x22\x22" cs then
    (basicBody true (cs.length + 1) [] (afterOpening (cs.drop 3))).map fun r => extraQuotes '\x22' r.1 r.2
  else if startsWith "\x27\x27\x27" cs then
    (literalBody ['\x27', '\x27', '\x27'] true [] (afterOpening (cs.drop 3))).map fun r =>
      extraQuotes '\x27' r.1 r.2
  else shortString cs

/-! ### Numbers -/

/-- Digits with single underscores between them; at least one. -/
def digits (p : Char → Bool) : Reader (List Char) := fun cs =>
  match cs with
  | c :: rest => if p c then some (go [c] rest) else none
  | [] => none
where
  /-- The digits after the first. -/
  go (taken : List Char) : List Char → List Char × List Char
    | '_' :: d :: rest => if p d then go (d :: taken) rest else (taken.reverse, '_' :: d :: rest)
    | c :: rest => if p c then go (c :: taken) rest else (taken.reverse, c :: rest)
    | [] => (taken.reverse, [])

def based (base : Nat) (p : Char → Bool) : Reader Datum := fun cs =>
  (digits p cs).map fun r => (.int (Host.Decimal.digitsValue base r.1), r.2)

/-- The whole part of a number: no zero before other digits. -/
def wholeDigits : Reader (List Char) := fun cs =>
  match cs with
  | '0' :: rest => some (['0'], rest)
  | _ => digits Char.isDigit cs

/-- Digits after a point, if there are any. -/
def fraction (cs : List Char) : List Char × List Char :=
  match cs with
  | '.' :: rest => (digits Char.isDigit rest).getD ([], cs)
  | _ => ([], cs)

/-- An exponent, if there is one. -/
def exponent (cs : List Char) : Option Int × List Char :=
  let signed (negative : Bool) (rest : List Char) : Option Int × List Char :=
    match digits Char.isDigit rest with
    | some (ds, rest) =>
      let v : Int := Host.Decimal.digitsValue 10 ds
      (some (if negative then -v else v), rest)
    | none => (none, cs)
  match cs with
  | e :: rest =>
    if e == 'e' || e == 'E' then
      match rest with
      | '+' :: more => signed false more
      | '-' :: more => signed true more
      | _ => signed false rest
    else (none, cs)
  | [] => (none, [])

def maxExponent : Nat := 400

/-- The number `mantissa * 10 ^ exponent`. -/
def real (mantissa exponent : Int) : Datum :=
  if mantissa == 0 then .real 0 0
  else if exponent ≤ 0 then .real mantissa (min exponent.natAbs maxExponent)
  else if exponent ≤ maxExponent then .real (mantissa * (Nat.pow 10 exponent.toNat : Nat)) 0
  else .notFinite

def decimal (negative : Bool) : Reader Datum := fun cs => do
  let (whole, rest) ← wholeDigits cs
  let (places, rest) := fraction rest
  let (power, rest) := exponent rest
  let magnitude : Int := Host.Decimal.digitsValue 10 (whole ++ places)
  let value := if negative then -magnitude else magnitude
  if places.isEmpty && power.isNone then return (.int value, rest)
  else return (real value (power.getD 0 - places.length), rest)

def number : Reader Datum := fun cs =>
  match cs with
  | '0' :: 'x' :: rest => (based 16 Host.Lexer.isHex rest).or (decimal false cs)
  | '0' :: 'b' :: rest => (based 2 Host.Lexer.isBinary rest).or (decimal false cs)
  | '0' :: 'o' :: rest => (based 8 Host.Lexer.isOctal rest).or (decimal false cs)
  | '+' :: rest => decimal false rest
  | '-' :: rest => decimal true rest
  | _ => decimal false cs

/-! ### Times -/

/-- Two digits that spell a number from `low` to `high`. -/
def pair (low high : Nat) : Reader Nat := fun cs =>
  match cs with
  | a :: b :: rest =>
    let v := Host.Decimal.digitsValue 10 [a, b]
    if a.isDigit && b.isDigit && low ≤ v && v ≤ high then some (v, rest) else none
  | _ => none

/-- The character `c`. -/
def sign (c : Char) : Reader Unit := fun cs =>
  match cs with
  | d :: rest => if d == c then some ((), rest) else none
  | [] => none

/-- A time of day; the rest is after it. -/
def clock (cs : List Char) : Option (List Char) := do
  let (_, rest) ← pair 0 23 cs
  let (_, rest) ← sign ':' rest
  let (_, rest) ← pair 0 59 rest
  let (_, rest) ← sign ':' rest
  let (_, rest) ← pair 0 59 rest
  match rest with
  | '.' :: d :: more => if d.isDigit then some (more.dropWhile Char.isDigit) else some rest
  | _ => some rest

/-- The distance from universal time, if it is given. -/
def offset (cs : List Char) : List Char :=
  match cs with
  | c :: rest =>
    if c == 'Z' || c == 'z' then rest
    else if c == '+' || c == '-' then
      (do
        let (_, more) ← pair 0 23 rest
        let (_, more) ← sign ':' more
        let (_, more) ← pair 0 59 more
        return more : Option (List Char)).getD cs
    else cs
  | [] => []

def isLeap (year : Nat) : Bool := year % 4 == 0 && (year % 100 != 0 || year % 400 == 0)

def daysOf (year month : Nat) : Nat :=
  if month == 2 then if isLeap year then 29 else 28
  else if month == 4 || month == 6 || month == 9 || month == 11 then 30
  else 31

/-- Year, month and day, which need not exist. -/
def date (cs : List Char) : Option ((Nat × Nat × Nat) × List Char) := do
  let (century, rest) ← pair 0 99 cs
  let (year, rest) ← pair 0 99 rest
  let (_, rest) ← sign '-' rest
  let (month, rest) ← pair 1 12 rest
  let (_, rest) ← sign '-' rest
  let (day, rest) ← pair 1 31 rest
  return ((100 * century + year, month, day), rest)

/-- What follows a date: a time of day and its distance from universal time, or nothing. -/
def afterDate (cs : List Char) : List Char :=
  match cs with
  | c :: rest =>
    if c == 'T' || c == 't' || c == ' ' then ((clock rest).map offset).getD cs else cs
  | [] => []

/-- The characters by which `rest` is shorter than `cs`. -/
def textBefore (cs rest : List Char) : String := String.ofList (cs.take (cs.length - rest.length))

/-- Whether a text is a time: `none` if it is none, and a failure if it is a date that does not
exist. -/
def time? (cs : List Char) : Option (Option (Datum × List Char)) :=
  match date cs with
  | some ((year, month, day), rest) =>
    let rest := afterDate rest
    if year != 0 && day ≤ daysOf year month then some (some (.time (textBefore cs rest), rest))
    else some none
  | none => (clock cs).map fun rest => some (.time (textBefore cs rest), rest)

/-- A number that is not finite. -/
def notFinite : Reader Datum := fun cs =>
  let signed := match cs with
    | c :: rest => if c == '+' || c == '-' then rest else cs
    | [] => []
  if startsWith "inf" signed || startsWith "nan" signed then some (.notFinite, signed.drop 3) else none

/-- A time, a number, or a number that is not finite. -/
def numeric : Reader Datum := fun cs =>
  match time? cs with
  | some r => r
  | none => (number cs).or (notFinite cs)

end DoBlocks.Toml
