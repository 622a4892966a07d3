import DoBlocks.Host.Grammar
import DoBlocks.Host.Literal

/-!
# Replacement fields

In the strict dialect a string with replacement fields is one lexeme. Its fields are found by
brackets and quotes alone, and the text of each is read in parentheses of its own: no backslash and
no comment may stand in it, and format parts may hold fields one level deep. `resolve` puts the trees
of the fields into the tree of the string.
-/

namespace DoBlocks.Host.Fields

/-- Bracket `closer` closes `opener`. -/
def closes (opener closer : Char) : Bool :=
  (opener == '(' && closer == ')') || (opener == '[' && closer == ']') ||
    (opener == '\x7b' && closer == '\x7d')

def maxOpen : Nat := 200

/-- The next two characters are the second half of a comparison sign that starts with `c`. -/
def isComparison (c : Char) (rest : List Char) : Bool :=
  (c == '!' || c == '=' || c == '<' || c == '>') && rest.head? == some '='

/-- Where the text of an expression in a field ends: at a mark that no bracket or quote encloses.
`quote` is the quote that is open, `brackets` the open brackets, `taken` the text so far, latest
first. The rest begins with the mark. -/
def expressionText (fuel : Nat) (quote : List Char) (brackets taken : List Char) (cs : List Char) :
    Option (List Char × List Char) :=
  match fuel, cs with
  | 0, _ => none
  | _, [] => none
  | fuel + 1, c :: rest =>
    if c == '\\' then none
    else if !quote.isEmpty then
      if quote.isPrefixOf cs then
        expressionText fuel [] brackets (quote ++ taken) (cs.drop quote.length)
      else expressionText fuel quote brackets (c :: taken) rest
    else if c == '\x27' || c == '\x22' then
      let opening := if [c, c].isPrefixOf rest then [c, c, c] else [c]
      expressionText fuel opening brackets (opening ++ taken) (cs.drop opening.length)
    else if c == '(' || c == '[' || c == '\x7b' then
      if maxOpen ≤ brackets.length then none
      else expressionText fuel [] (c :: brackets) (c :: taken) rest
    else if c == '#' then none
    else if brackets.isEmpty && isComparison c rest then
      expressionText fuel [] brackets ('=' :: c :: taken) (rest.drop 1)
    else if brackets.isEmpty && (c == '!' || c == ':' || c == '\x7d' || c == '=') then
      some (taken.reverse, cs)
    else if c == ')' || c == ']' || c == '\x7d' then
      match brackets with
      | o :: outer => if closes o c then expressionText fuel [] outer (c :: taken) rest else none
      | [] => none
    else expressionText fuel [] brackets (c :: taken) rest

def isSpace (c : Char) : Bool := c == ' ' || (decide (9 ≤ c.toNat) && decide (c.toNat ≤ 13))

def afterShown (cs : List Char) : List Char :=
  match cs with
  | '=' :: rest => rest.dropWhile isSpace
  | _ => cs

/-- Skips a conversion; `none` if its letter is unknown. -/
def afterConversion (cs : List Char) : Option (List Char) :=
  match cs with
  | '!' :: c :: rest => if c == 's' || c == 'r' || c == 'a' then some rest else none
  | ['!'] => none
  | _ => some cs

def maxLevel : Nat := 2

/-- Walks over literal text with fields, at most `fuel` steps. `literal` is the text since the last
field, latest first. Gives the literal parts, the texts of the fields, and the rest, which in a
format part begins with the brace that ends it. -/
def scan (raw : Bool) :
    Nat → Nat → List Char → List Char → Option (List (List Char) × List (List Char) × List Char)
  | 0, _, _, _ => none
  | fuel + 1, level, literal, cs =>
    let done := some ([literal.reverse], [], cs)
    let go (n : Nat) := scan raw fuel level ((cs.take n).reverse ++ literal) (cs.drop n)
    match cs with
    | [] => done
    | '\\' :: c :: rest =>
      if raw || c == '\x7b' || c == '\x7d' then go 1
      else if c == 'N' && rest.head? == some '\x7b' then
        go (3 + ((rest.drop 1).takeWhile (· != '\x7d')).length + 1)
      else go 2
    | '\x7d' :: rest =>
      if level != 0 then done
      else if rest.head? == some '\x7d' then go 2
      else none
    | '\x7b' :: rest =>
      if level == 0 && rest.head? == some '\x7b' then go 2
      else if maxLevel ≤ level then none
      else do
        let (text, after) ← expressionText (rest.length + 1) [] [] [] rest
        let after ← afterConversion (afterShown after)
        let (specParts, specTexts, after) ← match after with
          | ':' :: spec => scan raw fuel (level + 1) [] spec
          | _ => some ([], [], after)
        match after with
        | '\x7d' :: after =>
          let (parts, texts, last) ← scan raw fuel level [] after
          return (literal.reverse :: specParts ++ parts, text :: specTexts ++ texts, last)
        | _ => none
    | _ => go 1

/-- The texts of the fields of a string; `none` if some part of it is malformed. -/
def texts? (s : StringParts) : Option (List (List Char)) := do
  let (literals, texts, _) ← scan s.isRaw (s.body.length + 1) 0 [] s.body
  if s.isRaw || literals.all fun l => (Escapes.decode? false l).isSome then some texts else none

def isFilled (text : List Char) : Bool := text.any fun c => !isSpace c

def tree? (text : List Char) : Option Tree :=
  if isFilled text then expression? .strict (String.ofList ('(' :: text ++ [')'])) else none

/-- Resolves one string literal; `nested` resolves the tree of a field. -/
def resolveString (nested : Tree → Option Tree) (l : Lexeme) : Option Tree :=
  let s := StringParts.ofText l.text.toList
  if s.isJoined then do
    let texts ← texts? s
    let fields ← texts.mapM fun t => (tree? t).bind nested
    return .node .joined (.leaf l :: fields)
  else if s.value?.isSome then some (.node .string [.leaf l])
  else none

def isByteString : Tree → Bool
  | .node .string [.leaf l] => (StringParts.ofText l.text.toList).isBytes
  | _ => false

/-- Strings in a row are all byte strings or none of them is. -/
def sameSort : List Tree → Bool
  | [] => true
  | t :: rest => rest.all fun u => isByteString u == isByteString t

mutual

/-- Resolves the literals of a tree; `nested` resolves the tree of a field. -/
def resolveWith (nested : Tree → Option Tree) : Tree → Option Tree
  | .leaf l => some (.leaf l)
  | .node .string [.leaf l] => resolveString nested l
  | .node .number [.leaf l] => if numberFits l.text then some (.node .number [.leaf l]) else none
  | .node .concatenated children =>
    if sameSort children then (resolveAll nested children).map (.node .concatenated) else none
  | .node k children => (resolveAll nested children).map (.node k)

def resolveAll (nested : Tree → Option Tree) : List Tree → Option (List Tree)
  | [] => some []
  | t :: rest => do
    let t' ← resolveWith nested t
    let rest' ← resolveAll nested rest
    return t' :: rest'

end

/-- Resolves the literals of a tree with strings inside one another at most `depth` deep. -/
def resolveDepth : Nat → Tree → Option Tree
  | 0, _ => none
  | depth + 1, t => resolveWith (resolveDepth depth) t

/-- Resolves the literals of a tree. A string in a field needs quotes other than those around it, and
there are four. -/
def resolve (t : Tree) : Option Tree := resolveDepth 6 t

end DoBlocks.Host.Fields
