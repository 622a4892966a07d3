import DoBlocks.Text.Blank

/-!
# Markup

Messages may hold tags in square brackets that set a style: `[bold]` opens one, `[/bold]` closes it,
and `[/]` closes the last one. A backslash before a bracket makes the tag plain text. Here only the
plain text of a message matters, and that each closing tag has something to close.
-/

namespace DoBlocks.Markup

def startsTag (c : Char) : Bool := ('a' ≤ c && c ≤ 'z') || c == '#' || c == '/' || c == '@'

def tag? : List Char → Option (List Char × List Char)
  | [] => none
  | c :: rest =>
    if startsTag c then
      let more := rest.takeWhile fun d => d != '[' && d != ']'
      match rest.drop more.length with
      | ']' :: after => some (c :: more, after)
      | _ => none
    else none

/-- A part of a message: plain text, or a tag with the backslashes before it. -/
inductive Piece where
  | text (cs : List Char)
  | tag (backslashes : Nat) (cs : List Char)
  deriving Repr, DecidableEq, Inhabited

def addText (cs : List Char) : List Piece → List Piece
  | .text more :: rest => .text (cs ++ more) :: rest
  | rest => .text cs :: rest

/-- The pieces of a message; `fuel` bounds the number of steps. -/
def piecesWithin : Nat → List Char → List Piece
  | 0, cs => [.text cs]
  | _, [] => []
  | fuel + 1, c :: cs =>
    let slashes := (c :: cs).takeWhile (· == '\\')
    match (c :: cs).drop slashes.length with
    | '[' :: rest =>
      match tag? rest with
      | some (t, after) => .tag slashes.length t :: piecesWithin fuel after
      | none => addText (slashes ++ ['[']) (piecesWithin fuel rest)
    | d :: rest => addText (slashes ++ [d]) (piecesWithin fuel rest)
    | [] => [.text slashes]

def pieces (s : String) : List Piece := piecesWithin (s.length + 1) s.toList

/-! ### Escaping -/

def Piece.escaped : Piece → List Char
  | .text cs => cs
  | .tag n cs => List.replicate (2 * n + 1) '\\' ++ '[' :: cs ++ [']']

/-- The text that is shown as `s`. One backslash at the end is doubled so that it escapes nothing
that follows. -/
def escape (s : String) : String :=
  let cs := (pieces s).flatMap Piece.escaped
  match cs.reverse with
  | '\\' :: '\\' :: _ => String.ofList cs
  | '\\' :: _ => String.ofList (cs ++ ['\\'])
  | _ => String.ofList cs

/-! ### Styles -/

/-- The full names of style words, in the order in which they are listed. -/
def styleWords : List (List String × String) :=
  [(["bold", "b"], "bold"), (["dim", "d"], "dim"), (["italic", "i"], "italic"),
   (["underline", "u"], "underline"), (["blink"], "blink"), (["blink2"], "blink2"),
   (["reverse", "r"], "reverse"), (["conceal", "c"], "conceal"), (["strike", "s"], "strike"),
   (["underline2", "uu"], "underline2"), (["frame"], "frame"), (["encircle"], "encircle"),
   (["overline", "o"], "overline")]

def colours : List String :=
  ["black", "red", "green", "yellow", "blue", "magenta", "cyan", "white"]

def isColour (word : String) : Bool :=
  word == "default" || colours.contains word ||
    (colours.map fun c => "bright_" ++ c).contains word ||
    match word.toList with
    | '#' :: digits => digits.length == 6 && digits.all fun c =>
        c.isDigit || ('a' ≤ c && c ≤ 'f')
    | _ => false

/-- What the words of a style say: attributes, the colour and the colour of the ground. -/
structure Style where
  attributes : List (String × Bool) := []
  colour : Option String := none
  ground : Option String := none
  deriving Repr, DecidableEq, Inhabited

def attribute? (word : String) : Option String :=
  (styleWords.find? fun w => w.1.contains word).map Prod.snd

def Style.setAttribute (s : Style) (name : String) (on : Bool) : Style :=
  { s with attributes := s.attributes.filter (fun a => a.1 != name) ++ [(name, on)] }

def Style.read (s : Style) : List String → Option Style
  | [] => some s
  | "on" :: colour :: rest =>
    if isColour colour.toLower then Style.read { s with ground := some colour } rest else none
  | "not" :: word :: rest =>
    match attribute? word with
    | some name => Style.read (s.setAttribute name false) rest
    | none => none
  | word :: rest =>
    match attribute? word.toLower with
    | some name => Style.read (s.setAttribute name true) rest
    | none =>
      if isColour word.toLower then Style.read { s with colour := some word.toLower } rest else none

def Style.render (s : Style) : String :=
  let attributes := styleWords.filterMap fun w =>
    (s.attributes.find? fun a => a.1 == w.2).map fun a => if a.2 then w.2 else "not " ++ w.2
  let words := attributes ++ s.colour.toList ++ (s.ground.toList.map fun c => "on " ++ c)
  if words.isEmpty then "none" else " ".intercalate words

/-- Two spellings of a style have one normal form. A name that is no style is taken as it is. -/
def normalise (name : String) : String :=
  let words := ((name.toList.splitBy fun a b => Text.isBlank a == Text.isBlank b).map
    String.ofList).filter fun w => !(Text.strip w).isEmpty
  if words == ["none"] then "none" else
  match Style.read {} words with
  | some s => s.render
  | none => (Text.strip name).toLower

/-! ### Plain text -/

/-- A closing tag with nothing to close. -/
structure Unmatched where
  tag : String
  deriving Repr, DecidableEq, Inhabited

/-- Controls that are never shown. -/
def isHidden (c : Char) : Bool := [7, 8, 11, 12, 13].contains c.toNat

def unescape : List Char → List Char
  | '\\' :: '[' :: rest => '[' :: unescape rest
  | c :: rest => c :: unescape rest
  | [] => []

/-- The styles that are open after a tag, innermost first. -/
def step (opened : List String) (tag : List Char) : Except Unmatched (List String) :=
  match tag.takeWhile (· != '=') with
  | '/' :: name =>
    let name := Text.strip (String.ofList name)
    if name.isEmpty then
      match opened with
      | _ :: outer => .ok outer
      | [] => .error ⟨"/"⟩
    else
      let style := normalise name
      if opened.contains style then .ok (opened.erase style) else .error ⟨String.ofList tag⟩
  | name => .ok (normalise (String.ofList name) :: opened)

def plainFrom (opened : List String) : List Piece → Except Unmatched (List Char)
  | [] => .ok []
  | .text cs :: rest => do return unescape cs ++ (← plainFrom opened rest)
  | .tag n cs :: rest => do
    let slashes := List.replicate (n / 2) '\\'
    if n % 2 == 1 then return slashes ++ '[' :: cs ++ ']' :: (← plainFrom opened rest)
    else return slashes ++ (← plainFrom (← step opened cs) rest)

def plain (s : String) : Except Unmatched String := do
  let cs ← plainFrom [] (pieces s)
  return String.ofList (cs.filter fun c => !isHidden c)

end DoBlocks.Markup
