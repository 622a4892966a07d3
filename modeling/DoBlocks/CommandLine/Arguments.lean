import DoBlocks.Text.Quoted

/-!
# Arguments

Reads the words of a command line: options by name or by an abbreviation that fits one option only,
with their values behind them or behind an equals sign, and one positional argument. Words that fit
nowhere are kept apart for the caller.
-/

namespace DoBlocks.CommandLine

/-- What an option does. -/
inductive OptionEffect where
  | help
  | version
  /-- It is given or not. -/
  | flag
  /-- It takes a value. -/
  | value
  deriving Repr, DecidableEq, Inhabited

/-- An option: its names and what it does. -/
structure OptionSpec where
  names : List String
  effect : OptionEffect
  deriving Repr, DecidableEq, Inhabited

/-- What a program takes. -/
structure ArgumentSpec where
  /-- The name of the program in messages. -/
  program : String
  options : List OptionSpec
  /-- The name of the positional argument. -/
  positional : String
  /-- The positional argument takes all the words behind it with it. -/
  takesRest : Bool
  deriving Repr, DecidableEq, Inhabited

/-- Why reading ends without arguments. -/
inductive Stop where
  | help (program : String)
  | version
  /-- The words are refused. -/
  | usage (program message : String)
  deriving Repr, DecidableEq, Inhabited

/-- What was read. -/
structure Arguments where
  flags : List OptionSpec := []
  values : List (OptionSpec × String) := []
  /-- The positional argument, with the words it took along. -/
  positional : Option (List String) := none
  /-- Words that fit nowhere. -/
  extras : List String := []
  deriving Repr, DecidableEq, Inhabited

/-- An option as it stands in a word: the name that it has there, and the text behind it with a mark
whether an equals sign divides the two. -/
structure OptionUse where
  spec : OptionSpec
  name : String
  attached : Option (Bool × String)
  deriving Repr, DecidableEq, Inhabited

/-- A word by its form. -/
inductive Word where
  | plain (text : String)
  /-- The two dashes behind which no word is an option. -/
  | dashes
  | option (use : OptionUse) (text : String)
  /-- The form of an option that there is not. -/
  | unknown (text : String)
  deriving Repr, DecidableEq, Inhabited

namespace Word

def text : Word → String
  | plain t | option _ t | unknown t => t
  | dashes => "--"

def isOption : Word → Bool
  | option _ _ | unknown _ => true
  | plain _ | dashes => false

end Word

namespace ArgumentSpec

def refuse {α : Type} (s : ArgumentSpec) (message : String) : Except Stop α :=
  .error (.usage s.program message)

def named (s : ArgumentSpec) : List (String × OptionSpec) :=
  s.options.flatMap fun o => o.names.map fun n => (n, o)

def option? (s : ArgumentSpec) (name : String) : Option OptionSpec :=
  (s.named.find? fun n => n.1 == name).map Prod.snd

/-- Cuts a text at its first equals sign. -/
def cutEquals (cs : List Char) : List Char × Option (List Char) :=
  let before := cs.takeWhile (· != '=')
  match cs.drop before.length with
  | _ :: after => (before, some after)
  | [] => (before, none)

def isNegativeNumber (cs : List Char) : Bool :=
  match cs with
  | '-' :: rest =>
    let whole := rest.takeWhile Char.isDigit
    match rest.drop whole.length with
    | [] => !whole.isEmpty
    | '.' :: places => !places.isEmpty && places.all Char.isDigit
    | _ => false
  | _ => false

/-- The options that a word may abbreviate. After two dashes a word may leave out the end of a name;
after one dash a name of one letter may have its text right behind it. -/
def candidates (s : ArgumentSpec) (cs : List Char) : List OptionUse :=
  match cs with
  | '-' :: '-' :: _ =>
    let (start, attached) := cutEquals cs
    s.named.filterMap fun (name, o) =>
      if start.isPrefixOf name.toList then
        some ⟨o, name, attached.map fun a => (true, String.ofList a)⟩
      else none
  | _ =>
    s.named.filterMap fun (name, o) =>
      if name.toList == cs.take 2 then some ⟨o, name, some (false, String.ofList (cs.drop 2))⟩
      else if cs.isPrefixOf name.toList then some ⟨o, name, none⟩
      else none

def classify (s : ArgumentSpec) (word : String) : Except Stop Word :=
  match word.toList with
  | '-' :: c :: rest =>
    let cs := '-' :: c :: rest
    match s.option? word with
    | some o => .ok (.option ⟨o, word, none⟩ word)
    | none =>
      let (start, attached) := cutEquals cs
      match s.option? (String.ofList start), attached with
      | some o, some a => .ok (.option ⟨o, String.ofList start, some (true, String.ofList a)⟩ word)
      | _, _ =>
        match s.candidates cs with
        | [use] => .ok (.option use word)
        | [] =>
          if isNegativeNumber cs || cs.contains ' ' then .ok (.plain word) else .ok (.unknown word)
        | uses =>
          s.refuse (s!"ambiguous option: {word} could match " ++
            ", ".intercalate (uses.map fun u => u.name))
  | _ => .ok (.plain word)

def classifyAll (s : ArgumentSpec) : List String → Except Stop (List Word)
  | [] => .ok []
  | "--" :: rest => .ok (.dashes :: rest.map .plain)
  | word :: rest => do return (← s.classify word) :: (← s.classifyAll rest)

/-! ### Options -/

def refuseOption {α : Type} (s : ArgumentSpec) (o : OptionSpec) (message : String) : Except Stop α :=
  s.refuse ("argument " ++ "/".intercalate o.names ++ ": " ++ message)

/-- Refuses the text behind an option that takes none. -/
def refuseText {α : Type} (s : ArgumentSpec) (o : OptionSpec) (text : String) : Except Stop α :=
  s.refuseOption o ("ignored explicit argument " ++ Text.quoted text)

/-- Carries out an option without a value. -/
def perform (s : ArgumentSpec) (st : Arguments) (o : OptionSpec) : Except Stop Arguments :=
  match o.effect with
  | .help => .error (.help s.program)
  | .version => .error .version
  | .flag | .value => .ok { st with flags := st.flags ++ [o] }

/-- Options of one letter, which take no values, can stand in one word: `cs` is the text behind the
option `o`. The options before it are carried out once the whole word is read. A letter that names no
option ends the word and is kept apart with what follows it. -/
def cluster (s : ArgumentSpec) (st : Arguments) (before : List OptionSpec) (o : OptionSpec) :
    List Char → Except Stop Arguments
  | [] => (before ++ [o]).foldlM s.perform st
  | '-' :: rest => s.refuseText o (String.ofList ('-' :: rest))
  | '=' :: rest => s.refuseText o (String.ofList rest)
  | c :: rest =>
    match s.option? (String.ofList ['-', c]) with
    | some next => s.cluster st (before ++ [o]) next rest
    | none =>
      (before ++ [o]).foldlM s.perform
        { st with extras := st.extras ++ [String.ofList ('-' :: c :: rest)] }

def takeOption (s : ArgumentSpec) (st : Arguments) (use : OptionUse) (rest : List Word) :
    Except Stop (Arguments × List Word) :=
  match use.spec.effect, use.attached, rest with
  | .value, some (_, text), rest =>
    .ok ({ st with values := st.values ++ [(use.spec, text)] }, rest)
  | .value, none, .plain text :: rest =>
    .ok ({ st with values := st.values ++ [(use.spec, text)] }, rest)
  | .value, none, _ => s.refuseOption use.spec "expected one argument"
  | _, none, rest => do return (← s.perform st use.spec, rest)
  | _, some (divided, text), rest =>
    if divided || use.name.startsWith "--" || text.isEmpty then s.refuseText use.spec text
    else do return (← s.cluster st [] use.spec text.toList, rest)

/-! ### The positional argument -/

/-- Takes the positional argument from the start of words. Two dashes around it are dropped, unless
it takes all the rest. -/
def takePositional (s : ArgumentSpec) (words : List Word) : Option (List String × List Word) :=
  if s.takesRest then
    if (words.dropWhile (· == .dashes)).head?.any fun w => !w.isOption then
      some (words.map Word.text, [])
    else none
  else
    match words with
    | .dashes :: .plain t :: rest => some ([t], rest)
    | .plain t :: .dashes :: rest => some ([t], rest)
    | .plain t :: rest => some ([t], rest)
    | _ => none

/-- Reads classified words; `fuel` bounds the number of steps. -/
def readWords (s : ArgumentSpec) : Nat → Arguments → List Word → Except Stop Arguments
  | 0, st, _ => .ok st
  | fuel + 1, st, words =>
    match words with
    | .option use _ :: rest => do
      let (st, rest) ← s.takeOption st use rest
      s.readWords fuel st rest
    | .unknown text :: rest => s.readWords fuel { st with extras := st.extras ++ [text] } rest
    | words =>
      match if st.positional.isNone then s.takePositional words else none with
      | some (texts, rest) => s.readWords fuel { st with positional := some texts } rest
      | none =>
        let skipped := words.takeWhile fun w => !w.isOption
        if words.isEmpty then .ok st
        else
          s.readWords fuel { st with extras := st.extras ++ skipped.map Word.text }
            (words.drop skipped.length)

def read (s : ArgumentSpec) (words : List String) : Except Stop Arguments := do
  let classified ← s.classifyAll words
  s.readWords (2 * words.length + 2) {} classified

/-- The refusal of a command line without its positional argument. -/
def missingPositional {α : Type} (s : ArgumentSpec) : Except Stop α :=
  s.refuse ("the following arguments are required: " ++ s.positional)

end ArgumentSpec

namespace Arguments

def has (a : Arguments) (name : String) : Bool := a.flags.any fun o => o.names.contains name

/-- The last value of an option. -/
def value? (a : Arguments) (name : String) : Option String :=
  (a.values.reverse.find? fun v => v.1.names.contains name).map Prod.snd

end Arguments

end DoBlocks.CommandLine
