import DoBlocks.Datum
import DoBlocks.Text.Blank

/-!
# Validation of records

A record is built from a table field by field. A value of the wrong type is converted where that
loses nothing; otherwise it is a problem of its field. All problems of a record are reported, in the
order of its fields.
-/

namespace DoBlocks

/-- A step of the path to a value. -/
inductive PathStep where
  | field (name : String)
  | index (n : Nat)
  deriving Repr, DecidableEq, Inhabited

/-- What is wrong with a value. -/
inductive Problem where
  | missing
  | notText
  | notBool
  | unreadableBool
  | notInt
  | unreadableInt
  | fractionalInt
  | infiniteInt
  | notList
  | notTable
  | notRecord (name : String)
  | notOneOf (names : List String)
  /-- The value has the right type and breaks a rule of its field. -/
  | rule (message : String)
  deriving Repr, DecidableEq, Inhabited

namespace Problem

def code : Problem → String
  | missing => "missing"
  | notText => "string_type"
  | notBool => "bool_type"
  | unreadableBool => "bool_parsing"
  | notInt => "int_type"
  | unreadableInt => "int_parsing"
  | fractionalInt => "int_from_float"
  | infiniteInt => "finite_number"
  | notList => "list_type"
  | notTable => "dict_type"
  | notRecord _ => "model_type"
  | notOneOf _ => "enum"
  | rule _ => "value_error"

/-- Names in a sentence: commas between them and `or` before the last. -/
def alternatives : List String → String
  | [] => ""
  | [a] => s!"'{a}'"
  | [a, b] => s!"'{a}' or '{b}'"
  | a :: rest => s!"'{a}', " ++ alternatives rest

def message : Problem → String
  | missing => "Field required"
  | notText => "Input should be a valid string"
  | notBool => "Input should be a valid boolean"
  | unreadableBool => "Input should be a valid boolean, unable to interpret input"
  | notInt => "Input should be a valid integer"
  | unreadableInt => "Input should be a valid integer, unable to parse string as an integer"
  | fractionalInt => "Input should be a valid integer, got a number with a fractional part"
  | infiniteInt => "Input should be a finite number"
  | notList => "Input should be a valid list"
  | notTable => "Input should be a valid dictionary"
  | notRecord name => s!"Input should be a valid dictionary or instance of {name}"
  | notOneOf names => s!"Input should be {alternatives names}"
  | rule message => s!"Value error, {message}"

end Problem

/-- A problem and the path to its value. -/
structure FieldError where
  path : List PathStep
  problem : Problem
  deriving Repr, DecidableEq, Inhabited

def PathStep.render : PathStep → String
  | .field name => name
  | .index n => toString n

def FieldError.render (e : FieldError) : String :=
  ".".intercalate (e.path.map PathStep.render) ++ ": " ++ e.problem.message

abbrev Validated (α : Type) := Except (List FieldError) α

namespace Validated

def problem {α : Type} (p : Problem) : Validated α := .error [⟨[], p⟩]

def at' {α : Type} (step : PathStep) : Validated α → Validated α
  | .ok a => .ok a
  | .error es => .error (es.map fun e => { e with path := step :: e.path })

def errors {α : Type} : Validated α → List FieldError
  | .ok _ => []
  | .error es => es

/-! ### Types of values -/

def text : Datum → Validated String
  | .text s => .ok s
  | _ => problem .notText

def optionalText : Datum → Validated (Option String)
  | .null => .ok none
  | .text s => .ok (some s)
  | _ => problem .notText

/-- The words for truth values, in lower case. -/
def boolWords : List (String × Bool) :=
  [("0", false), ("off", false), ("f", false), ("false", false), ("n", false), ("no", false),
   ("1", true), ("on", true), ("t", true), ("true", true), ("y", true), ("yes", true)]

def boolOfInt (n : Int) : Validated Bool :=
  if n == 0 then .ok false else if n == 1 then .ok true else problem .unreadableBool

def wholeOf? (mantissa : Int) (places : Nat) : Option Int :=
  let unit : Int := (Nat.pow 10 places : Nat)
  if mantissa % unit == 0 then some (mantissa / unit) else none

/-- A truth value, also as a word or as zero or one. -/
def bool : Datum → Validated Bool
  | .bool b => .ok b
  | .int n => boolOfInt n
  | .real m p =>
    match wholeOf? m p with
    | some n => boolOfInt n
    | none => problem .notBool
  | .text s =>
    match boolWords.find? fun w => w.1 == String.map Char.toLower s with
    | some w => .ok w.2
    | none => problem .unreadableBool
  | _ => problem .notBool

def digitsValue? : Option Nat → List Char → Option Nat
  | acc, [] => acc
  | some n, '_' :: d :: rest =>
    if d.isDigit then digitsValue? (some (10 * n + (d.toNat - '0'.toNat))) rest else none
  | acc, c :: rest =>
    if c.isDigit then digitsValue? (some (10 * acc.getD 0 + (c.toNat - '0'.toNat))) rest else none

/-- The whole number a text stands for: blanks around it, a sign, and a fraction of zeros are
allowed. -/
def intOfText? (s : String) : Option Int :=
  let cs := (Text.strip s).toList
  let (negative, cs) := match cs with
    | '-' :: rest => (true, rest)
    | '+' :: rest => (false, rest)
    | _ => (false, cs)
  let whole := cs.takeWhile (· != '.')
  let fraction := cs.drop whole.length
  if fraction.drop 1 |>.all (· == '0') then
    (digitsValue? none whole).map fun n => if negative then -(n : Int) else n
  else none

/-- A whole number, also as a text or as a decimal without fraction. -/
def int : Datum → Validated Int
  | .int n => .ok n
  | .bool b => .ok (if b then 1 else 0)
  | .real m p =>
    match wholeOf? m p with
    | some n => .ok n
    | none => problem .fractionalInt
  | .notFinite => problem .infiniteInt
  | .text s =>
    match intOfText? s with
    | some n => .ok n
    | none => problem .unreadableInt
  | _ => problem .notInt

def oneOf {α : Type} (names : List (String × α)) : Datum → Validated α
  | .text s =>
    match names.find? fun n => n.1 == s with
    | some n => .ok n.2
    | none => problem (.notOneOf (names.map Prod.fst))
  | _ => problem (.notOneOf (names.map Prod.fst))

/-- Validates the items of a list from number `n` on and collects their problems. -/
def items {α : Type} (item : Datum → Validated α) (n : Nat) : List Datum → Validated (List α)
  | [] => .ok []
  | d :: rest =>
    match at' (.index n) (item d), items item (n + 1) rest with
    | .ok a, .ok more => .ok (a :: more)
    | a, more => .error (errors a ++ errors more)

def list {α : Type} (item : Datum → Validated α) : Datum → Validated (List α)
  | .list ds => items item 0 ds
  | _ => problem .notList

def table : Datum → Validated (List (String × Datum))
  | .table entries => .ok entries
  | _ => problem .notTable

/-! ### Fields -/

/-- The field of a table; a missing one has the value `absent` gives. -/
def field {α : Type} (entries : List (String × Datum)) (name : String) (absent : Validated α)
    (value : Datum → Validated α) : Validated α :=
  at' (.field name) (match Datum.entry? entries name with
    | some d => value d
    | none => absent)

end Validated

end DoBlocks
