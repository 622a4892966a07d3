import DoBlocks.Expr
import DoBlocks.Text.Identifier
import DoBlocks.Token.Script

/-!
# Host fragments with escape markers

A fragment is a run of tokens in which each prefix `^` takes the operand after it, up to the next
comma or closing bracket at its own depth. Its host text shows an escape as a call of
`escapeCallee` with the operand and a number; the markers of a fragment are numbered in the order
they stand in the text.
-/

namespace DoBlocks

/-- A token, or an escape marker with its operand. -/
inductive FragmentItem where
  | token (t : SpacedToken)
  | escape (marker : SpacedToken) (operand : List FragmentItem)
  deriving Repr, Inhabited

namespace Fragment

def valueWords : List String := ["True", "False", "None"]

/-- After this token an operand is expected, so that `^` is a marker. -/
def expectsOperand : Option Token → Bool
  | none => true
  | some t =>
    match t.kind with
    | .operator | .arrow => true
    | .symbol => !t.isCloser
    | .name => Text.isKeyword t.text && !valueWords.contains t.text
    | _ => false

def operandLength (depth : Nat) : List SpacedToken → Nat
  | [] => 0
  | t :: rest =>
    if t.isOpener then operandLength (depth + 1) rest + 1
    else if t.isCloser then
      match depth with
      | 0 => 0
      | d + 1 => operandLength d rest + 1
    else if t.isSymbol "," && depth == 0 then 0
    else operandLength depth rest + 1

/-- The items of a run of tokens that comes after the token `before`. -/
def items (before : Option Token) (ts : List SpacedToken) : List FragmentItem :=
  match ts with
  | [] => []
  | t :: rest =>
    if t.isOperator "^" && expectsOperand before then
      let operand := rest.take (operandLength 0 rest)
      .escape t (items none operand) ::
        items (operand.getLast?.map SpacedToken.toToken) (rest.drop operand.length)
    else
      .token t :: items (if t.kind == .newline then before else some t.toToken) rest
termination_by ts.length
decreasing_by all_goals simp only [List.length_cons, List.length_take, List.length_drop]; omega

def ofTokens (ts : List SpacedToken) : List FragmentItem := items none ts

mutual

/-- The markers of an item, in the order they stand in the text. -/
def itemMarkers : FragmentItem → List SpacedToken
  | .token _ => []
  | .escape marker operand => marker :: markers operand

def markers : List FragmentItem → List SpacedToken
  | [] => []
  | i :: rest => itemMarkers i ++ markers rest

end

mutual

/-- The markers before the first one without an operand, and that one. -/
def itemIncomplete : FragmentItem → Option (List SpacedToken × SpacedToken)
  | .token _ => none
  | .escape marker [] => some ([], marker)
  | .escape marker (i :: rest) =>
    (incomplete (i :: rest)).map fun r => (marker :: r.1, r.2)

/-- The markers before the first one without an operand, and that one. -/
def incomplete : List FragmentItem → Option (List SpacedToken × SpacedToken)
  | [] => none
  | i :: rest =>
    match itemIncomplete i with
    | some r => some r
    | none => (incomplete rest).map fun r => (itemMarkers i ++ r.1, r.2)

end

mutual

/-- The host text of an item, with the gap before it if `spaced`; its markers count from `index`. -/
def itemText (spaced : Bool) (index : Nat) : FragmentItem → String
  | .token t => (if spaced then t.gap else "") ++ t.text
  | .escape marker operand =>
    (if spaced then marker.gap else "") ++ escapeCallee ++ "(" ++
      textFrom false (index + 1) operand ++ s!", {index})"

/-- The host text of items; the gap before the first is shown if `spaced`. -/
def textFrom (spaced : Bool) (index : Nat) : List FragmentItem → String
  | [] => ""
  | i :: rest =>
    itemText spaced index i ++ textFrom true (index + (itemMarkers i).length) rest

end

/-- The host text of a fragment whose markers count from `index`. -/
def text (index : Nat) (is : List FragmentItem) : String := textFrom false index is

end Fragment

end DoBlocks
