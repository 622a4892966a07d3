import DoBlocks.Datum.Validation
import DoBlocks.Text.Identifier

/-!
# Settings

What can be chosen about an expansion. Settings are built from a table; unknown entries are ignored.
-/

namespace DoBlocks

structure Settings where
  /-- The word before the brace of a block. -/
  blockKeyword : String := "do"
  /-- The stem of generated names. -/
  hiddenStem : String := "_lm"
  /-- The indentation of generated suites. -/
  indent : String := "    "
  /-- Whether a match that may fail gets a catch-all. -/
  emitGuard : Bool := true
  /-- Whether a type checker looks at the catch-alls. -/
  checkExhaustiveness : Bool := true
  /-- More arguments for the type checker. -/
  checkerArgs : List String := []
  deriving Repr, DecidableEq, Inhabited

namespace Settings

def default : Settings := {}

/-- A name that is not reserved, blanks around it left out. -/
def keywordRule (s : String) : Validated String :=
  let word := Text.strip s
  if Text.isIdentifier word && !Text.isKeyword word then .ok word
  else .problem (.rule s!"Invalid block keyword: '{word}'. Must be a non-reserved identifier.")

/-- A name that is not reserved. -/
def stemRule (s : String) : Validated String :=
  if Text.isIdentifier s && !Text.isKeyword s then .ok s
  else .problem (.rule s!"Invalid hidden name prefix: '{s}'.")

/-- Blanks and tabs, at least one. -/
def indentRule (s : String) : Validated String :=
  if !s.isEmpty && s.toList.all fun c => c == ' ' || c == '\t' then .ok s
  else .problem (.rule "Indent must be a non-empty run of spaces or tabs.")

def fieldNames : List String :=
  ["block_keyword", "hidden_prefix", "indent", "emit_exhaustiveness_guard", "check_exhaustiveness",
   "checker_args"]

def ofTable (entries : List (String × Datum)) : Validated Settings :=
  let keyword := Validated.field entries "block_keyword" (.ok default.blockKeyword)
    fun d => Validated.text d >>= keywordRule
  let stem := Validated.field entries "hidden_prefix" (.ok default.hiddenStem)
    fun d => Validated.text d >>= stemRule
  let indent := Validated.field entries "indent" (.ok default.indent)
    fun d => Validated.text d >>= indentRule
  let guard := Validated.field entries "emit_exhaustiveness_guard" (.ok default.emitGuard)
    Validated.bool
  let check := Validated.field entries "check_exhaustiveness" (.ok default.checkExhaustiveness)
    Validated.bool
  let args := Validated.field entries "checker_args" (.ok default.checkerArgs)
    (Validated.list Validated.text)
  match keyword, stem, indent, guard, check, args with
  | .ok k, .ok s, .ok i, .ok g, .ok c, .ok a => .ok ⟨k, s, i, g, c, a⟩
  | _, _, _, _, _, _ =>
    .error (keyword.errors ++ stem.errors ++ indent.errors ++ guard.errors ++ check.errors ++ args.errors)

end Settings

end DoBlocks
