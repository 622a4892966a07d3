import DoBlocks.Host.Reprint
import DoBlocks.Lowered

/-!
# Host statements at an indentation

Statements given as text are written at an indentation, the way lowered code is.
-/

namespace DoBlocks

/-- Why statements cannot be written. -/
inductive RenderFailure where
  | refused (r : Host.Refusal)
  /-- The indentation is not blank. -/
  | margin
  deriving Repr, DecidableEq, Inhabited

/-- The statements `texts` at the indentation `base`; deeper levels are indented by `unit`. Without
statements the result is `pass`. -/
def renderTexts (texts : List String) (base unit : String) : Except RenderFailure String := do
  let parts ← texts.mapM fun t =>
    match Host.reindent t unit base with
    | .ok s => .ok s
    | .error r => .error (.refused r)
  if !isMargin base then throw .margin
  return if parts.isEmpty then Lowered.renderAll unit base [.pass] else String.join parts

end DoBlocks
