/-!
# Log lines

What is told to the user: a level and a message. Messages may hold markup. Every level but the
lowest puts its mark before the message.
-/

namespace DoBlocks

/-- How important a line is. -/
inductive LogLevel where
  | info
  | success
  | warning
  | error
  deriving Repr, DecidableEq, Inhabited

namespace LogLevel

def render : LogLevel → String
  | info => "INFO"
  | success => "SUCCESS"
  | warning => "WARNING"
  | error => "ERROR"

def mark : LogLevel → String
  | info => ""
  | success => "✅ "
  | warning => "⚠️  "
  | error => "❌ "

end LogLevel

/-- A line of a log. -/
structure LogLine where
  level : LogLevel
  text : String
  deriving Repr, DecidableEq, Inhabited

namespace LogLine

/-- The line for a message, with the mark of its level. -/
def make (level : LogLevel) (message : String) : LogLine := ⟨level, level.mark ++ message⟩

def info (message : String) : LogLine := make .info message

def success (message : String) : LogLine := make .success message

def warning (message : String) : LogLine := make .warning message

def error (message : String) : LogLine := make .error message

end LogLine

end DoBlocks
