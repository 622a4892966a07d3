import DoBlocks.Text.Quoted
import DoBlocks.Trace

/-!
# Traces as JSON

A trace file holds a list of objects, one for each event. An event is named by its number, and the
event it lies in by that event's number.
-/

namespace DoBlocks.Trace

def unitEscape (n : Nat) : List Char := '\\' :: 'u' :: Text.hexDigits 4 n

/-- A character inside a JSON string; characters outside ASCII are escaped. -/
def jsonChar (c : Char) : List Char :=
  let n := c.toNat
  if c == '\x22' || c == '\\' then ['\\', c]
  else if c == '\n' then ['\\', 'n']
  else if c == '\r' then ['\\', 'r']
  else if c == '\t' then ['\\', 't']
  else if 32 ≤ n && n < 127 then [c]
  else if n < 0x10000 then unitEscape n
  else
    let m := n - 0x10000
    unitEscape (0xD800 + m / 0x400) ++ unitEscape (0xDC00 + m % 0x400)

def jsonString (s : String) : String :=
  String.ofList ('\x22' :: s.toList.flatMap jsonChar ++ ['\x22'])

def jsonDetail : Event.Detail → String
  | .text s => jsonString s
  | .flag true => "true"
  | .flag false => "false"

/-- Things in brackets, one on each line. -/
def bracketed (margin left right : String) (items : List String) : String :=
  if items.isEmpty then left ++ right
  else left ++ "\n" ++ ",\n".intercalate (items.map fun i => margin ++ "  " ++ i) ++ "\n" ++ margin ++ right

def jsonObject (margin : String) (fields : List (String × String)) : String :=
  bracketed margin "\x7b" "\x7d" (fields.map fun f => jsonString f.1 ++ ": " ++ f.2)

/-- The `n`th event as a JSON object. -/
def jsonEvent (time : Nat) (n : Nat) (r : Recorded) : String :=
  jsonObject "  "
    [("id", jsonString (toString n)), ("type", jsonString r.event.kind), ("timestamp", toString time),
     ("description", jsonString r.event.description),
     ("parent_id", (r.parent.map fun p => jsonString (toString p)).getD "null"),
     ("metadata", jsonObject "    " (r.event.details.map fun d => (d.1, jsonDetail d.2)))]

def toJson (t : Trace) (time : Nat) : String :=
  bracketed "" "[" "]" ((t.events.zipIdx).map fun e => jsonEvent time e.2 e.1)

end DoBlocks.Trace
