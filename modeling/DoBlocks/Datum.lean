/-!
# Dynamic values

Values as they come from a configuration file or a request, before anything is known of their types.
-/

namespace DoBlocks

/-- A value of some type. -/
inductive Datum where
  | null
  | bool (b : Bool)
  | int (n : Int)
  /-- The number `mantissa / 10 ^ places`. -/
  | real (mantissa : Int) (places : Nat)
  /-- A number that is not finite. -/
  | notFinite
  | text (s : String)
  | list (items : List Datum)
  /-- Entries in the order they were given. -/
  | table (entries : List (String × Datum))
  /-- A point in time. -/
  | time (s : String)
  deriving Repr, Inhabited

namespace Datum

def entry? (entries : List (String × Datum)) (key : String) : Option Datum :=
  (entries.find? fun e => e.1 == key).map Prod.snd

/-- The entries of a table with one entry set; a new entry comes last. -/
def setEntry (entries : List (String × Datum)) (key : String) (value : Datum) :
    List (String × Datum) :=
  if entries.any fun e => e.1 == key then
    entries.map fun e => if e.1 == key then (key, value) else e
  else entries ++ [(key, value)]

end Datum

end DoBlocks
