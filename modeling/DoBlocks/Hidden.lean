import DoBlocks.Text.Identifier
import DoBlocks.Text.Quoted

/-!
# Hidden names

Lowered code needs names that the program text does not use. Such a name is a stem, a role and a
number; an `Allocator` hands them out in order and skips numbers whose names are taken.
-/

namespace DoBlocks

/-- A generated name. -/
structure HiddenName where
  stem : String
  role : String
  index : Int
  deriving Repr, DecidableEq, Inhabited

def HiddenName.render (n : HiddenName) : String := s!"{n.stem}_{n.role}_{n.index}"

def HiddenName.isValid (n : HiddenName) : Bool := Text.isIdentifier n.render

/-- The two names of an escape wrapper; they share their number. -/
structure WrapperNames where
  result : HiddenName
  exit : HiddenName
  deriving Repr, DecidableEq, Inhabited

/-- A source of generated names: their stem, the next number to try, and the names in use. -/
structure Allocator where
  stem : String
  next : Int
  reserved : List String
  deriving Repr, DecidableEq, Inhabited

namespace Allocator

/-- A stem that is no name. -/
structure InvalidStem where
  stem : String
  deriving Repr, DecidableEq, Inhabited

def InvalidStem.message (e : InvalidStem) : String :=
  s!"Invalid hidden name prefix: {Text.quoted e.stem}"

/-- An allocator that counts from `start`; its stem has to be a name. -/
def make (stem : String) (start : Int) : Except InvalidStem Allocator :=
  if Text.isIdentifier stem && !Text.isKeyword stem then .ok ⟨stem, start, []⟩ else .error ⟨stem⟩

def name (a : Allocator) (role : String) (index : Int) : HiddenName := ⟨a.stem, role, index⟩

/-- The written form `s` is in use. -/
def isReserved (a : Allocator) (s : String) : Bool := a.reserved.contains s

def reserve (a : Allocator) (names : List String) : Allocator :=
  { a with reserved := names ++ a.reserved }

/-- None of the names for these roles with number `index` is in use. -/
def isFree (a : Allocator) (roles : List String) (index : Int) : Bool :=
  roles.all fun r => !a.isReserved (a.name r index).render

/-- The first free number from `index`, looking at no more than `fuel` taken ones. -/
def firstFree (a : Allocator) (roles : List String) : Nat → Int → Int
  | 0, index => index
  | fuel + 1, index => if a.isFree roles index then index else a.firstFree roles fuel (index + 1)

/-- Takes the next number free for all roles. A name ends in its number, so each name in use blocks
one number at most. -/
def draw (a : Allocator) (roles : List String) : Int × Allocator :=
  let index := a.firstFree roles a.reserved.length a.next
  let names := roles.map fun r => (a.name r index).render
  (index, { (a.reserve names) with next := index + 1 })

def fresh (a : Allocator) (role : String) : HiddenName × Allocator :=
  let (index, a') := a.draw [role]
  (a.name role index, a')

def wrapper (a : Allocator) : WrapperNames × Allocator :=
  let (index, a') := a.draw ["result", "exit"]
  (⟨a.name "result" index, a.name "exit" index⟩, a')

end Allocator

end DoBlocks
