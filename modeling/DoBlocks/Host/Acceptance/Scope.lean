import DoBlocks.Host.Tree

/-!
# Scopes

Functions, classes and comprehensions have scopes of their own. `Item.ofTree` lists what a tree does
in its scope, in order: names that are read, bound or declared, actions that only some scopes allow,
and the scopes inside it. `ScopeKind.admits` says whether a scope may do what it does.
-/

namespace DoBlocks.Host

/-- The kinds of scopes. -/
inductive ScopeKind where
  | module
  | classBody
  | function
  | asyncFunction
  /-- A comprehension; a generator runs later than the others. -/
  | comprehension (generator : Bool)
  /-- A type mark that is kept as text. -/
  | typeText
  deriving Repr, DecidableEq, Inhabited

namespace ScopeKind

def isFunction : ScopeKind → Bool
  | function | asyncFunction | comprehension _ => true
  | _ => false

def isComprehension : ScopeKind → Bool
  | comprehension _ => true
  | _ => false

end ScopeKind

/-- What happens to a name. -/
inductive Mention where
  | use
  | bind
  | parameter
  | importing
  /-- Bound by a clause of a comprehension. -/
  | iterate
  /-- Read in a target that such a clause binds. -/
  | within
  /-- Bound by `:=`. -/
  | named
  /-- Bound by `:=` in a comprehension inside the scope. -/
  | lifted
  /-- Given a type. -/
  | typed
  | global
  | nonlocal
  deriving Repr, DecidableEq, Inhabited

/-- What only some scopes allow. -/
inductive Action where
  | await
  | yield
  | yieldFrom
  | return (value : Bool)
  /-- An asynchronous loop or `with`. -/
  | asyncStatement
  /-- An asynchronous clause of a comprehension. -/
  | asyncClause
  /-- An import of all names of a module. -/
  | importAll
  deriving Repr, DecidableEq, Inhabited

/-- Something that is done in a scope. -/
inductive Item where
  | mention (m : Mention) (name : String)
  | action (a : Action)
  | scope (kind : ScopeKind) (items : List Item)
  /-- What the iterable of a comprehension does. -/
  | iterable (items : List Item)
  /-- What the type of an assigned name does. Functions do not evaluate it. -/
  | typeMark (items : List Item)
  deriving Repr, Inhabited

/-- How a tree is used. -/
inductive Role where
  | load
  | store
  | iterate
  | within
  /-- The tree names nothing of the scope. -/
  | skip
  deriving Repr, DecidableEq, Inhabited

/-- The constant that no statement may bind. Reading it mentions no name. -/
def debugConstant : String := "__debug__"

namespace Item

/-! ### Listing what a tree does -/

def leafText : Tree → String
  | .leaf l => l.text
  | .node _ _ => ""

/-- The role of each child, where the child after one of the words has the role of that word. -/
def rolesAfter (words : List (String × Role)) (role : Role) : List Tree → List Role
  | [] => []
  | t :: rest =>
    let next := (words.find? fun w => w.1 == leafText t).map Prod.snd
    role :: rolesAfter words (next.getD .load) rest

/-- The roles of the children of an assignment: all but the last part are targets. -/
def assignRoles : List Tree → List Role
  | [] => []
  | t :: rest =>
    (if t.kind?.isSome && rest.any fun u => u.kind?.isSome then .store else .load) :: assignRoles rest

/-- The first part that is a name names nothing. -/
def skipName : List Tree → List Role
  | [] => []
  | t :: rest =>
    if t.is .name then .skip :: rest.map fun _ => .load else .load :: skipName rest

/-- The roles of the children of a node used as `role`, apart from what `roles` adds. -/
def plainRoles (role : Role) (k : Kind) (children : List Tree) : List Role :=
  match k with
  | .paren | .tuple | .parenTuple | .list | .starred => children.map fun _ => role
  | .assign => assignRoles children
  | .augmentedAssign => .store :: (children.drop 1).map fun _ => .load
  | .annotatedAssign =>
    (match children with
      | t :: rest =>
        if t.bare.is .name && (t.is .name || !rest.any fun u => leafText u == "=") then .skip else .store
      | [] => .load) :: (children.drop 1).map fun _ => .load
  | .deleteStatement => children.map fun _ => .store
  | .forLoop => rolesAfter [("for", .store)] .load children
  | .comprehensionFor => rolesAfter [("for", .iterate)] .load children
  | .withItem | .handler | .starHandler => rolesAfter [("as", .store)] .load children
  | .attribute => rolesAfter [(".", .skip)] .load children
  | .keywordArgument | .keywordPattern | .named | .function | .classDefinition | .parameter
  | .starParameter | .doubleStarParameter => skipName children
  | .globalStatement | .nonlocalStatement | .importModules | .importNames =>
    children.map fun _ => .skip
  | _ => children.map fun _ => .load

def hasScope : Kind → Bool
  | .lambda | .listComprehension | .setComprehension | .dictComprehension | .generator
  | .generatorArgument => true
  | _ => false

/-- The roles of the children of a node used as `role`. What a target of a comprehension reads is
marked. -/
def roles (role : Role) (k : Kind) (children : List Tree) : List Role :=
  let plain := plainRoles role k children
  if (role == .iterate || role == .within) && !hasScope k then
    plain.map fun r => if r == .load then .within else r
  else plain

/-- The text of the first part that is a name. -/
def firstName (children : List Tree) : List String :=
  ((children.find? fun t => t.is .name).bind Tree.word?).toList

def parameterNames (children : List Tree) : List Item :=
  (children.filter fun t => t.is .parameters).flatMap fun ps =>
    ps.parts.flatMap fun p => (firstName p.children).map (mention .parameter)

/-- The name that an import binds: the new name, or the first part of the old one. -/
def importedName (item : Tree) : List Item :=
  let names := item.partsOf .name
  let renamed := item.hasSign "as"
  let name? := if renamed then names.getLast?.bind Tree.word?
    else (item.lexemes.head?).map fun l => l.text
  name?.toList.map (mention .importing)

def imported (children : List Tree) : List Item :=
  let all := match children.getLast? with
    | some (.leaf l) => if l.text == "*" then [action .importAll] else []
    | _ => []
  all ++ (children.filter fun t => t.is .importAlias).flatMap importedName

/-- The items of the children that satisfy `p`. -/
def itemsWhere (p : Tree → Bool) (children : List Tree) (items : List (List Item)) : List Item :=
  ((children.zip items).filter fun c => p c.1).flatMap Prod.snd

/-- Takes the iterable of the first clause of a comprehension out of its items. -/
def splitIterable : List Item → List Item × List Item
  | [] => ([], [])
  | .iterable its :: rest => ([.iterable its], rest)
  | i :: rest =>
    let (first, others) := splitIterable rest
    (first, i :: others)

/-- The items of a comprehension: the first iterable belongs to the scope around it, and the element
comes last. -/
def comprehension (generator : Bool) (children : List Tree) (items : List (List Item)) : List Item :=
  let clauses := itemsWhere (fun t => t.is .comprehensionFor) children items
  let element := itemsWhere (fun t => !t.is .comprehensionFor) children items
  let (first, inside) := splitIterable clauses
  first ++ [scope (.comprehension generator) (inside ++ element)]

def clause (children : List Tree) (items : List (List Item)) : List Item :=
  let pairs := children.zip items
  let header := pairs.takeWhile fun c => leafText c.1 != "in"
  let rest := pairs.drop (header.length + 1)
  (if header.any fun c => leafText c.1 == "async" then [action .asyncClause] else []) ++
    header.flatMap Prod.snd ++ [iterable ((rest.take 1).flatMap Prod.snd)] ++
    (rest.drop 1).flatMap Prod.snd

def withParameters (kind : ScopeKind) (children : List Tree) (items : List (List Item)) : List Item :=
  let before := children.length - 1
  (items.take before).flatten ++
    [scope kind (parameterNames children ++ (items.drop before).flatten)]

/-- The items of a node from the items of its children. `texts` tells that type marks are kept as
text. -/
def assemble (texts : Bool) (role : Role) (k : Kind) (children : List Tree)
    (items : List (List Item)) : List Item :=
  let all := items.flatten
  let isAsync := children.any fun t => leafText t == "async"
  match k with
  | .name =>
    match role with
    | .skip => []
    | .load => ((children.map leafText).filter (· != debugConstant)).map (mention .use)
    | .store => (children.map leafText).map (mention .bind)
    | .iterate => (children.map leafText).map (mention .iterate)
    | .within => ((children.map leafText).filter (· != debugConstant)).map (mention .within)
  | .capture => (children.map leafText).map (mention .bind)
  | .named => (firstName children).map (mention .named) ++ all
  | .typeMark => if texts then [scope .typeText all] else all
  | .annotatedAssign =>
    (if (children.take 1).any fun t => t.is .name then (firstName children).map (mention .typed)
      else []) ++ itemsWhere (fun t => !t.is .typeMark) children items ++
      [typeMark (itemsWhere (fun t => t.is .typeMark) children items)]
  | .globalStatement =>
    ((children.filter fun t => t.is .name).filterMap Tree.word?).map (mention .global)
  | .nonlocalStatement =>
    ((children.filter fun t => t.is .name).filterMap Tree.word?).map (mention .nonlocal)
  | .importModules | .importNames => imported children
  | .awaited => all ++ [action .await]
  | .yielded => all ++ [action .yield]
  | .yieldedFrom => all ++ [action .yieldFrom]
  | .returnStatement => all ++ [action (.return (children.any fun t => t.kind?.isSome))]
  | .forLoop | .withStatement => (if isAsync then [action .asyncStatement] else []) ++ all
  | .comprehensionFor => clause children items
  | .listComprehension | .setComprehension | .dictComprehension => comprehension false children items
  | .generator | .generatorArgument => comprehension true children items
  | .lambda => withParameters .function children items
  | .function =>
    (firstName children).map (mention .bind) ++
      withParameters (if isAsync then .asyncFunction else .function) children items
  | .classDefinition =>
    let before := children.length - 1
    (firstName children).map (mention .bind) ++ (items.take before).flatten ++
      [scope .classBody (items.drop before).flatten]
  | _ => all

mutual

/-- What a tree used as `role` does in its scope. -/
def ofTree (texts : Bool) (role : Role) : Tree → List Item
  | .leaf _ => []
  | .node k children =>
    assemble texts role k children (ofTrees texts (roles role k children) children)

def ofTrees (texts : Bool) : List Role → List Tree → List (List Item)
  | r :: more, t :: rest => ofTree texts r t :: ofTrees texts more rest
  | _, _ => []

end

/-! ### Questions about items -/

mutual

/-- Some name is bound by `:=`, in this scope or one inside it. -/
def hasNamed : Item → Bool
  | .mention m _ => m == .named
  | .action _ => false
  | .scope _ items => anyNamed items
  | .iterable items => anyNamed items
  | .typeMark items => anyNamed items

def anyNamed : List Item → Bool
  | [] => false
  | i :: rest => i.hasNamed || anyNamed rest

end

mutual

def lifted : Item → List String
  | .mention .named name => [name]
  | .mention _ _ => []
  | .action _ => []
  | .scope (.comprehension _) items => liftedAll items
  | .scope _ _ => []
  | .iterable items => liftedAll items
  | .typeMark items => liftedAll items

def liftedAll : List Item → List String
  | [] => []
  | i :: rest => i.lifted ++ liftedAll rest

end

mutual

/-- What an item mentions in its own scope; a comprehension binds there what it names by `:=`. -/
def mentions : Item → List (Mention × String)
  | .mention m name => [(m, name)]
  | .action _ => []
  | .scope kind items => (lifted (.scope kind items)).map fun n => (.lifted, n)
  | .iterable items => mentionsOf items
  | .typeMark items => mentionsOf items

def mentionsOf : List Item → List (Mention × String)
  | [] => []
  | i :: rest => i.mentions ++ mentionsOf rest

end

mutual

def actions : Item → List Action
  | .action a => [a]
  | .iterable items => actionsOf items
  | .typeMark items => actionsOf items
  | _ => []

def actionsOf : List Item → List Action
  | [] => []
  | i :: rest => i.actions ++ actionsOf rest

end

mutual

/-- The item makes its scope wait: it awaits, or it holds a waiting comprehension that is no
generator. -/
def waits : Item → Bool
  | .action a => a == .await || a == .asyncClause
  | .scope (.comprehension false) items => anyWaits items
  | .iterable items => anyWaits items
  | _ => false

def anyWaits : List Item → Bool
  | [] => false
  | i :: rest => i.waits || anyWaits rest

end

end Item

/-! ### Rules -/

namespace ScopeKind

/-- The scope allows the action; `yields` tells that it yields somewhere. -/
def allows (k : ScopeKind) (yields : Bool) : Action → Bool
  | .await => k == .asyncFunction || k.isComprehension
  | .yield => k == .function || k == .asyncFunction
  | .yieldFrom => k == .function
  | .return value => k == .function || (k == .asyncFunction && !(value && yields))
  | .asyncStatement => k == .asyncFunction
  | .asyncClause => k.isComprehension
  | .importAll => k == .module

end ScopeKind

def Mention.binds : Mention → Bool
  | .bind | .parameter | .importing | .iterate | .named | .lifted | .typed => true
  | _ => false

/-- A scope seen from inside it: its kind and all that it mentions. -/
structure OuterScope where
  kind : ScopeKind
  mentions : List (Mention × String)
  deriving Repr, Inhabited

/-- A name that is declared nonlocal is bound by some function around the scope. A function that
declares the name global hides it from those around itself; classes never give names to scopes
inside them, except for their own cell. -/
def bindsOutside (name : String) : List OuterScope → Bool
  | [] => false
  | s :: outer =>
    if s.kind == .classBody then name == "__class__" || bindsOutside name outer
    else if !s.kind.isFunction then bindsOutside name outer
    else if s.mentions.contains (.global, name) then false
    else
      (s.mentions.any fun m => m.2 == name && m.1.binds && !s.mentions.contains (.nonlocal, name)) ||
        bindsOutside name outer

def mentionFits (kind : ScopeKind) (before : List (Mention × String)) (m : Mention × String) : Bool :=
  let had (e : Mention) : Bool := before.contains (e, m.2)
  match m.1 with
  | .global | .nonlocal =>
    !(had .parameter || had .bind || had .use || had .typed || had .named ||
      (kind != .module && had .lifted))
  | .parameter => !had .parameter
  | .typed => kind == .module || !(had .global || had .nonlocal)
  | .iterate | .within => !had .named
  | _ => true

def mentionsFit (kind : ScopeKind) (before : List (Mention × String)) :
    List (Mention × String) → Bool
  | [] => true
  | m :: rest => mentionFits kind before m && mentionsFit kind (m :: before) rest

def declarationsFit (kind : ScopeKind) (outer : List OuterScope)
    (mentions : List (Mention × String)) : Bool :=
  mentions.all fun m =>
    m.1 != .nonlocal ||
      (kind != .module && !mentions.contains (.global, m.2) && bindsOutside m.2 outer)

/-- A name bound by `:=` inside comprehensions goes to the scope around them: no class body, and no
name that one of the comprehensions iterates over. `iterated` are the names of the comprehensions
around, `home` the kind of the scope around them. -/
def namedFits (kind home : ScopeKind) (iterated : List String) (name : String) : Bool :=
  match kind with
  | .comprehension _ => home != .classBody && !iterated.contains name
  | .typeText => false
  | _ => true

mutual

/-- An item is admitted in a scope of kind `kind`. `home` is the kind of the nearest scope that is no
comprehension and `iterated` the names iterated over since then; `outer` are the scopes around the
item, innermost first; `yields` tells that its scope yields, and `evaluated` that the item is
evaluated at all. -/
def Item.admitted (kind home : ScopeKind) (iterated : List String) (outer : List OuterScope)
    (yields evaluated : Bool) : Item → Bool
  | .mention m name =>
    !(evaluated && m.binds && name == debugConstant) &&
      (m != .named || namedFits kind home iterated name)
  | .action a => (!evaluated && kind != .typeText) || kind.allows yields a
  | .iterable items =>
    !Item.anyNamed items && Item.allAdmitted kind home iterated outer yields evaluated items
  | .typeMark items =>
    Item.allAdmitted kind home iterated outer yields (evaluated && !kind.isFunction) items
  | .scope k items =>
    let mentions := Item.mentionsOf items
    let inside : OuterScope := ⟨k, mentions⟩
    let home' := if k.isComprehension then home else k
    let iterated' := if k.isComprehension then iterated else []
    let waitsHere := match k with
      | .comprehension generator =>
        !evaluated || generator || kind == .asyncFunction || kind.isComprehension ||
          !Item.anyWaits items
      | _ => true
    waitsHere && mentionsFit k [] mentions && declarationsFit k outer mentions &&
      Item.allAdmitted k home' iterated' (inside :: outer)
        ((Item.actionsOf items).any fun a => a == .yield) (evaluated && k != .typeText) items

/-- Items in order; the names they iterate over count for those after them. -/
def Item.allAdmitted (kind home : ScopeKind) (iterated : List String) (outer : List OuterScope)
    (yields evaluated : Bool) : List Item → Bool
  | [] => true
  | i :: rest =>
    i.admitted kind home iterated outer yields evaluated &&
      Item.allAdmitted kind home
        (match i with
          | .mention .iterate name | .mention .within name => name :: iterated
          | _ => iterated) outer yields evaluated rest

end

/-- The scopes of a module are in order. `texts` tells that type marks are kept as text. -/
def scopesFit (texts : Bool) (module : Tree) : Bool :=
  Item.admitted .module .module [] [] false true (.scope .module (Item.ofTree texts .load module))

end DoBlocks.Host
