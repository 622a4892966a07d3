import DoBlocks.Lowered
import DoBlocks.Trace

/-!
# Lowering blocks

A block becomes plain host statements. Simple statements stay as they are, except that escapes in
their value are lifted into `if` statements first. A match takes the rest of its block into its
first case. The tail is delivered to the sink.

A block that owns an escape is put into a loop that runs once: an escape stores its value in the
result slot, raises the exit flag and leaves the loop, and host loops in between are left by a test
of the flag after them.
-/

namespace DoBlocks

/-- A construct that cannot be lowered. -/
inductive LoweringFault where
  /-- A fallback arm can run to its end. -/
  | armFallsThrough
  /-- An escape in a place from which it cannot be lifted. -/
  | unliftable
  /-- An escape outside any wrapper. -/
  | strayEscape
  /-- `break` or `continue` that would act on the wrapper. -/
  | loopControl (word : String)
  deriving Repr, DecidableEq, Inhabited

namespace LoweringFault

def message : LoweringFault → String
  | armFallsThrough => "Fallback arm must diverge (escape, return, raise, break or continue)"
  | unliftable => "Escape marker '^' cannot be lifted out of this expression"
  | strayEscape => "Escape outside of an extended block"
  | loopControl word =>
    s!"'{word}' outside a host loop would exit the escape wrapper of this block"

end LoweringFault

/-- A fault and its place. -/
structure LoweringError where
  fault : LoweringFault
  span : Span
  deriving Repr, DecidableEq, Inhabited

/-- Why lowering stops. -/
inductive LoweringFailure where
  | error (e : LoweringError)
  /-- The lowered code cannot be written: a name that is none, an assignment without targets, or a
  generated name next to a word. -/
  | spelling
  deriving Repr, DecidableEq, Inhabited

/-- A catch-all case that a checker has to prove unreachable, and the match it belongs to. -/
structure Obligation where
  subject : HiddenName
  span : Span
  deriving Repr, DecidableEq, Inhabited

namespace Lowering

/-- What lowering keeps from block to block, and where it stands inside one. -/
structure State where
  names : Allocator
  obligations : List Obligation
  wrappers : List WrapperNames
  /-- The local name of the function that a catch-all calls. -/
  callee : Option HiddenName
  trace : Trace
  /-- The innermost wrapper. -/
  wrapper : Option WrapperNames
  /-- The number of host loops inside that wrapper. -/
  loopDepth : Nat
  deriving Repr, Inhabited

def State.initial (names : Allocator) : State := ⟨names, [], [], none, .empty, none, 0⟩

abbrev Lower := ExceptT LoweringFailure (StateM State)

def fail {α : Type} (fault : LoweringFault) (span : Span) : Lower α := throw (.error ⟨fault, span⟩)

/-- Goes on only if the code can be written. -/
def require (b : Bool) : Lower Unit := if b then pure () else throw .spelling

def fresh (role : String) : Lower HiddenName := do
  let (name, names) := (← get).names.fresh role
  modify fun st => { st with names := names }
  return name

def record (e : Event) : Lower Unit := modify fun st => { st with trace := st.trace.record e }

/-- The local name of the function that a catch-all calls, chosen on first use. -/
def guardCallee : Lower HiddenName := do
  match (← get).callee with
  | some c => return c
  | none =>
    let c ← fresh "assert_never"
    modify fun st => { st with callee := some c }
    return c

/-! ### Delivery -/

/-- The statements that hand a value, or the lack of one, to a sink. The result slot of a wrapper
starts out as `None`, so there a missing value needs no assignment. -/
def deliver (sink : Sink) (value : Option Expr) : Except LoweringFailure (List Lowered) := do
  let main ← match sink.destination with
    | .assign targets =>
      if value.isNone && sink.exitFlag.isSome then pure []
      else if targets.isEmpty then throw .spelling
      else pure [.assign targets ((value.map Value.expr).getD (.constant .none))]
    | .return => pure [.return value]
    | .discard => pure (value.map Lowered.evaluate).toList
  match sink.exitFlag with
  | none => return main
  | some flag =>
    if flag.render.isEmpty then return main
    else if flag.isValid then return main ++ [.set flag (.constant .true)]
    else throw .spelling

def delivered (sink : Sink) (value : Option Expr) : Lower (List Lowered) :=
  match deliver sink value with
  | .ok stmts => return stmts
  | .error e => throw e

/-! ### Lifting escapes -/

def escapeTo (span : Span) (value : Expr) : Lower (List Lowered) := do
  match (← get).wrapper with
  | none => fail .strayEscape span
  | some w =>
    return [.set (.hidden w.result) (.expr value), .set (.hidden w.exit) (.constant .true), .break]

/-- The test that guards the right operand of a connective, given the name of the left one. -/
def connectiveTest (c : Connective) (name : HiddenName) : Test :=
  match c with
  | .or => .not name
  | .and => .expr (.hidden name)

def assigned (name : HiddenName) : Option Expr → List Lowered
  | some e => [.set (.hidden name) (.expr e)]
  | none => []

/-- Moves the escapes of an expression into statements. Operands run in their order and only if the
expression would evaluate them. The second result yields the value afterwards; it is missing if every
path escapes. -/
def lift (span : Span) : Expr → Lower (List Lowered × Option Expr)
  | .escape _ _ operand => do
    let (prelude, value) ← lift span operand
    match value with
    | none => return (prelude, none)
    | some v => return (prelude ++ (← escapeTo span v), none)
  | .logical c opening left before after right closing => do
    if !left.hasEscape && !right.hasEscape then
      return ([], some (.logical c opening left before after right closing))
    let (prelude, left?) ← lift span left
    match left? with
    | none => return (prelude, none)
    | some left' =>
      if !right.hasEscape then
        require (!(before.isEmpty && left'.isHidden))
        return (prelude, some (.logical c opening left' before after right closing))
      let name ← fresh "value"
      let (branch, right?) ← lift span right
      require name.isValid
      return (prelude ++ [.set (.hidden name) (.expr left'),
        .branch [.mk (connectiveTest c name) (Lowered.suite (branch ++ assigned name right?))] none],
        some (.hidden name))
  | .conditional opening body ifText test elseText orelse closing => do
    if !body.hasEscape && !test.hasEscape && !orelse.hasEscape then
      return ([], some (.conditional opening body ifText test elseText orelse closing))
    let (prelude, test?) ← lift span test
    match test? with
    | none => return (prelude, none)
    | some test' =>
      let name ← fresh "value"
      let (first, body?) ← lift span body
      let (second, orelse?) ← lift span orelse
      let isValue := body?.isSome || orelse?.isSome
      require (!isValue || name.isValid)
      return (prelude ++ [.branch [.mk (.expr test') (Lowered.suite (first ++ assigned name body?))]
        (some (Lowered.suite (second ++ assigned name orelse?)))],
        if isValue then some (.hidden name) else none)
  | e => do
    if e.hasEscape then fail .unliftable span
    return ([], some e)

def lowerEscape (e : Escape) : Lower (List Lowered) := do
  let (prelude, value) ← lift e.span e.value
  match value with
  | none => return prelude
  | some v => return prelude ++ (← escapeTo e.span v)

/-! ### Simple statements -/

def checkLoopControl (s : Simple) (span : Span) : Lower Unit := do
  let st ← get
  if st.wrapper.isSome && st.loopDepth == 0 then
    if s.form == .break then fail (.loopControl "break") span
    if s.form == .continue then fail (.loopControl "continue") span

/-- The statement is `return` with no gap before its value. -/
def isTightReturn (s : Simple) : Bool := s.form == .return && s.lead == .ofString "return"

def lowerSimple (s : Simple) (span : Span) : Lower (List Lowered) := do
  checkLoopControl s span
  if !s.hasEscape then return [.simple s]
  match s.value with
  | none => return [.simple s]
  | some e =>
    let (prelude, value) ← lift span e
    match value with
    | none => return prelude
    | some v =>
      require (!(isTightReturn s && !v.fitsAfterWord))
      return prelude ++ [.simple { s with value := some v }]

/-! ### Blocks -/

/-- The result of lowering a boundary block. -/
structure Result where
  body : List Lowered
  sink : Sink
  wrapper : Option WrapperNames
  deriving Repr, Inhabited

/-- The statements of a result; there is always one. -/
def Result.statements (r : Result) : List Lowered := Lowered.suite r.body

def innerSink (w : WrapperNames) : Sink := ⟨.assign [.hidden w.result], some (.hidden w.exit)⟩

/-- Runs a step inside a wrapper; what was around it comes back afterwards, also after a failure. -/
def withWrapper {α : Type} (w : WrapperNames) (m : Lower α) : Lower α :=
  ExceptT.mk fun st =>
    let (r, st') := m.run { st with wrapper := some w, loopDepth := 0 }
    (r, { st' with wrapper := st.wrapper, loopDepth := st.loopDepth })

def withLoop {α : Type} (m : Lower α) : Lower α :=
  ExceptT.mk fun st =>
    let (r, st') := m.run { st with loopDepth := st.loopDepth + 1 }
    (r, { st' with loopDepth := st.loopDepth })

/-- Lowers a boundary block, given how its inside is lowered. The wrapper is used only if the block
owns an escape. -/
def boundary (escapes : Bool) (span : Span) (sink : Sink) (inside : Sink → Lower (List Lowered)) :
    Lower Result := do
  if !escapes then
    record (.blockLowered span.render false sink.destination.render)
    return ⟨← inside sink, sink, none⟩
  let (w, names) := (← get).names.wrapper
  modify fun st => { st with names := names, wrappers := st.wrappers ++ [w] }
  record (.wrapperAllocated w.result.render w.exit.render)
  require (w.result.isValid && w.exit.isValid)
  let tree ← withWrapper w (inside (innerSink w))
  let after ← if sink.isDiscard then pure [] else delivered sink (some (.hidden w.result))
  record (.blockLowered span.render true sink.destination.render)
  return ⟨[.set (.hidden w.result) (.constant .none), .set (.hidden w.exit) (.constant .false),
    .whileLoop (.not w.exit) (Lowered.suite tree)] ++ after, sink, some w⟩

/-- After a host loop that holds an escape, the flag of the wrapper is tested. -/
def afterLoop (escapes : Bool) : Lower (List Lowered) := do
  match (← get).wrapper with
  | some w =>
    if escapes then return [.branch [.mk (.expr (.hidden w.exit)) [.break]] none] else return []
  | none => return []

/-- Some case without a guard matches every subject. -/
def isCovered (cases : List LoweredCase) : Bool :=
  cases.any fun
    | .mk pattern guard _ => pattern.irrefutable && guard.isNone

/-- Closes a match: unless a case covers all subjects, a catch-all is added if `guards` asks for it. -/
def closeMatch (guards : Bool) (source : Expr) (cases : List LoweredCase) (span : Span) :
    Lower Lowered := do
  let text := source.surface.plain
  if isCovered cases then
    record (.inspection text "covered" "an unguarded case is irrefutable")
    return .matchOn source cases none
  if !guards then return .matchOn source cases none
  let subject ← fresh "unmatched"
  let callee ← guardCallee
  require (callee.isValid && subject.isValid)
  modify fun st => { st with obligations := st.obligations ++ [⟨subject, span⟩] }
  record (.inspection text "guarded" s!"catch-all binds {subject.render}")
  return .matchOn source cases (some ⟨callee, subject⟩)

/-- The arms and `else` that continue an `if` put in front of a chain: another `if` is joined as
`elif`s, anything else becomes the `else` body. -/
def continueWith : List Lowered → List LoweredArm × Option (List Lowered)
  | [.branch arms orelse] => (arms, orelse)
  | chain => ([], some (Lowered.suite chain))

/-- Lowers what comes after a statement, unless control never gets there. -/
def andThen (here : Lower (List Lowered)) (leaves : Bool) (rest : Lower (List Lowered)) :
    Lower (List Lowered) := do
  let stmts ← here
  if leaves then return stmts
  return stmts ++ (← rest)

variable (guards : Bool)

mutual

/-- Lowers a block whose value goes to `sink`. -/
def lowerBlock (sink : Sink) : Block → Lower (List Lowered)
  | .mk statements tail span _ =>
    lowerStatements
      (match tail with
        | none => delivered sink none
        | some t => lowerTail sink span t)
      statements

/-- Lowers statements in order; `finish` lowers the tail after them. A match takes the statements
after it into its first case. -/
def lowerStatements (finish : Lower (List Lowered)) : List Statement → Lower (List Lowered)
  | [] => finish
  | .simple s span :: rest =>
    andThen (lowerSimple s span) s.diverges (lowerStatements finish rest)
  | .escape e :: rest => andThen (lowerEscape e) true (lowerStatements finish rest)
  | .letMatch primary source arms span :: rest => do
    let (prelude, source?) ← lift span source
    match source? with
    | none => return prelude
    | some e =>
      let body ← lowerStatements finish rest
      let cases ← lowerArms arms
      let m ← closeMatch guards e (.mk primary none (Lowered.suite body) :: cases) span
      return prelude ++ [m]
  | .conditional c :: rest =>
    andThen (lowerConditional .discard c) c.diverges (lowerStatements finish rest)
  | .whileLoop test body _ :: rest =>
    andThen
      (do
        let inside ← withLoop (lowerBlock .discard body)
        return .whileLoop (.expr test) (Lowered.suite inside) ::
          (← afterLoop body.containsEscape))
      false (lowerStatements finish rest)
  | .forLoop target iterable body span :: rest =>
    andThen
      (do
        let (prelude, iterable?) ← lift span iterable
        match iterable? with
        | none => return prelude
        | some e =>
          let inside ← withLoop (lowerBlock .discard body)
          return prelude ++ .forLoop target e (Lowered.suite inside) ::
            (← afterLoop body.containsEscape))
      false (lowerStatements finish rest)
  | .nested sink b _ :: rest =>
    andThen
      (do return (← boundary b.containsEscape b.span sink fun s => lowerBlock s b).body)
      sink.isReturn (lowerStatements finish rest)

/-- Lowers the tail of a block at `span`. -/
def lowerTail (sink : Sink) (span : Span) : Tail → Lower (List Lowered)
  | .value e => do
    let (prelude, value) ← lift span e
    match value with
    | none => return prelude
    | some v => return prelude ++ (← delivered sink (some v))
  | .escape e => lowerEscape e
  | .conditional c => lowerConditional sink c
  | .block b => do
    return (← boundary b.containsEscape b.span sink fun s => lowerBlock s b).body

/-- Lowers the fallback arms of a match; each has to diverge. -/
def lowerArms : List Arm → Lower (List LoweredCase)
  | [] => return []
  | .mk pattern guard body span _ :: rest => do
    if !body.diverges then fail .armFallsThrough span
    let b ← lowerBlock .discard body
    return .mk pattern guard (Lowered.suite b) :: (← lowerArms rest)

/-- Lowers branches whose values go to `sink`. Without an `else` a sink that wants a value gets none. -/
def lowerConditional (sink : Sink) : Conditional → Lower (List Lowered)
  | .mk branches orelse span => do
    let other ← match orelse with
      | some b => do
        let stmts ← lowerBlock sink b
        pure (some (Lowered.suite stmts))
      | none => do
        let stmts ← delivered sink none
        pure (if stmts.isEmpty then none else some stmts)
    return (← lowerBranches sink span other branches).getD []

/-- Lowers branches from the last to the first; `orelse` is what is done if none is taken. A test with
lifted escapes needs statements before it, so its branch moves into an `else` body. -/
def lowerBranches (sink : Sink) (span : Span) (orelse : Option (List Lowered)) :
    List Branch → Lower (Option (List Lowered))
  | [] => return none
  | .mk test body :: rest => do
    let later ← lowerBranches sink span orelse rest
    let (arms, orelse') := (later.map continueWith).getD ([], orelse)
    let (prelude, test?) ← lift span test
    match test? with
    | none => return some prelude
    | some t =>
      let stmts ← lowerBlock sink body
      return some (prelude ++ [.branch (.mk (.expr t) (Lowered.suite stmts) :: arms) orelse'])

end

/-- Lowers a boundary block whose value goes to `sink`. -/
def lower (sink : Sink) (b : Block) : Lower Result :=
  boundary b.containsEscape b.span sink fun s => lowerBlock guards s b

/-- Lowers the block of a site, all or nothing: after a fault the obligations and wrappers of the
site are gone. -/
def lowerSite (sink : Sink) (b : Block) : Lower Result :=
  ExceptT.mk fun st =>
    match (lower guards sink b).run st with
    | (.error (.error e), st') =>
      (.error (.error e), { st' with obligations := st.obligations, wrappers := st.wrappers })
    | r => r

end Lowering

end DoBlocks
