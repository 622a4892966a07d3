import DoBlocks.Block.Parser
import DoBlocks.Text.Blank

/-!
# Sites

A site is a statement of a module that a block belongs to. `locateSites` walks over the tokens of a
module: each block keyword before a brace starts a site, and the walk goes on after its block. A
site that cannot be read keeps its error and ends at the brace that matches its first one.
-/

namespace DoBlocks

/-- A statement with a block, or the error that stopped it from being read. Offsets run from the
start of the line of the statement to the end of the block. -/
structure Site where
  content : Except ParseError (Sink × Block)
  start : Nat
  stop : Nat
  /-- The blanks before the statement. -/
  indent : String
  span : Span

namespace Site

/-- The part of a text after its last line feed. -/
def lastLine (s : String) : String :=
  String.ofList (s.toList.reverse.takeWhile (· != '\n')).reverse

/-- The tokens up to the brace that closes the first one, or all of them. -/
def throughBraces (depth : Nat) : List SpacedToken → List SpacedToken
  | [] => []
  | t :: rest =>
    if t.isSymbol "\x7b" then t :: throughBraces (depth + 1) rest
    else if t.isSymbol "\x7d" then
      if depth ≤ 1 then [t] else t :: throughBraces (depth - 1) rest
    else t :: throughBraces depth rest

/-- Reads the statement of a site: `before` are its tokens before the block, `depth` counts the
brackets around it. -/
def content? (keyword : String) (before : List SpacedToken) (depth : Nat) (indent : String) :
    BlockReader.Reader (Sink × Block) := do
  let word ← BlockReader.peek
  if depth != 0 || !(Text.strip indent).isEmpty then
    BlockReader.fail (.siteInside keyword) word.span
  let sink ← BlockReader.sinkBefore keyword before word
  let _ ← BlockReader.consume
  let block ← BlockReader.nextBlock keyword true
  let next ← BlockReader.peek
  if next.kind != .newline && next.kind != .eof then
    BlockReader.fail (.blockNotLast keyword) next.span
  return (sink, block)

def read (keyword : String) (before : List SpacedToken) (depth : Nat) :
    ExceptT BlockFailure (StateM BlockReader.State) Site := fun st =>
  let first := (before ++ st.rest).headD default
  let indent := lastLine first.gap
  let finish (content : Except ParseError (Sink × Block)) (st' : BlockReader.State) :
      Except BlockFailure Site × BlockReader.State :=
    (.ok ⟨content, first.offset - indent.length, st'.last.stop, indent, first.span.through st'.last.span⟩, st')
  match (content? keyword before depth indent).run st with
  | (.ok c, st') => finish (.ok c) st'
  | (.error (.fault e), st') =>
    let taken := throughBraces 0 (st.rest.drop 1)
    let last := (taken.getLast?.map SpacedToken.toToken).getD st.last
    finish (.error e) ⟨st.rest.drop (taken.length + 1), last, st.stop, st'.markers⟩
  | (.error e, st') => (.error e, st')

/-- Walks over tokens, at most `fuel` steps. `before` are the tokens of the current statement, latest
first; `depth` counts open brackets. -/
def locateFrom (keyword : String) :
    Nat → List SpacedToken → Nat → ExceptT BlockFailure (StateM BlockReader.State) (List Site)
  | 0, _, _ => return []
  | fuel + 1, before, depth => do
    let st ← get
    match st.rest with
    | [] => return []
    | t :: rest =>
      if t.kind == .newline && depth == 0 then
        set { st with rest := rest, last := t.toToken }
        locateFrom keyword fuel [] depth
      else if BlockReader.startsBlock keyword st.rest then
        let site ← read keyword before.reverse depth
        let taken := st.rest.take (st.rest.length - (← get).rest.length)
        return site :: (← locateFrom keyword fuel (taken.reverse ++ before) depth)
      else
        set { st with rest := rest, last := t.toToken }
        let depth' := if t.isOpener then depth + 1 else if t.isCloser then depth - 1 else depth
        locateFrom keyword fuel (t :: before) depth'

end Site

def locateSitesOf (keyword : String) (s : Script) : Except BlockFailure (List Site) :=
  ((Site.locateFrom keyword (s.tokens.length + 1) [] 0).run (.start s 0)).1

def locateSites (keyword text : String) : Except BlockFailure (List Site) :=
  match Script.ofText text with
  | .error e => .error (.fault e)
  | .ok s => locateSitesOf keyword s

end DoBlocks
