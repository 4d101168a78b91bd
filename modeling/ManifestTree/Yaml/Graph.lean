import ManifestTree.Yaml.Scalar
import ManifestTree.Yaml.Token

/-!
# Graphs of nodes

`Graph.ofText` reads a YAML text of at most one document as a graph: its nodes in the order of
their beginnings, each with the type that its tag or its text gives it.  An alias is no node of its
own but another place of the node that it names, which may be one that it lies in.
-/

namespace ManifestTree.Yaml

/-- What a node consists of. -/
inductive Content where
  | scalar (text : Text)
  | sequence (items : List NodeId)
  | mapping (pairs : List (NodeId × NodeId))
deriving DecidableEq, Repr

structure Node where
  /-- Its type. -/
  type : NodeType
  /-- What it consists of. -/
  content : Content
deriving DecidableEq, Repr

instance : Inhabited Node := ⟨⟨.null, .scalar []⟩⟩

/-- The nodes of a document. -/
structure Graph where
  /-- The node that the document consists of. -/
  root : NodeId
  /-- The nodes by their numbers. -/
  nodes : Array Node
deriving Repr

/-- How far a text is read. -/
structure Reading where
  /-- The tokens that are left. -/
  supply : Supply
  /-- What the handles of tags are short for. -/
  handles : List (List Char × List Char)
  /-- The anchored nodes. -/
  anchors : List (List Char × NodeId)
  /-- The nodes so far. -/
  nodes : Array Node

/-- Reads tokens. -/
abbrev Reader := StateT Reading (Except Fault)

namespace Reader

/-- Refuses the text. -/
def fail {α : Type} : Reader α := throw .malformed

/-- The next token. -/
def peek : Reader Token := do
  let r ← get
  match r.supply.tokens with
  | t :: _ => return t
  | [] => throw r.supply.ending

/-- Consumes the next token. -/
def skip : Reader Unit :=
  modify fun r => { r with supply := { r.supply with tokens := r.supply.tokens.drop 1 } }

/-- Consumes the next token if it is the given one. -/
def accept (t : Token) : Reader Bool := do
  if (← peek) = t then
    skip
    return true
  else return false

/-- Consumes the given token, which must be there. -/
def expect (t : Token) : Reader Unit := do
  if !(← accept t) then fail

/-- The next token is one of some tokens. -/
def nextIn (ts : List Token) : Reader Bool := return ts.contains (← peek)

/-- Repeats a step until it has nothing more to add. -/
def gather {α : Type} (step : Reader (Option α)) : (fuel : Nat) → Reader (List α)
  | 0 => fail
  | fuel + 1 => do
    match ← step with
    | none => return []
    | some a => return a :: (← gather step fuel)

/-- Repeats a step that consumes a token whenever it adds something. -/
def gatherAll {α : Type} (step : Reader (Option α)) : Reader (List α) := do
  gather step ((← get).supply.tokens.length + 1)

end Reader

open Reader

/-! ## Properties -/

/-- What stands in front of a node. -/
structure Properties where
  /-- Its anchor. -/
  anchor : Option (List Char)
  /-- Its full tag. -/
  tag : Option (List Char)

/-- The handles that are known everywhere, with what they are short for. -/
def commonHandles : List (List Char × List Char) :=
  [(['!'], ['!']), (['!', '!'], NodeType.space)]

/-- The full form of a tag. -/
def fullTag (t : WrittenTag) : Reader (List Char) := do
  match t.handle with
  | none => return t.suffix
  | some handle =>
    match (← get).handles.lookup handle with
    | some meaning => return meaning ++ t.suffix
    | none => fail

/-- Reads an anchor, if one stands here. -/
def anchor : Reader (Option (List Char)) := do
  match ← peek with
  | .anchor name =>
    skip
    return some name
  | _ => return none

/-- Reads a tag, if one stands here. -/
def writtenTag : Reader (Option WrittenTag) := do
  match ← peek with
  | .tag t =>
    skip
    return some t
  | _ => return none

/-- Reads an anchor and a tag in either order. -/
def properties : Reader Properties := do
  let first ← anchor
  let written ← writtenTag
  let second ← if first.isNone && written.isSome then anchor else pure none
  let tag ← match written with
    | some t => some <$> fullTag t
    | none => pure none
  return ⟨first.or second, tag⟩

/-- The type of a node whose type is `untagged` as long as no tag says more.  The tag of a lone
exclamation mark says nothing. -/
def Properties.type (p : Properties) (untagged : NodeType) : NodeType :=
  match p.tag with
  | none => untagged
  | some ['!'] => untagged
  | some tag => .ofTag tag

/-- The type of a scalar.  Its text counts if it is plain and without a tag, or if its tag is a lone
exclamation mark. -/
def Properties.scalarType (p : Properties) (text : Text) (plain : Bool) : NodeType :=
  if p.tag = some ['!'] || plain then p.type (typeOfText text.toChars) else p.type .string

/-! ## Nodes -/

/-- Adds a node with its properties.  An anchor must be new. -/
def addNode (p : Properties) (node : Node) : Reader NodeId := do
  let r ← get
  let id := r.nodes.size
  let anchors ← match p.anchor with
    | none => pure r.anchors
    | some name =>
      if r.anchors.any fun a => a.1 = name then fail else pure ((name, id) :: r.anchors)
  set { r with anchors, nodes := r.nodes.push node }
  return id

def scalarNode (p : Properties) (text : Text) (plain : Bool) : Reader NodeId :=
  addNode p ⟨p.scalarType text plain, .scalar text⟩

/-- Adds an empty scalar in the place of a missing node. -/
def missing : Reader NodeId := scalarNode ⟨none, none⟩ [] true

/-- Adds a node with parts, which may name the node itself. -/
def nodeWithParts (p : Properties) (untagged : NodeType) (start : Content)
    (parts : Reader Content) : Reader NodeId := do
  let id ← addNode p ⟨p.type untagged, start⟩
  let content ← parts
  modify fun r => { r with nodes := r.nodes.modify id fun n => { n with content } }
  return id

def sequenceNode (p : Properties) (items : Reader (List NodeId)) : Reader NodeId :=
  nodeWithParts p .sequence (.sequence []) (.sequence <$> items)

def mappingNode (p : Properties) (pairs : Reader (List (NodeId × NodeId))) : Reader NodeId :=
  nodeWithParts p .mapping (.mapping []) (.mapping <$> pairs)

/-- How the nodes within a node are read: in the block context or not, and perhaps a sequence that
is not indented. -/
abbrev Nested := (block indentless : Bool) → Reader NodeId

/-- A node, or a missing one where one of some tokens follows at once. -/
def nodeUnless (nested : Nested) (stops : List Token) (block indentless : Bool) :
    Reader NodeId := do
  if ← nextIn stops then missing else nested block indentless

def blockItems (nested : Nested) (stops : List Token) : Reader (List NodeId) :=
  gatherAll do
    if ← accept .blockEntry then some <$> nodeUnless nested stops true false else return none

def blockPairs (nested : Nested) : Reader (List (NodeId × NodeId)) :=
  gatherAll do
    if ← accept .key then
      let stops := [Token.key, .value, .blockEnd]
      let k ← nodeUnless nested stops true true
      let v ← if ← accept .value then nodeUnless nested stops true true else missing
      return some (k, v)
    else return none

/-- A pair in a flow collection, after the sign of its key. -/
def flowPair (nested : Nested) (closes : Token) : Reader (NodeId × NodeId) := do
  let k ← nodeUnless nested [.value, .flowEntry, closes] false false
  let v ← if ← accept .value then nodeUnless nested [.flowEntry, closes] false false else missing
  return (k, v)

/-- Members of a flow collection with commas between them, up to the token that closes it. -/
def flowMembers {α : Type} (closes : Token) (member : Reader α) : Reader (List α) := do
  if ← accept closes then return []
  else
    let first ← member
    let more ← gatherAll do
      if ← accept closes then return none
      else
        expect .flowEntry
        if ← accept closes then return none else some <$> member
    return first :: more

/-- A member of a flow sequence: a node, or a mapping of one pair. -/
def flowItem (nested : Nested) : Reader NodeId := do
  if ← accept .key then
    mappingNode ⟨none, none⟩ do return [← flowPair nested .flowSequenceEnd]
  else nested false false

/-- A member of a flow mapping: a pair, or a key without a value. -/
def flowMember (nested : Nested) : Reader (NodeId × NodeId) := do
  if ← accept .key then flowPair nested .flowMappingEnd
  else
    let k ← nested false false
    return (k, ← missing)

/-- A node of parts between its first token and the given one. -/
def enclosed {α : Type} (parts : Reader α) (stop : Token) : Reader α := do
  skip
  let a ← parts
  expect stop
  return a

/-- A node without content, which only its properties make one. -/
def contentless (p : Properties) : Reader NodeId :=
  if p.anchor.isSome || p.tag.isSome then scalarNode p [] true else fail

/-- The part of a node after its properties. -/
def content (nested : Nested) (p : Properties) (block indentless : Bool) : Reader NodeId := do
  match ← peek with
  | .scalar text plain =>
    skip
    scalarNode p text (plain && p.tag.isNone)
  | .flowSequence =>
    sequenceNode p do
      skip
      flowMembers .flowSequenceEnd (flowItem nested)
  | .flowMapping =>
    mappingNode p do
      skip
      flowMembers .flowMappingEnd (flowMember nested)
  | .blockSequence =>
    if block then
      sequenceNode p (enclosed (blockItems nested [.blockEntry, .blockEnd]) .blockEnd)
    else contentless p
  | .blockMapping =>
    if block then mappingNode p (enclosed (blockPairs nested) .blockEnd) else contentless p
  | .blockEntry =>
    if indentless then
      sequenceNode p (blockItems nested [.blockEntry, .key, .value, .blockEnd])
    else contentless p
  | _ => contentless p

/-- A node: an alias, or properties and content. -/
def node (nested : Nested) (block indentless : Bool) : Reader NodeId := do
  match ← peek with
  | .alias name =>
    skip
    match (← get).anchors.lookup name with
    | some id => return id
    | none => fail
  | _ =>
    let p ← properties
    content nested p block indentless

/-- How nodes are read when they nest no deeper than a bound. -/
def nodes : Nat → Nested
  | 0 => fun _ _ => fail
  | n + 1 => node (nodes n)

/-! ## Documents -/

/-- What the directives in front of a document have said so far. -/
structure Directives where
  /-- A version was given. -/
  version : Bool
  /-- The handles, with what they are short for. -/
  handles : List (List Char × List Char)

/-- Adds what a directive says.  The version can be given once and must be one of the first, and a
handle can be given once. -/
def Directives.add (ds : Directives) : Directive → Option Directives
  | .version major => if ds.version || major ≠ 1 then none else some { ds with version := true }
  | .handle name meaning =>
    if ds.handles.any fun h => h.1 = name then none
    else some { ds with handles := (name, meaning) :: ds.handles }
  | .unknown => some ds

/-- Reads directives as far as they go. -/
def directivesFrom : (fuel : Nat) → Directives → Reader Directives
  | 0, _ => fail
  | fuel + 1, ds => do
    match ← peek with
    | .directive d =>
      skip
      match ds.add d with
      | some ds => directivesFrom fuel ds
      | none => fail
    | _ => return ds

/-- Reads the directives in front of a document, and the sign of the document after them. -/
def documentHead : Reader Unit := do
  let ds ← directivesFrom ((← get).supply.tokens.length + 1) ⟨false, []⟩
  modify fun r => { r with handles := ds.handles ++ commonHandles }
  expect .documentStart

/-- The next token is a directive. -/
def atDirective : Reader Bool := do
  match ← peek with
  | .directive _ => return true
  | _ => return false

/-- The document at the start of a text.  One that begins with a directive or the sign of a document
needs that sign before its content. -/
def document (bound : Nat) : Reader NodeId := do
  if (← atDirective) || (← nextIn [.documentStart]) then
    documentHead
    if ← atDirective then missing
    else nodeUnless (nodes bound) [.documentStart, .documentEnd, .streamEnd] true false
  else nodes bound true false

/-- Consumes the ends of documents. -/
def skipEnds : Reader Unit := do
  let _ ← gatherAll do
    if ← accept .documentEnd then return some () else return none

/-- Reads a whole text.  An empty one has no document, and one after the first is one too many. -/
def whole (bound : Nat) : Reader (Option NodeId) := do
  if ← nextIn [.streamEnd] then return none
  else
    let root ← document bound
    skipEnds
    if ← nextIn [.streamEnd] then return some root
    else
      documentHead
      fail

/-- The graph of a text, if it has a document. -/
def Graph.ofText (cs : List Char) : Except Fault (Option Graph) := do
  let supply := Supply.ofText cs
  let bound := supply.tokens.length + 1
  let (root, r) ← (whole bound).run ⟨supply, commonHandles, [], #[]⟩
  return root.map fun root => ⟨root, r.nodes⟩

end ManifestTree.Yaml
