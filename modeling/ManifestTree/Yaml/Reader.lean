import ManifestTree.Yaml.Graph

/-!
# Reading YAML

`Yaml.read` reads a text as a document of values.  Values come to be from the root on: a value
without parts at once, and the parts of a value after all values that came up before it.  So the
first fault in that order is the one that is found, and a value may be a part of itself.  Mappings
that are merged into another give it their entries before its own are read.
-/

namespace ManifestTree.Yaml

/-- How far the values of a graph are known. -/
structure Building where
  /-- The nodes, with merged mappings merged as far as they came up. -/
  nodes : Array Node
  /-- The values that are known, some still without their parts. -/
  values : Array (Option Value)
  /-- The nodes whose values are still without their parts, the latest first. -/
  waiting : List NodeId

/-- Finds values. -/
abbrev Builder := StateT Building (Except Fault)

namespace Builder

/-- Refuses the graph. -/
def refuse {α : Type} : Builder α := throw .malformed

def nodeAt (id : NodeId) : Builder Node := return ((← get).nodes[id]?).getD default

def changeNode (id : NodeId) (f : Node → Node) : Builder Unit :=
  modify fun b => { b with nodes := b.nodes.modify id f }

/-- The value of a node as far as it is known. -/
def value? (id : NodeId) : Builder (Option Value) := return ((← get).values[id]?).join

def setValue (id : NodeId) (v : Value) : Builder Unit :=
  modify fun b => { b with values := b.values.modify id fun _ => some v }

/-- Sets the value of a node without its parts, which are to be found later. -/
def await (id : NodeId) (v : Value) : Builder Unit := do
  setValue id v
  modify fun b => { b with waiting := id :: b.waiting }

/-- How many nodes there are. -/
def size : Builder Nat := return (← get).nodes.size

end Builder

open Builder

/-! ## Texts -/

/-- The text of a node: its own, or that of the value that a mapping has under the key for it. -/
def nodeText : (fuel : Nat) → NodeId → Builder Text
  | 0, _ => throw .endlessText
  | fuel + 1, id => do
    match (← nodeAt id).content with
    | .scalar t => return t
    | .sequence _ => refuse
    | .mapping pairs =>
      match ← pairs.findM? fun p => return (← nodeAt p.1).type = .value with
      | some p => nodeText fuel p.2
      | none => refuse

/-- The value of a node of a type without parts. -/
def atomOf (id : NodeId) (type : NodeType) : Builder Atom := do
  if !type.isText then refuse
  else
    let t ← nodeText ((← size) + 1) id
    match type, (← nodeAt id).content with
    | .date, .mapping _ => throw .mappingAsDate
    | _, _ => liftM (atomValue type t)

/-! ## Parts -/

/-- Finds the value of a node, the parts of a value later. -/
def find (id : NodeId) : Builder Unit := do
  match ← value? id with
  | some _ => return
  | none =>
    match (← nodeAt id).type with
    | .sequence => await id (.sequence [])
    | .orderedMap | .pairs => await id (.pairs [])
    | .mapping => await id (.mapping [])
    | .set => await id (.set [])
    | type => setValue id (.atom (← atomOf id type))

def pairsOf (id : NodeId) : Builder (List (NodeId × NodeId)) := do
  match (← nodeAt id).content with
  | .mapping pairs => return pairs
  | _ => refuse

/-- Takes the first pair out of a mapping whose key is a sign of merging, and gives its value. -/
def takeMerge (id : NodeId) : Builder (Option NodeId) := do
  let pairs ← pairsOf id
  let types ← pairs.mapM fun p => return (← nodeAt p.1).type
  let before := types.takeWhile (· ≠ .merge)
  match pairs.drop before.length with
  | [] => return none
  | p :: after =>
    let rest := pairs.take before.length ++ after
    changeNode id fun n => { n with content := .mapping rest }
    return some p.2

/-- A key for the text of a mapping is plain text where the mapping is read as one. -/
def plainKey (id : NodeId) : Builder Unit :=
  changeNode id fun n => if n.type = .value then { n with type := .string } else n

mutual

/-- The pairs that come from a node that is merged into a mapping.  Of several mappings in a
sequence the first counts most, so it comes last. -/
def mergedPairs : (fuel : Nat) → NodeId → Builder (List (NodeId × NodeId))
  | 0, _ => refuse
  | fuel + 1, id => do
    match (← nodeAt id).content with
    | .scalar _ => refuse
    | .mapping _ =>
      merge fuel id []
      pairsOf id
    | .sequence items =>
      let parts ← items.mapM fun item => do
        let _ ← pairsOf item
        merge fuel item []
        pairsOf item
      return parts.reverse.flatten

/-- Merges into a mapping all that it asks for, after what was merged already.  Every round but the
last takes a sign of merging away, which bounds the rounds. -/
def merge : (fuel : Nat) → NodeId → (merged : List (NodeId × NodeId)) → Builder Unit
  | 0, _, _ => refuse
  | fuel + 1, id, merged => do
    match ← takeMerge id with
    | some source => merge fuel id (merged ++ (← mergedPairs fuel source))
    | none =>
      let own ← pairsOf id
      own.forM fun p => plainKey p.1
      changeNode id fun n => { n with content := .mapping (merged ++ own) }

end

/-- A bound on the rounds of merging. -/
def mergeBound : Builder Nat := do
  let pairs := (← get).nodes.foldl (fun count n => match n.content with
    | .mapping pairs => count + pairs.length
    | _ => count) 0
  return 3 * pairs + 3

/-- Two keys are the same: the same node, or the same atom. -/
def sameKey (a b : NodeId × Atom) : Bool := a.1 = b.1 || a.2.sameKey b.2

/-- Sets an entry: a key that is there already keeps its place. -/
def setEntry (key : NodeId × Atom) (value : NodeId) :
    List ((NodeId × Atom) × NodeId) → List ((NodeId × Atom) × NodeId)
  | [] => [(key, value)]
  | e :: es => if sameKey e.1 key then (e.1, value) :: es else e :: setEntry key value es

/-- The entries of a mapping.  Only values without parts can be keys. -/
def entriesOf (id : NodeId) : Builder (List (NodeId × NodeId)) := do
  let _ ← pairsOf id
  merge (← mergeBound) id []
  let pairs ← (← pairsOf id).mapM fun (k, v) => do
    find k
    match (← value? k).bind Value.atom? with
    | none => refuse
    | some a =>
      find v
      return ((k, a), v)
  let entries := pairs.foldl (fun es p => setEntry p.1 p.2 es) []
  return entries.map fun e => (e.1.1, e.2)

def itemsOf (id : NodeId) : Builder (List NodeId) := do
  match (← nodeAt id).content with
  | .sequence items => return items
  | _ => refuse

/-- The only pair of a mapping that stands for a pair. -/
def onlyPair (id : NodeId) : Builder (NodeId × NodeId) := do
  match ← pairsOf id with
  | [(k, v)] =>
    find k
    find v
    return (k, v)
  | _ => refuse

/-- Finds the parts of a value. -/
def fill (id : NodeId) : Builder Unit := do
  match (← nodeAt id).type with
  | .sequence =>
    let items ← itemsOf id
    items.forM find
    setValue id (.sequence items)
  | .orderedMap | .pairs =>
    let items ← itemsOf id
    setValue id (.pairs (← items.mapM onlyPair))
  | .set => setValue id (.set ((← entriesOf id).map (·.1)))
  | _ => setValue id (.mapping (← entriesOf id))

/-- Finds the parts of all values that wait for them, and of the values that come up with them.
Every round but the last has a value to fill that no round before it had. -/
def fillAll : (rounds : Nat) → Builder Unit
  | 0 => refuse
  | rounds + 1 => do
    match (← get).waiting with
    | [] => return
    | waiting =>
      modify fun b => { b with waiting := [] }
      waiting.reverse.forM fill
      fillAll rounds

def Graph.document (g : Graph) : Except Fault Document := do
  let start : Building := ⟨g.nodes, Array.replicate g.nodes.size none, []⟩
  let (_, b) ← (do find g.root; fillAll (g.nodes.size + 1) : Builder Unit).run start
  return ⟨g.root, b.values.map fun v => v.getD default⟩

/-- The document of a text.  A text without one stands for nothing. -/
def read (cs : List Char) : Except Fault Document := do
  match ← Graph.ofText cs with
  | none => return .empty
  | some g => g.document

end ManifestTree.Yaml
