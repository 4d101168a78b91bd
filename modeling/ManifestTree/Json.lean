import ManifestTree.Number.Shortest
import ManifestTree.Text.CodePoint

/-!
# JSON values

Values of the JSON data format.  Integers are unbounded and apart from floating-point numbers,
strings may hold lone surrogates, and the members of an object are in order.

Resources are idealised here and throughout the library.  An integer is converted to and from any
number of digits, in JSON, in YAML scalars and in the literals of a manifest, and values, documents
and constructs nest to any depth; an interpreter that limits the digits it converts or the depth of
its recursion fails on texts beyond its limits.
-/

namespace ManifestTree

inductive Json where
  | null
  | bool (b : Bool)
  | integer (i : Int)
  | real (r : Binary64)
  | string (t : Text)
  | array (items : List Json)
  | object (members : List (Text × Json))
deriving Repr

namespace Json

instance : Inhabited Json := ⟨.null⟩

def str (s : String) : Json := .string (Text.ofString s)

/-- A natural number. -/
def nat (n : Nat) : Json := .integer n

/-- An object whose members have plain names. -/
def obj (members : List (String × Json)) : Json :=
  .object (members.map fun m => (Text.ofString m.1, m.2))

/-- The member of an object with a name; of several, the first. -/
def member? (name : Text) : Json → Option Json
  | .object members => (members.find? fun m => m.1 = name).map (·.2)
  | _ => none

/-- Sets a member: in its place if the name is there, and else at the end. -/
def setMember (name : Text) (value : Json) : List (Text × Json) → List (Text × Json)
  | [] => [(name, value)]
  | m :: ms => if m.1 = name then (name, value) :: ms else m :: setMember name value ms

mutual

/-- How deep a value nests. -/
def depth : Json → Nat
  | .array items => depthItems items + 1
  | .object members => depthMembers members + 1
  | _ => 0

/-- How deep some items nest. -/
def depthItems : List Json → Nat
  | [] => 0
  | j :: js => max j.depth (depthItems js)

/-- How deep some members nest. -/
def depthMembers : List (Text × Json) → Nat
  | [] => 0
  | (_, j) :: ms => max j.depth (depthMembers ms)

end

end Json

end ManifestTree
