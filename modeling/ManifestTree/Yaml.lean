import ManifestTree.Number.Shortest
import ManifestTree.Text.CodePoint
import ManifestTree.Yaml.Date

/-!
# YAML values

What a YAML 1.1 document stands for.  The nodes of a document form a graph, since an alias stands
for a node that has its place elsewhere, even one that it lies in.  So do their values: a `Document`
lists them by the numbers of their nodes, and the parts of a value are numbers of nodes again.
-/

namespace ManifestTree.Yaml

/-- Why a text has no value. -/
inductive Fault where
  /-- It is no YAML text of at most one document, or the tag of a node does not go with it. -/
  | malformed
  /-- A text that is tagged or written as a number, a date or a code point stands for none. -/
  | noSuchValue
  /-- A text that is tagged as a number is empty. -/
  | emptyNumber
  /-- A text that is tagged as a truth value is none. -/
  | noTruthValue
  /-- A text that is tagged as a date is none. -/
  | noDate
  /-- A mapping that stands for a text is tagged as a date. -/
  | mappingAsDate
  /-- A number is beyond all bounds. -/
  | tooLarge
  /-- The text that a mapping stands for is its own. -/
  | endlessText
deriving DecidableEq, Repr

/-- A value without parts. -/
inductive Atom where
  | null
  | bool (b : Bool)
  | integer (i : Int)
  | real (r : Binary64)
  /-- What the word for no number means, one and the same wherever it stands. -/
  | notANumber
  | string (t : Text)
  | bytes (bytes : List UInt8)
  | date (d : Date)
deriving DecidableEq, Repr

namespace Atom

/-- Numbers, and the truth values as one and zero. -/
def number? : Atom → Option Binary64
  | .bool b => some (Binary64.ofInt (if b then 1 else 0))
  | .integer i => some (Binary64.ofInt i)
  | .real r => some r
  | _ => none

/-- The whole number that an atom is, if it is one. -/
def whole? : Atom → Option Int
  | .bool b => some (if b then 1 else 0)
  | .integer i => some i
  | .real r => r.toInt?
  | _ => none

/-- Two atoms are the same key.  Numbers are compared by value, truth values count as numbers, and
moments in time zones are compared by instant. -/
def sameKey (a b : Atom) : Bool :=
  match a, b with
  | .null, .null | .notANumber, .notANumber => true
  | .string s, .string t => s = t
  | .bytes s, .bytes t => s = t
  | .date (.day d), .date (.day e) => d = e
  | .date (.moment m), .date (.moment n) => m.same n
  | _, _ =>
    match a.whole?, b.whole? with
    | some i, some j => i = j
    | none, none =>
      match a.number?, b.number? with
      | some x, some y => x.valueEq y
      | _, _ => false
    | _, _ => false

end Atom

/-- The number of a node. -/
abbrev NodeId := Nat

/-- A value, with the nodes of its parts. -/
inductive Value where
  | atom (a : Atom)
  | sequence (items : List NodeId)
  /-- A sequence of pairs. -/
  | pairs (pairs : List (NodeId × NodeId))
  | mapping (entries : List (NodeId × NodeId))
  | set (members : List NodeId)
deriving DecidableEq, Repr

instance : Inhabited Value := ⟨.atom .null⟩

/-- The atom that a value is, if it has no parts. -/
def Value.atom? : Value → Option Atom
  | .atom a => some a
  | _ => none

/-- The values of the nodes of a document. -/
structure Document where
  /-- The node that the document consists of. -/
  root : NodeId
  /-- The values of the nodes. -/
  values : Array Value
deriving Repr

namespace Document

/-- A text without a document stands for nothing. -/
def empty : Document := ⟨0, #[]⟩

instance : Inhabited Document := ⟨empty⟩

/-- The value of a node; a number without a node stands for nothing. -/
def value (d : Document) (n : NodeId) : Value := (d.values[n]?).getD default

/-- The entries of a mapping of a document, by their keys. -/
def entries (d : Document) (pairs : List (NodeId × NodeId)) : List (Atom × Value) :=
  pairs.filterMap fun p => (d.value p.1).atom?.map fun key => (key, d.value p.2)

end Document

end ManifestTree.Yaml
