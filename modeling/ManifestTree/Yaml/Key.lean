import ManifestTree.Json.Printer
import ManifestTree.Text.Order
import ManifestTree.Text.Quoted
import ManifestTree.Yaml

/-!
# Keys in print and in order

How a key of a mapping is printed, and which keys have an order among them: texts, numbers, bytes,
days, local times and instants each among their own kind, and nothing else.
-/

namespace ManifestTree.Yaml.Atom

/-! ## Print -/

/-- A floating-point number in print. -/
def realText : Binary64 → List Char
  | .infinite negative => (if negative then ['-'] else []) ++ "inf".toList
  | .nan => "nan".toList
  | r => Json.realText r

/-- An atom in print. -/
def text : Atom → Text
  | .null => Text.ofString "None"
  | .bool b => Text.ofString (if b then "True" else "False")
  | .integer i => Text.ofChars (Json.integerText i)
  | .real r => Text.ofChars (realText r)
  | .notANumber => Text.ofChars (realText .nan)
  | .string t => t
  | .bytes bs => Text.ofChars (Text.quotedBytes bs)
  | .date (.day d) => Text.ofChars d.text
  | .date (.moment m) => Text.ofChars m.text

/-! ## Order -/

/-- What atoms have an order among. -/
inductive Kind where
  | text | number | bytes | day
  /-- A moment without a time zone. -/
  | localTime
  /-- A moment in a time zone. -/
  | instant
deriving DecidableEq, Repr

/-- The kind of an atom, if it has an order with others. -/
def kind? : Atom → Option Kind
  | .null => none
  | .bool _ | .integer _ | .real _ | .notANumber => some .number
  | .string _ => some .text
  | .bytes _ => some .bytes
  | .date (.day _) => some .day
  | .date (.moment m) => some (if m.zone.isSome then .instant else .localTime)

/-- A number as a numerator and a positive denominator, if it is finite. -/
def ratio? : Atom → Option (Int × Nat)
  | .real (.finite negative index) => some (Binary64.ratio negative index)
  | a => a.whole?.map fun i => (i, 1)

/-- An infinite number is below (`-1`) or above (`1`) all others. -/
def infiniteSide : Atom → Int
  | .real (.infinite negative) => if negative then -1 else 1
  | _ => 0

/-- The order of numbers by value. -/
def numberLe (a b : Atom) : Bool :=
  match a.ratio?, b.ratio? with
  | some (m, d), some (n, e) => m * e ≤ n * d
  | _, _ => a.infiniteSide ≤ b.infiniteSide

/-- The order of two atoms of one kind. -/
def le (a b : Atom) : Bool :=
  match a, b with
  | .string s, .string t => Text.le s t
  | .bytes s, .bytes t => lexLe (fun x y => x ≤ y) s t
  | .date (.day d), .date (.day e) => d.number ≤ e.number
  | .date (.moment m), .date (.moment n) => m.instant ≤ n.instant
  | _, _ => numberLe a b

/-- Atoms in order.  Two or more have one only if they are of one kind. -/
def sort? : List Atom → Option (List Atom)
  | [] => some []
  | [a] => some [a]
  | a :: more =>
    match a.kind? with
    | some k =>
      if more.all fun b => b.kind? = some k then some ((a :: more).mergeSort le) else none
    | none => none

end ManifestTree.Yaml.Atom
