import ManifestTree.Json
import ManifestTree.Number.Written
import ManifestTree.Tree.Schema

/-!
# Stored trees

The JSON form of a tree: an object for each element with its span, its signs, its kind and its
fields.  `Node.toJson` writes it and `Node.ofJson?` reads it back.  Reading ignores members that
the schema does not name and fills in what may be left out.  It is lenient with values: a whole
number may be written as a float, a truth value or a text, and the like.
-/

namespace ManifestTree

/-! ## Writing -/

def Span.toJson (s : Span) : Json :=
  Json.obj [("start", .integer s.start), ("end", .integer s.stop), ("line", .integer s.line),
    ("column", .integer s.column)]

def Kind.member (k : Kind) : String × Json := ("kind", Json.str k.word)

/-- A sign as an object. -/
def Leaf.toJson (l : Leaf) : Json :=
  Json.obj [("span", l.span.toJson), Kind.token.member, ("text", .string l.text)]

/-- The value of a field whose elements are written already. -/
def Field.toJson : Field Json → Json
  | .integer i => .integer i
  | .real r => .real r
  | .flag b => .bool b
  | .text none => .null
  | .text (some t) => .string t
  | .texts ts => .array (ts.map .string)
  | .word w => Json.str w
  | .child none => .null
  | .child (some j) => j
  | .children none => .null
  | .children (some js) => .array js

def Kind.fieldMembers (k : Kind) (fields : List (Field Json)) : List (String × Json) :=
  (k.schema.zip fields).map fun p => (p.1.name, p.2.toJson)

/-- The fields of scoped names come before their kind, those of all other elements after it. -/
def Kind.kindLast : Kind → Bool
  | .scopedName _ => true
  | _ => false

/-- The members of an element after its span and signs. -/
def Kind.members (k : Kind) (fields : List (Field Json)) : List (String × Json) :=
  if k.kindLast then k.fieldMembers fields ++ [k.member] else k.member :: k.fieldMembers fields

/-- An element as an object, given the elements in its fields. -/
def Node.object (n : Node) (shape : Shape Json) : Json :=
  let signs := if n.kind.isLeaf then [] else [("tokens", Json.array (n.tokens.map Leaf.toJson))]
  Json.obj (("span", n.span.toJson) :: signs ++ n.kind.members shape.fields)

/-- The stored form of an element. -/
def Node.toJson (n : Node) : Json := n.fold Node.object

/-! ## Reading values -/

namespace Stored

open Text

/-! ### Numbers in texts -/

/-- Single underscores may stand within a number. -/
def hasLooseUnderscore : List Char → Bool
  | '_' :: '_' :: _ => true
  | ['_'] => true
  | _ :: cs => hasLooseUnderscore cs
  | [] => false

/-- A number without its underscores, or as it is if they cannot stand there. -/
def withoutUnderscores (cs : List Char) : List Char :=
  if cs.head? = some '_' || hasLooseUnderscore cs then cs else cs.filter (· ≠ '_')

/-- A number without a plus sign in front of it, which no other sign may follow. -/
def withoutPlus? : List Char → Option (List Char)
  | '+' :: cs => if cs.head? = some '-' then none else some cs
  | cs => some cs

/-- A number without the zeros and underscores that a zero `last` of it goes on with.  A zero stays
if nothing but a point comes after it. -/
def afterZeros? (last : Char) : List Char → Option (List Char)
  | [] => some [last]
  | c :: cs =>
    if c = '0' || c = '_' then afterZeros? c cs
    else if isAsciiDigit c then some (c :: cs)
    else if c = '.' then some (last :: c :: cs)
    else none

/-- A number without the zeros in front of it.  It starts with a digit or a minus sign. -/
def withoutZeros? : List Char → Option (List Char)
  | [] => none
  | c :: cs =>
    if c = '0' then afterZeros? c cs
    else if isAsciiDigit c || c = '-' then some (c :: cs)
    else none

/-- A number without a point if only zeros come after it. -/
def withoutFraction (cs : List Char) : List Char :=
  let whole := cs.takeWhile (· ≠ '.')
  if (cs.drop (whole.length + 1)).all (· = '0') then whole else cs

/-- Digits without a zero in front of others. -/
def digits? (cs : List Char) : Option Nat :=
  if cs.isEmpty || !cs.all (isAsciiDigit ·) || (cs.head? = some '0' && cs.length ≠ 1) then none
  else Literal.inBase? 10 (ofChars cs)

/-- A whole number with a minus sign if it is negative. -/
def numeral? : List Char → Option Int
  | '-' :: cs => (digits? cs).map fun n => -(n : Int)
  | cs => (digits? cs).map Int.ofNat

/-- A whole number in a text.  There may be white space around it, a plus sign or zeros in front of
it, a point and zeros at its end, and underscores within it. -/
def integerText? (cs : List Char) : Option Int := do
  let cs ← withoutZeros? (← withoutPlus? (trimNumber cs))
  numeral? (withoutUnderscores (withoutFraction cs))

/-- A number in a text, with white space around it or underscores within it. -/
def realText? (cs : List Char) : Option Binary64 :=
  (Written.plainReal? (trimNumber cs)).or (Written.plainReal? (withoutUnderscores cs))

/-! ### Values -/

/-- A whole number of less than 64 bits. -/
def isShort (i : Int) : Bool := i.natAbs < Nat.pow 2 63

/-- A whole number.  One that is written as a floating-point number must be short. -/
def integer? : Json → Option Int
  | .integer i => some i
  | .bool b => some (if b then 1 else 0)
  | .real r => r.toInt?.filter isShort
  | .string t => integerText? t.toChars
  | _ => none

/-- A floating-point number.  A whole number must not be too large for one. -/
def real? : Json → Option Binary64
  | .real r => some r
  | .integer i =>
    let r := Binary64.ofInt i
    if r.isFinite then some r else none
  | .bool b => some (Binary64.ofInt (if b then 1 else 0))
  | .string t => realText? t.toChars
  | _ => none

/-- The words for truth values. -/
def flagText? (cs : List Char) : Option Bool :=
  let w := String.ofList (cs.map Written.lower)
  if ["1", "true", "t", "yes", "y", "on"].contains w then some true
  else if ["0", "false", "f", "no", "n", "off"].contains w then some false
  else none

/-- A truth value. -/
def flag? : Json → Option Bool
  | .bool b => some b
  | .integer 0 => some false
  | .integer 1 => some true
  | .real r => match r.toInt? with
    | some 0 => some false
    | some 1 => some true
    | _ => none
  | .string t => flagText? t.toChars
  | _ => none

def text? : Json → Option Text
  | .string t => some t
  | _ => none

def items? : Json → Option (List Json)
  | .array js => some js
  | _ => none

/-- A member by its plain name. -/
def member? (name : String) (j : Json) : Option Json := j.member? (Text.ofString name)

/-- A span.  None of its numbers may be left out. -/
def span? (j : Json) : Option Span := do
  let number (name : String) : Option Int := do integer? (← member? name j)
  return ⟨← number "start", ← number "end", ← number "line", ← number "column"⟩

def word? (words : List String) (j : Json) : Option String := do
  let t ← text? j
  words.find? fun w => Text.ofString w = t

/-! ## Reading elements -/

/-- Whether the value may be read as an element of the kind: the kind may be left out, but not be
another. -/
def fitsKind (k : Kind) (j : Json) : Bool :=
  match member? "kind" j with
  | some w => word? [k.word] w |>.isSome
  | none => true

/-- The kind that a place reads a value as.  Where several kinds may stand the value must name
one. -/
def kindIn? (place : Place) (j : Json) : Option Kind :=
  match place with
  | .only k => if fitsKind k j then some k else none
  | _ => do
    let w ← member? "kind" j
    let t ← text? w
    place.kinds.find? fun k => Text.ofString k.word = t

/-- The value that stands for a field that is left out. -/
def omitted? : Omission → Option (FieldType → Option (Field Node))
  | .required => none
  | .absent => some fun type => match type with
    | .optionalText => some (.text none)
    | .optionalChild _ => some (.child none)
    | .optionalChildren _ => some (.children none)
    | _ => none
  | .emptyList => some fun _ => some (.children (some []))
  | .no => some fun _ => some (.flag false)
  | .word w => some fun _ => some (.word w)

/-- A value that may be null. -/
def nullable {α : Type} (read : Json → Option α) : Json → Option (Option α)
  | .null => some none
  | j => (read j).map some

/-- The value of a field of a type, where elements are read by `node`. -/
def field? (node : Place → Json → Option Node) (type : FieldType) (j : Json) :
    Option (Field Node) :=
  match type with
  | .integer => (integer? j).map .integer
  | .real => (real? j).map .real
  | .flag => (flag? j).map .flag
  | .text => (text? j).map fun t => .text (some t)
  | .optionalText => (nullable text? j).map .text
  | .texts => (items? j).bind fun js => (js.mapM text?).map .texts
  | .word words => (word? words j).map .word
  | .child place => (node place j).map fun n => .child (some n)
  | .optionalChild place => (nullable (node place) j).map .child
  | .children place =>
    (items? j).bind fun js => (js.mapM (node place)).map fun ns => .children (some ns)
  | .optionalChildren place =>
    (nullable (fun j => (items? j).bind fun js => js.mapM (node place)) j).map .children

/-- The value of a declared field of an object. -/
def declared? (node : Place → Json → Option Node) (j : Json) (d : FieldDecl) :
    Option (Field Node) :=
  match member? d.name j with
  | some value => field? node d.type value
  | none => (omitted? d.omission).bind fun f => f d.type

/-- A sign, stored as a token element. -/
def leaf? (j : Json) : Option Leaf := do
  if !fitsKind .token j then none
  else return ⟨← span? (← member? "span" j), ← text? (← member? "text" j)⟩

/-- The signs of an element, which may be left out. -/
def leaves? (k : Kind) (j : Json) : Option (List Leaf) :=
  if k.isLeaf then some []
  else match member? "tokens" j with
    | none => some []
    | some js => (items? js).bind fun js => js.mapM leaf?

/-- The element that an object stands for in a place.  Elements nest no deeper than values do. -/
def node? : (fuel : Nat) → Place → Json → Option Node
  | 0, _, _ => none
  | fuel + 1, place, j =>
    match j with
    | .object _ => do
      let k ← kindIn? place j
      let span ← span? (← member? "span" j)
      let leaves ← leaves? k j
      let fields ← k.schema.mapM (declared? (node? fuel) j)
      let shape ← Shape.ofFields? k fields
      return .mk span leaves shape
    | _ => none

end Stored

/-- Reads the stored form of an element that may stand in a place. -/
def Node.ofJson? (place : Place) (j : Json) : Option Node := Stored.node? (j.depth + 1) place j

mutual

/-- Two values are the same, floating-point numbers by value. -/
def Json.sameValue : Json → Json → Bool
  | .null, .null => true
  | .bool a, .bool b => a = b
  | .integer a, .integer b => a = b
  | .real a, .real b => a.valueEq b
  | .string a, .string b => a = b
  | .array as, .array bs => Json.sameItems as bs
  | .object as, .object bs => Json.sameMembers as bs
  | _, _ => false

/-- Two lists of values are the same. -/
def Json.sameItems : List Json → List Json → Bool
  | [], [] => true
  | a :: as, b :: bs => a.sameValue b && Json.sameItems as bs
  | _, _ => false

/-- Two lists of members are the same. -/
def Json.sameMembers : List (Text × Json) → List (Text × Json) → Bool
  | [], [] => true
  | (m, a) :: as, (n, b) :: bs => m = n && a.sameValue b && Json.sameMembers as bs
  | _, _ => false

end

/-- Two trees are equal if their stored forms are, floating-point numbers by value. -/
def Node.sameTree (a b : Node) : Bool := a.toJson.sameValue b.toJson

end ManifestTree
