import ManifestTree.Number.Written
import ManifestTree.Text.Base64
import ManifestTree.Yaml

/-!
# Types and scalars

The types that tags name, which of them a scalar without a tag is of by its text alone, and the
values that texts stand for once their types are known.  By its text an integer may be binary,
octal after a zero, hexadecimal or in base sixty, and a floating-point number needs a point and a
sign in its exponent.  A tag asks for less: any text is read as the number, truth value or date that
it says.
-/

namespace ManifestTree.Yaml

open Text

/-- The types that tags name. -/
inductive NodeType where
  | null | bool | integer | real | binary | date | string
  | sequence | orderedMap | pairs | mapping | set
  /-- The key under which other mappings are merged into one. -/
  | merge
  /-- The key under which a mapping holds the text it stands for. -/
  | value
  /-- Any other type, which no value is known for. -/
  | other
deriving DecidableEq, Repr

/-- The types by their names. -/
def NodeType.names : List (String × NodeType) := [
  ("null", .null), ("bool", .bool), ("int", .integer), ("float", .real), ("binary", .binary),
  ("timestamp", .date), ("str", .string), ("seq", .sequence), ("omap", .orderedMap),
  ("pairs", .pairs), ("map", .mapping), ("set", .set), ("merge", .merge), ("value", .value)]

/-- What the full tags of types begin with. -/
def NodeType.space : List Char := "tag:yaml.org,2002:".toList

/-- The type that a full tag names. -/
def NodeType.ofTag (tag : List Char) : NodeType :=
  if space.isPrefixOf tag then
    (names.lookup (String.ofList (tag.drop space.length))).getD .other
  else .other

/-- Values of the type are written as texts. -/
def NodeType.isText (type : NodeType) : Bool :=
  [.null, .bool, .integer, .real, .binary, .date, .string].contains type

/-! ## Forms of numbers -/

/-- A text without the sign in front of it. -/
def unsigned (cs : List Char) : List Char := (Written.splitSign cs).2

def isDigitOrLow (c : Char) : Bool := isAsciiDigit c || c = '_'

/-- A number without its underscores. -/
def withoutLow (cs : List Char) : List Char := cs.filter (· ≠ '_')

/-- A text is nonempty and of a class throughout. -/
def allOf (p : Char → Bool) (cs : List Char) : Bool := !cs.isEmpty && cs.all p

def colonParts : List Char → List (List Char)
  | [] => [[]]
  | c :: cs =>
    if c = ':' then [] :: colonParts cs
    else match colonParts cs with
      | part :: parts => (c :: part) :: parts
      | [] => [[c]]

/-- A part in base sixty after the first: one digit, or two of which the first is below six. -/
def isSixty : List Char → Bool
  | [d] => isAsciiDigit d
  | [t, d] => '0' ≤ t && t ≤ '5' && isAsciiDigit d
  | _ => false

/-- A number that begins with a nonzero digit. -/
def isCounting : List Char → Bool
  | c :: cs => '1' ≤ c && c ≤ '9' && cs.all isDigitOrLow
  | [] => false

/-- The form of an integer without its sign. -/
def isUnsignedInteger (cs : List Char) : Bool :=
  match cs with
  | ['0'] => true
  | '0' :: 'b' :: rest => allOf (fun c => c = '0' || c = '1' || c = '_') rest
  | '0' :: 'x' :: rest => allOf (fun c => isHexDigit c || c = '_') rest
  | '0' :: rest => allOf (fun c => ('0' ≤ c && c ≤ '7') || c = '_') rest
  | _ =>
    match colonParts cs with
    | [whole] => isCounting whole
    | first :: parts => isCounting first && parts.all isSixty
    | [] => false

/-- An exponent with its sign, or nothing. -/
def isExponent : List Char → Bool
  | [] => true
  | e :: s :: digits =>
    (e = 'e' || e = 'E') && (s = '+' || s = '-') && allOf (isAsciiDigit ·) digits
  | _ => false

/-- Digits that begin with one. -/
def startsWithDigit (cs : List Char) : Bool :=
  cs.head?.any (isAsciiDigit ·) && cs.all isDigitOrLow

/-- Digits, a point, perhaps digits, and perhaps an exponent. -/
def isPointed (cs : List Char) : Bool :=
  let first := cs.takeWhile (· ≠ '.')
  match cs.drop first.length with
  | '.' :: rest => startsWithDigit first && isExponent (rest.dropWhile isDigitOrLow)
  | _ => false

/-- The form of a number in base sixty with a point. -/
def isSixtyReal (cs : List Char) : Bool :=
  let whole := cs.takeWhile (· ≠ '.')
  match cs.drop whole.length, colonParts whole with
  | '.' :: rest, first :: part :: parts =>
    startsWithDigit first && (part :: parts).all isSixty && rest.all isDigitOrLow
  | _, _ => false

/-- A point in front of digits, and perhaps an exponent. -/
def isFractional : List Char → Bool
  | '.' :: d :: rest => isAsciiDigit d && isExponent (rest.dropWhile isDigitOrLow)
  | _ => false

def isWordOf (words : List String) (cs : List Char) : Bool := words.contains (String.ofList cs)

/-- The form of a floating-point number.  One that begins with its point has no sign. -/
def isReal (cs : List Char) : Bool :=
  let body := unsigned cs
  isPointed body || isSixtyReal body || isFractional cs
    || isWordOf [".inf", ".Inf", ".INF"] body || isWordOf [".nan", ".NaN", ".NAN"] cs

/-! ## The types of texts -/

def truthWords : List String :=
  ["yes", "Yes", "YES", "no", "No", "NO", "true", "True", "TRUE", "false", "False", "FALSE",
    "on", "On", "ON", "off", "Off", "OFF"]

/-- The type of a text that is not empty. -/
def typeOfLine (cs : List Char) : NodeType :=
  if isWordOf ["~", "null", "Null", "NULL"] cs then .null
  else if isWordOf truthWords cs then .bool
  else if isReal cs then .real
  else if isUnsignedInteger (unsigned cs) then .integer
  else if Date.isPlain cs then .date
  else if cs = ['<', '<'] then .merge
  else if cs = ['='] then .value
  else if isWordOf ["!", "&", "*"] cs then .other
  else .string

/-- A text without one line feed at its end. -/
def withoutFeed (cs : List Char) : List Char :=
  if cs.getLast? = some '\n' then cs.dropLast else cs

/-- The type that a text is of when no tag says so.  A line feed at its end does not count. -/
def typeOfText (cs : List Char) : NodeType :=
  if cs.isEmpty then .null
  else if (withoutFeed cs).isEmpty then .string
  else typeOfLine (withoutFeed cs)

/-! ## Values -/

/-- A text that must not be empty. -/
def nonempty (cs : List Char) : Except Fault (List Char) :=
  if cs.isEmpty then .error .emptyNumber else .ok cs

/-- A value that may be missing. -/
def orNone {α : Type} : Option α → Except Fault α
  | some a => .ok a
  | none => .error .noSuchValue

/-- The number that parts in base sixty add up to. -/
def sixtyWhole? (parts : List (List Char)) : Option Int :=
  parts.foldlM (fun n p => (Written.whole? 10 p).map fun d => n * 60 + d) 0

/-- The value of a text as an integer, which needs more than a sign. -/
def integerValue (cs : List Char) : Except Fault Int := do
  let (negative, body) := Written.splitSign (withoutLow cs)
  let body ← nonempty body
  let n ← orNone <| match body with
    | ['0'] => some 0
    | '0' :: 'b' :: rest => Written.whole? 2 rest
    | '0' :: 'x' :: rest => Written.whole? 16 rest
    | '0' :: _ => Written.whole? 8 body
    | _ => if body.contains ':' then sixtyWhole? (colonParts body) else Written.whole? 10 body
  return if negative then -n else n

/-- The sum of parts in base sixty, the last one first, with every step rounded.  `weight` is what
the first of them counts for. -/
def sixtySum (sum : Binary64) (weight : Nat) : List Binary64 → Except Fault Binary64
  | [] => .ok sum
  | part :: parts =>
    let factor := Binary64.ofInt weight
    if factor.isFinite then sixtySum (sum.add (part.mul factor)) (weight * 60) parts
    else .error .tooLarge

/-- The value of a text as a floating-point number. -/
def realValue (cs : List Char) : Except Fault Atom := do
  let (negative, body) := Written.splitSign (← nonempty (withoutLow (cs.map Written.lower)))
  let apply (r : Binary64) : Atom := .real (if negative then r.negate else r)
  if body = ".inf".toList then return apply (.infinite false)
  else if body = ".nan".toList then return .notANumber
  else if body.contains ':' then
    let parts ← orNone ((colonParts body).mapM Written.real?)
    return apply (← sixtySum (.finite false 0) 1 parts.reverse)
  else return apply (← orNone (Written.real? body))

def boolValue (cs : List Char) : Except Fault Bool :=
  let word := cs.map Written.lower
  if isWordOf ["yes", "true", "on"] word then .ok true
  else if isWordOf ["no", "false", "off"] word then .ok false
  else .error .noTruthValue

/-- The value of a text as a date.  A line feed at its end does not count. -/
def dateValue (cs : List Char) : Except Fault Date :=
  match Date.read? (withoutFeed cs) with
  | none => .error .noDate
  | some d => if d.isValid then .ok d else .error .noSuchValue

/-- The value of a text as bytes. -/
def binaryValue (cs : List Char) : Except Fault (List UInt8) :=
  if cs.all fun c => c.toNat < 0x80 then
    match Base64.decode? cs with
    | some bytes => .ok bytes
    | none => .error .malformed
  else .error .malformed

/-- The value of a text of a type that has no parts. -/
def atomValue (type : NodeType) (t : Text) : Except Fault Atom :=
  let cs := t.toChars
  match type with
  | .null => .ok .null
  | .bool => (boolValue cs).map .bool
  | .integer => (integerValue cs).map .integer
  | .real => realValue cs
  | .binary => (binaryValue cs).map .bytes
  | .date => (dateValue cs).map .date
  | .string => .ok (.string t)
  | _ => .error .malformed

end ManifestTree.Yaml
