import ManifestTree.Text.Utf8
import ManifestTree.Yaml.ScalarText

/-!
# Tags and directives

How tags are written: a handle and a suffix, or a whole tag between angle brackets.  A directive at
the start of a document says which version of YAML it is in, or what a handle is short for.  Percent
signs in tags stand for the bytes of characters.
-/

namespace ManifestTree.Yaml

open Text

/-- A character of the name of an anchor, a handle or a directive. -/
def isNameChar (c : Char) : Bool :=
  isAsciiDigit c || isAsciiLower c || isAsciiUpper c || c = '-' || c = '_'

/-- A space or a line end, but no tab. -/
def isSpaceOrBreak (c : Char) : Bool := c = ' ' || isBreak c

structure WrittenTag where
  /-- The handle, unless the suffix is the whole tag. -/
  handle : Option (List Char)
  /-- What comes after the handle. -/
  suffix : List Char
deriving DecidableEq, Repr

/-- A directive. -/
inductive Directive where
  /-- The version of YAML, by its first number. -/
  | version (major : Nat)
  /-- A handle and what it is short for. -/
  | handle (name meaning : List Char)
  /-- Any other directive, which says nothing. -/
  | unknown
deriving DecidableEq, Repr

/-! ## Parts of tags -/

/-- A character of a tag. -/
def isTagChar (c : Char) : Bool :=
  isAsciiDigit c || isAsciiLower c || isAsciiUpper c
    || ("-;/?:@&=+$,_.!~*\x27()[]%".toList).contains c

/-- Bytes in hexadecimal, each after a percent sign, and what follows them; nothing if a percent
sign is not followed by two digits. -/
def percentBytes? : List Char → Option (List UInt8 × List Char)
  | '%' :: a :: b :: cs =>
    if isHexDigit a && isHexDigit b then
      (percentBytes? cs).map fun p => ((Lexeme.hexNumber [a, b]).toUInt8 :: p.1, p.2)
    else none
  | '%' :: _ => none
  | cs => some ([], cs)

/-- A run of characters of tags with the bytes that percent signs stand for, and what follows. -/
def tagRun? : (fuel : Nat) → List Char → Option (List Char × List Char)
  | 0, _ => none
  | fuel + 1, cs =>
    let run := cs.takeWhile fun c => isTagChar c && c ≠ '%'
    match cs.drop run.length with
    | '%' :: rest => do
      let (bytes, rest) ← percentBytes? ('%' :: rest)
      let chars ← (Utf8.decode bytes).toOption
      let (more, last) ← tagRun? fuel rest
      return (run ++ chars ++ more, last)
    | rest => some (run, rest)

/-- The spot where the characters left are the given ones. -/
def Spot.downTo (s : Spot) (rest : List Char) : Spot := s.skip (s.rest.length - rest.length)

/-- One or more characters of a tag, and the spot after them. -/
def tagText? (s : Spot) : Option (List Char × Spot) := do
  let (text, rest) ← tagRun? (s.rest.length + 1) s.rest
  if rest.length = s.rest.length then none else return (text, s.downTo rest)

/-- A handle: an exclamation mark alone before a space, or two with a name between them. -/
def handle? (s : Spot) : Option (List Char × Spot) :=
  match s.rest with
  | '!' :: ' ' :: _ => some (['!'], s.next)
  | '!' :: rest =>
    let name := rest.takeWhile isNameChar
    if (rest.drop name.length).head? = some '!' then
      some ('!' :: name ++ ['!'], s.skip (name.length + 2))
    else none
  | _ => none

/-! ## Tags -/

/-- A tag and the spot after it.  With a second exclamation mark before the next space it has a
handle of its own. -/
def looseTag? (s : Spot) : Option (WrittenTag × Spot) :=
  match s.rest with
  | '!' :: '<' :: _ => do
    let (text, s) ← tagText? (s.skip 2)
    if s.rest.head? = some '>' then return (⟨none, text⟩, s.next) else none
  | '!' :: rest =>
    if endOr isWhite rest then some (⟨none, ['!']⟩, s.next)
    else do
      let named := (rest.takeWhile fun c => !isSpaceOrBreak c).contains '!'
      let (handle, s) ← if named then handle? s else some (['!'], s.next)
      let (text, s) ← tagText? s
      return (⟨some handle, text⟩, s)
  | _ => none

/-- A tag that a space or a line end follows, and the spot after it. -/
def tag? (s : Spot) : Option (WrittenTag × Spot) := do
  let (tag, s) ← looseTag? s
  if endOr isSpaceOrBreak s.rest then return (tag, s) else none

/-! ## Directives -/

/-- A number and the spot after it. -/
def versionNumber? (s : Spot) : Option (Nat × Spot) :=
  let digits := s.rest.takeWhile fun c : Char => isAsciiDigit c
  if digits.isEmpty then none
  else (Literal.inBase? 10 (ofChars digits)).map fun n => (n, s.skip digits.length)

/-- The version of YAML that a directive gives. -/
def version? (s : Spot) : Option (Directive × Spot) := do
  let (major, s) ← versionNumber? (s.skipWhile (· = ' '))
  if s.rest.head? ≠ some '.' then none
  else
    let (_, s) ← versionNumber? s.next
    if endOr isSpaceOrBreak s.rest then return (.version major, s) else none

/-- The handle that a directive gives, and what it is short for. -/
def handleMeaning? (s : Spot) : Option (Directive × Spot) := do
  let (name, s) ← handle? (s.skipWhile (· = ' '))
  if s.rest.head? ≠ some ' ' then none
  else
    let (meaning, s) ← tagText? (s.skipWhile (· = ' '))
    if endOr isSpaceOrBreak s.rest then return (.handle name meaning, s) else none

/-- The directive after its percent sign, and the spot at the start of the next line. -/
def directive? (s : Spot) : Option (Directive × Spot) := do
  let name := s.rest.takeWhile isNameChar
  let s := s.skip name.length
  if name.isEmpty || !endOr isSpaceOrBreak s.rest then none
  else
    let (directive, s) ←
      if name = "YAML".toList then version? s
      else if name = "TAG".toList then handleMeaning? s
      else some (.unknown, s.skipWhile fun c => !isBreak c)
    return (directive, ← s.passLine?)

end ManifestTree.Yaml
