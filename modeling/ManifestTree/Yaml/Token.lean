import ManifestTree.Yaml.Tag

/-!
# YAML tokens

A YAML text as a list of tokens.  Indentation opens and closes block collections, which become
tokens of their own.  Whether something is a key shows only at the colon after it, so the scan
remembers where a key may have begun, one place for each level of flow collections, and splices the
sign of a key in there.  Tokens are read as they are asked for, and none is given out while it may
still turn out to be a key; so what is wrong further on does not matter to who stops before.
-/

namespace ManifestTree.Yaml

open Text

/-- The signs and scalars of a YAML text. -/
inductive Token where
  | streamEnd
  | directive (d : Directive)
  | documentStart | documentEnd
  | blockSequence | blockMapping | blockEnd
  | flowSequence | flowSequenceEnd | flowMapping | flowMappingEnd
  | blockEntry | flowEntry | key | value
  | alias (name : List Char)
  | anchor (name : List Char)
  | tag (tag : WrittenTag)
  /-- A scalar, and whether it is plain. -/
  | scalar (text : Text) (plain : Bool)
deriving DecidableEq, Repr

/-- A place where a key may have begun. -/
structure PossibleKey where
  /-- How many tokens come before it. -/
  tokens : Nat
  /-- A key must have begun there, since the block collection goes on with one. -/
  required : Bool
  /-- Characters before it. -/
  index : Nat
  /-- Its line. -/
  line : Nat
  /-- Its column. -/
  column : Nat
deriving Repr

/-- Where a scan has got to. -/
structure Scan where
  /-- What is left to read. -/
  spot : Spot
  /-- The tokens so far, the latest first. -/
  tokens : List Token
  /-- The columns of the open block collections, the innermost first. -/
  indents : List Nat
  /-- A key without a question mark may begin here. -/
  keyAllowed : Bool
  /-- The possible key of each open flow collection and of the block context, innermost first. -/
  keys : List (Option PossibleKey)

namespace Scan

/-- The start of a text. -/
def start (cs : List Char) : Scan := ⟨⟨cs, 0, 0, 0⟩, [], [], true, [none]⟩

/-- Inside a flow collection. -/
def inFlow (s : Scan) : Bool := 1 < s.keys.length

/-- The column of the innermost block collection, or less than any column. -/
def indent (s : Scan) : Int := (s.indents.head?.map Int.ofNat).getD (-1)

def push (s : Scan) (t : Token) : Scan := { s with tokens := t :: s.tokens }

/-- Puts a token behind the first `n` tokens. -/
def insertAt (s : Scan) (n : Nat) (t : Token) : Scan :=
  let later := s.tokens.length - n
  { s with tokens := s.tokens.take later ++ t :: s.tokens.drop later }

/-- Reads some characters. -/
def skip (s : Scan) (n : Nat) : Scan := { s with spot := s.spot.skip n }

/-- Closes the block collections that are indented further than a column. -/
def unwind (s : Scan) (column : Int) : Scan :=
  if s.inFlow then s
  else
    let closed := s.indents.takeWhile fun i => decide (column < Int.ofNat i)
    { s with
      indents := s.indents.drop closed.length
      tokens := closed.map (fun _ => .blockEnd) ++ s.tokens }

/-- Opens a block collection at a column that is further in than the others. -/
def openBlock (s : Scan) (n column : Nat) (t : Token) : Scan :=
  if s.indent < column then { s.insertAt n t with indents := column :: s.indents } else s

/-- Possible keys that are too far back are none.  A required one must not be given up. -/
def dropStale (s : Scan) : Except Fault Scan := do
  let keys ← s.keys.mapM fun key => match key with
    | none => .ok none
    | some k =>
      if k.line ≠ s.spot.line || 1024 < s.spot.index - k.index then
        if k.required then .error .malformed else .ok none
      else .ok (some k)
  return { s with keys }

/-- Gives up the possible key of the innermost level. -/
def removeKey (s : Scan) : Except Fault Scan :=
  match s.keys with
  | some k :: keys =>
    if k.required then .error .malformed else .ok { s with keys := none :: keys }
  | _ => .ok s

/-- Remembers that a key may begin here. -/
def saveKey (s : Scan) : Except Fault Scan :=
  let required : Bool := !s.inFlow && s.indent = s.spot.column
  if s.keyAllowed then do
    let s ← s.removeKey
    let key : PossibleKey :=
      ⟨s.tokens.length, required, s.spot.index, s.spot.line, s.spot.column⟩
    return { s with keys := some key :: s.keys.drop 1 }
  else .ok s

def allowKey (s : Scan) (allowed : Bool) : Scan := { s with keyAllowed := allowed }

/-! ## Between tokens -/

/-- Passes spaces, comments and line ends.  After a line end in the block context a key may
begin. -/
def skipGap : (fuel : Nat) → Scan → Scan
  | 0, s => s
  | fuel + 1, s =>
    let s := { s with spot := s.spot.skipWhile (· = ' ') }
    match s.spot.rest with
    | c :: _ =>
      if c = '#' then skipGap fuel { s with spot := s.spot.skipWhile fun c => !isBreak c }
      else if isBreak c then
        skipGap fuel { s with spot := s.spot.next, keyAllowed := s.keyAllowed || !s.inFlow }
      else s
    | [] => s

/-! ## Signs -/

/-- A sign between documents. -/
def documentSign (s : Scan) (t : Token) : Except Fault Scan := do
  let s ← (s.unwind (-1)).removeKey
  return ((s.allowKey false).push t).skip 3

/-- What stands at a spot, and the spot after it; without it the text is malformed. -/
def must {α : Type} : Option α → Except Fault α
  | some a => .ok a
  | none => .error .malformed

/-- A directive, with the rest of its line. -/
def directive (s : Scan) : Except Fault Scan := do
  let s ← (s.unwind (-1)).removeKey
  let (d, spot) ← must (directive? s.spot.next)
  return { (s.allowKey false).push (.directive d) with spot }

def openFlow (s : Scan) (t : Token) : Except Fault Scan := do
  let s ← s.saveKey
  return (({ s with keys := none :: s.keys }.allowKey true).push t).skip 1

/-- The end of a flow collection. -/
def closeFlow (s : Scan) (t : Token) : Except Fault Scan := do
  let s ← s.removeKey
  if !s.inFlow then .error .malformed
  else return (({ s with keys := s.keys.drop 1 }.allowKey false).push t).skip 1

/-- A comma. -/
def flowEntry (s : Scan) : Except Fault Scan := do
  let s ← (s.allowKey true).removeKey
  return (s.push .flowEntry).skip 1

/-- A hyphen in front of an item. -/
def blockEntry (s : Scan) : Except Fault Scan := do
  if !s.inFlow && !s.keyAllowed then .error .malformed
  else
    let s := if s.inFlow then s else s.openBlock s.tokens.length s.spot.column .blockSequence
    let s ← (s.allowKey true).removeKey
    return (s.push .blockEntry).skip 1

/-- A question mark in front of a key. -/
def keySign (s : Scan) : Except Fault Scan := do
  if !s.inFlow && !s.keyAllowed then .error .malformed
  else
    let s := if s.inFlow then s else s.openBlock s.tokens.length s.spot.column .blockMapping
    let s ← (s.allowKey (!s.inFlow)).removeKey
    return (s.push .key).skip 1

/-- A colon in front of a value: after a possible key that is now one, or after a key with a
question mark. -/
def valueSign (s : Scan) : Except Fault Scan :=
  match s.keys with
  | some k :: keys =>
    let s := { s with keys := none :: keys }.insertAt k.tokens .key
    let s := if s.inFlow then s else s.openBlock k.tokens k.column .blockMapping
    .ok (((s.allowKey false).push .value).skip 1)
  | _ => do
    if !s.inFlow && !s.keyAllowed then .error .malformed
    else
      let s := if s.inFlow then s else s.openBlock s.tokens.length s.spot.column .blockMapping
      let s ← (s.allowKey (!s.inFlow)).removeKey
      return (s.push .value).skip 1

/-! ## Properties and scalars -/

/-- An anchor or an alias, by the token that its name makes. -/
def anchor (s : Scan) (t : List Char → Token) : Except Fault Scan := do
  let s ← s.saveKey
  let name := (s.spot.rest.drop 1).takeWhile isNameChar
  let s := (s.allowKey false).skip (name.length + 1)
  let ends (c : Char) : Bool := isWhite c || ['?', ':', ',', ']', '\x7d', '%', '@', '`'].contains c
  if name.isEmpty || !endOr ends s.spot.rest then .error .malformed else return s.push (t name)

def tag (s : Scan) : Except Fault Scan := do
  let s ← s.saveKey
  let (tag, spot) ← must (tag? s.spot)
  return { (s.allowKey false).push (.tag tag) with spot }

def blockScalar (s : Scan) (fold : Bool) : Except Fault Scan := do
  let s ← (s.allowKey true).removeKey
  let (text, spot) ← must (blockText? fold s.indent s.spot)
  return { s with spot }.push (.scalar (Text.ofChars text) false)

def quotedScalar (s : Scan) (double : Bool) : Except Fault Scan := do
  let s ← s.saveKey
  let (text, spot) ← quotedText double s.spot
  return { s.allowKey false with spot }.push (.scalar text false)

/-- A plain scalar.  After one that ended with its line a key may begin. -/
def plainScalar (s : Scan) : Except Fault Scan := do
  let s ← s.saveKey
  let (text, spot, newLine) := plainText s.inFlow (s.indent + 1) (s.spot.rest.length + 1) s.spot
  return { s.allowKey newLine with spot }.push (.scalar (Text.ofChars text) true)

/-- Characters that begin no plain scalar, unless as said below. -/
def isIndicator (c : Char) : Bool :=
  ['-', '?', ':', ',', '[', ']', '\x7b', '\x7d', '#', '&', '*', '!', '|', '>', '\x27', '\x22', '%',
    '@', '`'].contains c

/-- A plain scalar may begin here: a hyphen, and outside flow collections a question mark or a
colon, must not stand alone. -/
def beginsPlain (s : Scan) (c : Char) (rest : List Char) : Bool :=
  !(isWhite c || isIndicator c)
    || (!endOr isWhite rest && (c = '-' || (!s.inFlow && (c = '?' || c = ':'))))

/-- Reads one token that begins with the character `c`. -/
def token (s : Scan) (c : Char) (rest : List Char) : Except Fault Scan :=
  let alone := endOr isWhite rest
  if c = '%' && s.spot.column = 0 then s.directive
  else if c = '-' && s.spot.atMarker then s.documentSign .documentStart
  else if c = '.' && s.spot.atMarker then s.documentSign .documentEnd
  else if c = '[' then s.openFlow .flowSequence
  else if c = '\x7b' then s.openFlow .flowMapping
  else if c = ']' then s.closeFlow .flowSequenceEnd
  else if c = '\x7d' then s.closeFlow .flowMappingEnd
  else if c = ',' then s.flowEntry
  else if c = '-' && alone then s.blockEntry
  else if c = '?' && (s.inFlow || alone) then s.keySign
  else if c = ':' && (s.inFlow || alone) then s.valueSign
  else if c = '*' then s.anchor .alias
  else if c = '&' then s.anchor .anchor
  else if c = '!' then s.tag
  else if c = '|' && !s.inFlow then s.blockScalar false
  else if c = '>' && !s.inFlow then s.blockScalar true
  else if c = '\x27' then s.quotedScalar false
  else if c = '\x22' then s.quotedScalar true
  else if s.beginsPlain c rest then s.plainScalar
  else .error .malformed

def streamEnd (s : Scan) : Except Fault Scan := do
  let s ← (s.unwind (-1)).removeKey
  return s.push .streamEnd

/-- Reads one token, or several at the end of block collections. -/
def step (s : Scan) : Except Fault Scan := do
  let s := s.skipGap (s.spot.rest.length + 1)
  let s ← s.dropStale
  let s := s.unwind s.spot.column
  match s.spot.rest with
  | [] => s.streamEnd
  | c :: rest => s.token c rest

/-- How many tokens are surely no keys that are still to be found out. -/
def settled (s : Scan) : Nat :=
  match s.dropStale with
  | .ok s => s.keys.foldl (fun n key => (key.map fun k => min n k.tokens).getD n) s.tokens.length
  | .error _ => 0

/-- The tokens that can be given out, in order. -/
def given (s : Scan) : List Token := s.tokens.reverse.take s.settled

end Scan

/-- The tokens of a text as far as they can be given out, and why there are no more. -/
structure Supply where
  /-- The tokens in order.  The end of the text is the last one, if it was reached. -/
  tokens : List Token
  /-- Why there are no more tokens after these. -/
  ending : Fault
deriving DecidableEq, Repr

/-- Reads tokens to the end of the text.  Every round reads a character. -/
def Scan.run : (fuel : Nat) → Scan → Supply
  | 0, s => ⟨s.given, .malformed⟩
  | fuel + 1, s =>
    match s.step with
    | .error f => ⟨s.given, f⟩
    | .ok next =>
      if next.tokens.head? = some .streamEnd then ⟨next.tokens.reverse, .malformed⟩
      else Scan.run fuel next

/-- Characters that a YAML text may hold. -/
def isAllowed (c : Char) : Bool :=
  let n := c.toNat
  n = 0x09 || n = 0x0a || n = 0x0d || (0x20 ≤ n && n ≤ 0x7e) || n = 0x85
    || (0xa0 ≤ n && n ≤ 0xd7ff) || (0xe000 ≤ n && n ≤ 0xfffd) || 0x10000 ≤ n

/-- A text with a line feed for each carriage return, alone or with a line feed, and for each
next-line sign. -/
def normalize : List Char → List Char
  | '\r' :: '\n' :: cs => '\n' :: normalize cs
  | c :: cs => (if c = '\r' || c = '\u0085' then '\n' else c) :: normalize cs
  | [] => []

/-- A text without a byte order mark in front. -/
def withoutMark : List Char → List Char
  | c :: cs => if c = '\ufeff' then cs else c :: cs
  | [] => []

def Supply.ofText (cs : List Char) : Supply :=
  if cs.all isAllowed then
    let text := withoutMark (normalize cs)
    (Scan.start text).run (text.length + 1)
  else ⟨[], .malformed⟩

end ManifestTree.Yaml
