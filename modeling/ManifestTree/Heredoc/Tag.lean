import ManifestTree.Problem
import ManifestTree.Token.Lexeme

/-!
# Heredoc tags

The text between `@(` and `)`: a terminator, bare or quoted, then perhaps a colon and a label, then
perhaps a slash and escape flags, with white space around each part.  `HeredocTag.parse` reads it
and `HeredocTag.escapeSet` says which escapes its body knows.
-/

namespace ManifestTree.HeredocTag

open Text

/-- A character of a bare terminator after the first. -/
def isBareChar (c : CodePoint) : Bool := isWord c || c = '.' || c = '-'

def isLabelChar (c : CodePoint) : Bool := isWord c || c = '.' || c = '+' || c = '-'

/-- The escape flags in the order that stands for all of them. -/
def allFlags : Text := ['t', 'r', 'n', 's', 'u', 'L', '$']

/-- A flag that enables an escape. -/
def isFlag (c : CodePoint) : Bool := allFlags.contains c

/-- Text up to the quote that closes it, and what follows.  A quoted terminator has no line
end. -/
def untilQuote? (quote : CodePoint) (cs : Text) : Option (Text × Text) :=
  let inside := cs.takeWhile fun c => c ≠ quote && c ≠ '\n'
  match cs.drop inside.length with
  | c :: rest => if c = quote then some (inside, rest) else none
  | [] => none

/-- The terminator at the start of a tag, how it is quoted, and what follows. -/
def terminator? : Text → Option (Text × Quoting × Text)
  | [] => none
  | c :: cs =>
    if c = doubleQuote then (untilQuote? doubleQuote cs).map fun p => (p.1, .double, p.2)
    else if c = apostrophe then (untilQuote? apostrophe cs).map fun p => (p.1, .single, p.2)
    else if isWord c then
      let more := cs.takeWhile isBareChar
      some (c :: more, .bare, cs.drop more.length)
    else none

/-- The part after the sign `mark`, made of the characters `member`, and what follows; nothing is
taken where the sign is missing. -/
def markedPart (mark : CodePoint) (member : CodePoint → Bool) : Text → Option Text × Text
  | c :: cs =>
    if c = mark then (some (cs.takeWhile member), cs.dropWhile member) else (none, c :: cs)
  | [] => (none, [])

/-- The parts of a tag: terminator, quoting, label and flags.  A label has at least one
character, flags may be empty. -/
def parts? (text : Text) :
    Option (Text × Quoting × Option Text × Option Text) := do
  let (terminator, quoting, rest) ← terminator? (text.dropWhile isSpace)
  let (label, rest) := markedPart ':' isLabelChar (rest.dropWhile isSpace)
  if label = some [] then none
  let (flags, rest) := markedPart '/' isFlag (rest.dropWhile isSpace)
  if rest.all isSpace then some (terminator, quoting, label, flags) else none

/-- Reads the text of a tag.  The terminator must neither be blank nor begin or end with white
space. -/
def parse (text : Text) : Except Problem HeredocTag :=
  if text.all isSpace then .error .emptyTag
  else match parts? text with
    | none => .error (.illegalTag text)
    | some (terminator, quoting, label, escapes) =>
      if terminator.all isSpace || trim terminator ≠ terminator then
        .error (.illegalTerminator terminator)
      else .ok { text, terminator, quoting, label, escapes }

/-- The characters that may follow a backslash in the body.  Flags enable themselves and the
backslash, where `L` stands for a line end; without a slash a double-quoted tag enables the
escapes of double-quoted strings, and any other tag none. -/
def escapeSet (tag : HeredocTag) : Text :=
  match tag.escapes with
  | some flags =>
    '\\' :: (if flags.isEmpty then allFlags else flags).map fun c =>
      if c = .char 'L' then .char '\n' else c
  | none => if tag.quoting = .double then Lexeme.doubleQuoteEscapes else []

/-- Only a double-quoted tag interpolates. -/
def interpolates (tag : HeredocTag) : Bool := tag.quoting = .double

end ManifestTree.HeredocTag
