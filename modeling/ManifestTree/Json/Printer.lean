import ManifestTree.Json
import ManifestTree.Text.Quoted

/-!
# Writing JSON

The text of a JSON value, in printable ASCII.  Compact text has no white space.  Indented text has
one item a line, except that empty arrays and objects stay on theirs.
-/

namespace ManifestTree.Json

/-- A UTF-16 unit as an escape. -/
def unitEscape (n : Nat) : List Char := '\\' :: 'u' :: Text.hexDigits 4 n

/-- A code point inside a string.  Beyond U+FFFF it is written as a surrogate pair. -/
def escapedPoint (c : CodePoint) : List Char :=
  if c.val = 0x22 then ['\\', '\x22']
  else if c.val = 0x5c then ['\\', '\\']
  else if c.val = 0x0a then ['\\', 'n']
  else if c.val = 0x0d then ['\\', 'r']
  else if c.val = 0x09 then ['\\', 't']
  else if c.val = 0x08 then ['\\', 'b']
  else if c.val = 0x0c then ['\\', 'f']
  else if 0x20 ≤ c.val && c.val < 0x7f then [Char.ofNat c.val]
  else if c.val < 0x10000 then unitEscape c.val
  else
    let v := c.val - 0x10000
    unitEscape (0xD800 + v / 0x400) ++ unitEscape (0xDC00 + v % 0x400)

/-- A string between quotes. -/
def stringText (t : Text) : List Char :=
  '\x22' :: t.flatMap escapedPoint ++ ['\x22']

/-- An integer in decimal digits. -/
def integerText (i : Int) : List Char :=
  (if i < 0 then ['-'] else []) ++ Nat.toDigits 10 i.natAbs

/-- Numbers whose first digit stands before 10 ^ 16 and not after 10 ^ -4 are written with a
point; an exponent has at least two digits. -/
def realLayout : Decimal.Layout := ⟨-4, 16, 2⟩

/-- A floating-point number by the fewest digits that read back. -/
def realText : Binary64 → List Char
  | .finite negative index =>
    (if negative then ['-'] else []) ++
      if index = 0 then ['0', '.', '0'] else (Decimal.shortest index).layout realLayout
  | .infinite negative => (if negative then ['-'] else []) ++ "Infinity".toList
  | .nan => "NaN".toList

/-- The text of a value that holds no others. -/
def scalarText : Json → List Char
  | .null => "null".toList
  | .bool b => if b then "true".toList else "false".toList
  | .integer i => integerText i
  | .real r => realText r
  | .string t => stringText t
  | .array _ | .object _ => []

mutual

/-- The text of a value without white space. -/
def compact : Json → List Char
  | .array items => '[' :: compactItems items ++ [']']
  | .object members => '\x7b' :: compactMembers members ++ ['\x7d']
  | j => j.scalarText

/-- Items between commas. -/
def compactItems : List Json → List Char
  | [] => []
  | [j] => j.compact
  | j :: js => j.compact ++ ',' :: compactItems js

/-- Members between commas. -/
def compactMembers : List (Text × Json) → List Char
  | [] => []
  | [(name, j)] => stringText name ++ ':' :: j.compact
  | (name, j) :: ms => stringText name ++ ':' :: j.compact ++ ',' :: compactMembers ms

end

/-- A new line, indented by `level` steps. -/
def lineBreak (step level : Nat) : List Char := '\n' :: List.replicate (step * level) ' '

mutual

/-- The text of a value with one item a line, each level indented by `step` spaces more. -/
def indented (step level : Nat) : Json → List Char
  | .array [] => ['[', ']']
  | .array items =>
    '[' :: indentedItems step (level + 1) items ++ lineBreak step level ++ [']']
  | .object [] => ['\x7b', '\x7d']
  | .object members =>
    '\x7b' :: indentedMembers step (level + 1) members ++ lineBreak step level ++ ['\x7d']
  | j => j.scalarText

/-- Items, each on a line of its own. -/
def indentedItems (step level : Nat) : List Json → List Char
  | [] => []
  | [j] => lineBreak step level ++ j.indented step level
  | j :: js => lineBreak step level ++ j.indented step level ++ ',' :: indentedItems step level js

/-- Members, each on a line of its own. -/
def indentedMembers (step level : Nat) : List (Text × Json) → List Char
  | [] => []
  | [(name, j)] =>
    lineBreak step level ++ stringText name ++ ':' :: ' ' :: j.indented step level
  | (name, j) :: ms =>
    lineBreak step level ++ stringText name ++ ':' :: ' ' :: j.indented step level
      ++ ',' :: indentedMembers step level ms

end

end ManifestTree.Json
