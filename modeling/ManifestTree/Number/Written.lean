import ManifestTree.Number.Binary64
import ManifestTree.Number.Literal

/-!
# Numbers as settings and arguments write them

A number in a text of its own may have white space around it, a sign, and digits of any script.
`Written.whole?` reads a whole number in a base, with the base's own mark in front and single
underscores between digits allowed.  `Written.real?` reads a floating-point number, for which there
are also words.
-/

namespace ManifestTree.Written

open Text

/-- A character with digits of other scripts as ASCII digits, and other white space as a space. -/
def plainChar (c : Char) : Char :=
  if c.toNat < 0x80 then c
  else match decimalValue? c with
    | some d => Char.ofNat ('0'.toNat + d)
    | none => if isSpace c then ' ' else c

/-- A space or an ASCII control character that separates. -/
def isAsciiSpace (c : Char) : Bool := c = ' ' || (0x9 ≤ c.toNat && c.toNat ≤ 0xd)

/-- A text in ASCII as far as it is a number, without the white space around it. -/
def plainForm (cs : List Char) : List Char := trimIf isAsciiSpace (cs.map plainChar)

/-- A sign in front of a number: whether it is negative, and what follows. -/
def splitSign : List Char → Bool × List Char
  | '-' :: cs => (true, cs)
  | '+' :: cs => (false, cs)
  | cs => (false, cs)

/-! ## Whole numbers -/

/-- The value of a digit in a base. -/
def digit? (base : Nat) (c : Char) : Option Nat :=
  if isHexDigit c && Lexeme.hexValue c < base then some (Lexeme.hexValue c) else none

/-- The number that goes on with some digits, with single underscores in front of digits. -/
def digitsFrom? (base : Nat) : Nat → List Char → Option Nat
  | n, [] => some n
  | n, '_' :: c :: cs => (digit? base c).bind fun d => digitsFrom? base (n * base + d) cs
  | n, c :: cs => (digit? base c).bind fun d => digitsFrom? base (n * base + d) cs

/-- The number in a text that starts with a digit. -/
def digits? (base : Nat) : List Char → Option Nat
  | [] => none
  | c :: cs => (digit? base c).bind fun d => digitsFrom? base d cs

/-- The letter that marks a base after a zero. -/
def markOf? (base : Nat) : Option Char :=
  if base = 2 then some 'b' else if base = 8 then some 'o' else if base = 16 then some 'x' else none

/-- A text without the mark of a base, and without an underscore after the mark. -/
def dropMark (base : Nat) : List Char → List Char
  | '0' :: c :: cs =>
    if (markOf? base).any fun m => c = m || c = m.toUpper then
      match cs with
      | '_' :: rest => rest
      | rest => rest
    else '0' :: c :: cs
  | cs => cs

/-- The whole number that a text writes in a base. -/
def whole? (base : Nat) (cs : List Char) : Option Int :=
  let (negative, body) := splitSign (plainForm cs)
  (digits? base (dropMark base body)).map fun n => if negative then -(n : Int) else n

/-! ## Floating-point numbers -/

/-- An ASCII letter in lowercase. -/
def lower (c : Char) : Char := if isAsciiUpper c then Char.ofNat (c.toNat + 32) else c

/-- The words for infinity and for no number. -/
def word? (negative : Bool) (cs : List Char) : Option Binary64 :=
  match String.ofList (cs.map lower) with
  | "inf" | "infinity" => some (.infinite negative)
  | "nan" => some .nan
  | _ => none

/-- Digits with perhaps a point among them or at either end: the number without its point, how
many digits come after that, and what follows. -/
def pointed? (cs : List Char) : Option (Nat × Nat × List Char) :=
  let whole : List Char := cs.takeWhile (isAsciiDigit ·)
  let rest := cs.drop whole.length
  let (fraction, rest) := match rest with
    | '.' :: more => more.span fun c : Char => isAsciiDigit c
    | _ => ([], rest)
  (digits? 10 (whole ++ fraction)).map fun n => (n, fraction.length, rest)

/-- An exponent that makes up the whole of a text, or zero for an empty text. -/
def exponent? : List Char → Option Int
  | [] => some 0
  | c :: cs =>
    if c = 'e' || c = 'E' then
      let (negative, digits) := splitSign cs
      if digits.all (isAsciiDigit ·) then
        (digits? 10 digits).map fun n => if negative then -(n : Int) else n
      else none
    else none

/-- The floating-point number in an ASCII text without white space or underscores. -/
def plainReal? (cs : List Char) : Option Binary64 :=
  let (negative, body) := splitSign cs
  (word? negative body).or do
    let (digits, width, rest) ← pointed? body
    let scale ← exponent? rest
    some (Binary64.ofDecimal negative digits (scale - width))

/-- The floating-point number that a text writes without underscores. -/
def real? (cs : List Char) : Option Binary64 := plainReal? (plainForm cs)

end ManifestTree.Written
