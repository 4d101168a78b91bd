import ManifestTree.Text.Classes

/-!
# Shapes of single tokens

How long a name, variable, number, regular expression or escape is at the start of a text.  Each
recogniser answers the number of characters it takes, the most that its shape allows, or nothing.
-/

namespace ManifestTree.Lexeme

open Text

/-- What remains of a scoped name: word characters, and further segments after double colons.  A
segment begins with a character of the class `starts`. -/
def scopedTail (starts : CodePoint → Bool) : Text → Nat
  | ':' :: ':' :: c :: cs => if starts c then scopedTail starts cs + 3 else 0
  | c :: cs => if isWord c then scopedTail starts cs + 1 else 0
  | [] => 0

/-- A scoped name whose first segment begins in the class `first` and the others in `starts`; it
may begin with a double colon. -/
def scopedLength? (first starts : CodePoint → Bool) : Text → Option Nat
  | ':' :: ':' :: c :: cs => if first c then some (scopedTail starts cs + 3) else none
  | c :: cs => if first c then some (scopedTail starts cs + 1) else none
  | [] => none

/-- Letters that begin a later segment of a name. -/
def startsSegment (c : CodePoint) : Bool := isAsciiLower c || isAsciiUpper c || c = '_'

/-- A name or keyword: its first letter is lowercase or an underscore. -/
def nameLength? : Text → Option Nat :=
  scopedLength? (fun c => isAsciiLower c || c = '_') startsSegment

/-- A reference: its first letter is a capital. -/
def referenceLength? : Text → Option Nat := scopedLength? isAsciiUpper startsSegment

/-- A variable: a dollar sign and a scoped name whose segments are any words. -/
def variableLength? : Text → Option Nat
  | '$' :: cs => (scopedLength? isWord isWord cs).map (· + 1)
  | _ => none

inductive NumberForm where
  | hexadecimal | integer | float
deriving DecidableEq, Repr

/-- The digits of a fraction with the point before them, if there are any. -/
def fractionLength : Text → Nat
  | '.' :: cs =>
    let digits := (cs.takeWhile isDecimal).length
    if digits = 0 then 0 else digits + 1
  | _ => 0

def signLength : Text → Nat
  | c :: _ => if c = '+' || c = '-' then 1 else 0
  | [] => 0

/-- The exponent of a number with its letter and sign, if there is one. -/
def exponentLength : Text → Nat
  | c :: cs =>
    if c = 'e' || c = 'E' then
      let sign := signLength cs
      let digits := ((cs.drop sign).takeWhile isDecimal).length
      if digits = 0 then 0 else 1 + sign + digits
    else 0
  | [] => 0

/-- A decimal number: digits, perhaps a fraction, perhaps an exponent. -/
def decimal? (cs : Text) : Option (Nat × NumberForm) :=
  let digits := (cs.takeWhile isDecimal).length
  if digits = 0 then none
  else
    let fraction := fractionLength (cs.drop digits)
    let exponent := exponentLength (cs.drop (digits + fraction))
    some (digits + fraction + exponent,
      if fraction + exponent = 0 then .integer else .float)

/-- A number: hexadecimal digits after `0x`, or else a decimal number. -/
def number? (cs : Text) : Option (Nat × NumberForm) :=
  match cs with
  | '0' :: x :: rest =>
    let digits := (rest.takeWhile isHexDigit).length
    if (x = 'x' || x = 'X') && digits ≠ 0 then some (digits + 2, .hexadecimal) else decimal? cs
  | _ => decimal? cs

/-- A leading zero makes a number octal, where an eight or a nine is no digit. -/
def isIllegalOctal : Text → Bool
  | '0' :: cs => cs.any fun c => c = '8' || c = '9'
  | _ => false

/-- What remains of a regular expression after its first slash.  A backslash takes the character
after it along; a line end is not allowed. -/
def regexTailLength? : Text → Option Nat
  | [] => none
  | '/' :: _ => some 1
  | '\\' :: [] => none
  | '\\' :: c :: cs => if c = '\n' then none else (regexTailLength? cs).map (· + 2)
  | c :: cs => if c = '\n' then none else (regexTailLength? cs).map (· + 1)

/-- A regular expression between slashes. -/
def regexLength? : Text → Option Nat
  | '/' :: cs => (regexTailLength? cs).map (· + 1)
  | _ => none

/-- The value of a hexadecimal digit. -/
def hexValue (c : CodePoint) : Nat :=
  if isAsciiDigit c then c.val - '0'.toNat
  else if 'a' ≤ c && c ≤ 'f' then c.val - 'a'.toNat + 10
  else if 'A' ≤ c && c ≤ 'F' then c.val - 'A'.toNat + 10
  else 0

/-- The number written by some hexadecimal digits. -/
def hexNumber (digits : Text) : Nat := digits.foldl (fun n c => 16 * n + hexValue c) 0

/-- The digits of a Unicode escape after its letter `u`, and how long they are with any braces:
one to six digits between braces, or exactly four. -/
def unicodeDigits? (cs : Text) : Option (Nat × Text) :=
  match cs with
  | '\x7b' :: rest =>
    let digits := rest.takeWhile isHexDigit
    if 0 < digits.length && digits.length ≤ 6 &&
        (rest.drop digits.length).head? = some (.char '\x7d') then
      some (digits.length + 2, digits)
    else none
  | _ =>
    let digits := cs.take 4
    if digits.length = 4 && digits.all isHexDigit then some (4, digits) else none

/-- What an escape letter stands for: a line end, a carriage return, a tab or a space for `n`,
`r`, `t` and `s`; nothing for a line end itself; any other character for itself. -/
def escapeValue (c : CodePoint) : Text :=
  if c = 'n' then ['\n']
  else if c = 'r' then ['\r']
  else if c = 't' then ['\t']
  else if c = 's' then [' ']
  else if c = '\n' then []
  else [c]

/-- An escape at the start of a text: a backslash and one of the allowed characters, with its
length and what it stands for.  After the letter `u` the number of a code point must follow. -/
def escape? (allowed : Text) : Text → Option (Nat × Text)
  | '\\' :: c :: cs =>
    if !allowed.contains c then none
    else if c = 'u' then
      match unicodeDigits? cs with
      | some (length, digits) =>
        (CodePoint.ofNat? (hexNumber digits)).map fun p => (length + 2, [p])
      | none => none
    else some (2, escapeValue c)
  | _ => none

def singleQuoteEscapes : Text := ['\\', '\x27']

def doubleQuoteEscapes : Text := ['\\', 'n', 'r', 't', 's', '$', '\x22', '\x27', 'u']

end ManifestTree.Lexeme
