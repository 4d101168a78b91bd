import ManifestTree.Json
import ManifestTree.Number.Literal

/-!
# Reading JSON

`Json.read` accepts one JSON value with white space around it.  Besides what the format allows,
the words `NaN`, `Infinity` and `-Infinity` are numbers.  A pair of surrogate escapes is one code
point and a lone one stays; of several members with one name the last value counts, in the place
of the first.
-/

namespace ManifestTree.Json

open Text

/-- White space between the parts of a value. -/
def isGap (c : Char) : Bool := c = ' ' || c = '\t' || c = '\n' || c = '\r'

/-- Skips white space. -/
def skipGap (cs : List Char) : List Char := cs.dropWhile isGap

/-- What follows a word that a text must begin with. -/
def expectWord? (word : String) (cs : List Char) : Option (List Char) :=
  if word.toList.isPrefixOf cs then some (cs.drop word.length) else none

/-- The number of a surrogate pair's code point. -/
def pairNumber (high low : Nat) : Nat := 0x10000 + (high - 0xD800) * 0x400 + (low - 0xDC00)

/-- Four hexadecimal digits as a number. -/
def fourHex? (cs : List Char) : Option Nat :=
  let digits := cs.take 4
  if digits.length = 4 && digits.all (isHexDigit ·) then
    some (Lexeme.hexNumber (ofChars digits))
  else none

def letterEscape? : Char → Option Char
  | '\x22' => some '\x22'
  | '\\' => some '\\'
  | '/' => some '/'
  | 'b' => some '\x08'
  | 'f' => some '\x0c'
  | 'n' => some '\n'
  | 'r' => some '\r'
  | 't' => some '\t'
  | _ => none

/-- The low surrogate that is escaped at the start of a text. -/
def lowEscape? : List Char → Option Nat
  | '\\' :: 'u' :: cs => do
    let n ← fourHex? cs
    if 0xDC00 ≤ n && n < 0xE000 then some n else none
  | _ => none

/-- The rest of a string after its opening quote, and what follows its closing quote. -/
def stringRest? : (fuel : Nat) → List Char → Option (Text × List Char)
  | 0, _ => none
  | _, [] => none
  | _, '\x22' :: rest => some ([], rest)
  | fuel + 1, '\\' :: 'u' :: cs => do
    let n ← fourHex? cs
    let rest := cs.drop 4
    let low := if 0xD800 ≤ n && n < 0xDC00 then lowEscape? rest else none
    match low with
    | some m =>
      let p ← CodePoint.ofNat? (pairNumber n m)
      let (t, rest) ← stringRest? fuel (rest.drop 6)
      return (p :: t, rest)
    | none =>
      let p ← CodePoint.ofNat? n
      let (t, rest) ← stringRest? fuel rest
      return (p :: t, rest)
  | fuel + 1, '\\' :: c :: cs => do
    let e ← letterEscape? c
    let (t, rest) ← stringRest? fuel cs
    return (CodePoint.char e :: t, rest)
  | fuel + 1, c :: cs =>
    if c = '\\' || c.toNat < 0x20 then none
    else do
      let (t, rest) ← stringRest? fuel cs
      return (CodePoint.char c :: t, rest)

/-- The ASCII digits at the start of a text. -/
def leadingDigits (cs : List Char) : List Char := cs.takeWhile (isAsciiDigit ·)

/-- The whole part of a number: a zero, or digits that do not begin with one. -/
def wholePart? (cs : List Char) : Option (List Char) :=
  match leadingDigits cs with
  | [] => none
  | '0' :: _ => some ['0']
  | digits => some digits

/-- A number without its sign, and what follows.  It is an integer if it has neither a fraction nor
an exponent. -/
def unsigned? (negative : Bool) (cs : List Char) : Option (Json × List Char) := do
  let whole ← wholePart? cs
  let rest := cs.drop whole.length
  let fraction := match rest with
    | '.' :: more => leadingDigits more
    | _ => []
  let rest := if fraction.isEmpty then rest else rest.drop (fraction.length + 1)
  let exponentDigits (sign : Nat) := leadingDigits (rest.drop (sign + 1))
  let sign := Lexeme.signLength (ofChars (rest.drop 1))
  let marked := rest.head?.any fun c => c = 'e' || c = 'E'
  let hasExponent := marked && !(exponentDigits sign).isEmpty
  let number (digits : List Char) : Nat := (Literal.inBase? 10 (ofChars digits)).getD 0
  if fraction.isEmpty && !hasExponent then
    let n : Int := number whole
    return (.integer (if negative then -n else n), rest)
  else
    let scale : Int := if hasExponent then Literal.exponent (ofChars rest) else 0
    let value := Binary64.ofDecimal negative (number (whole ++ fraction)) (scale - fraction.length)
    let after := if hasExponent then rest.drop (1 + sign + (exponentDigits sign).length) else rest
    return (.real value, after)

/-- A number or one of the words for numbers without digits. -/
def number? (cs : List Char) : Option (Json × List Char) :=
  match cs with
  | '-' :: rest =>
    match expectWord? "Infinity" rest with
    | some after => some (.real (.infinite true), after)
    | none => unsigned? true rest
  | _ => unsigned? false cs

/-- A value that holds no others. -/
def scalar? (cs : List Char) : Option (Json × List Char) :=
  match expectWord? "null" cs with
  | some rest => some (.null, rest)
  | none => match expectWord? "true" cs with
    | some rest => some (.bool true, rest)
    | none => match expectWord? "false" cs with
      | some rest => some (.bool false, rest)
      | none => match expectWord? "NaN" cs with
        | some rest => some (.real .nan, rest)
        | none => match expectWord? "Infinity" cs with
          | some rest => some (.real (.infinite false), rest)
          | none => number? cs

def quotedText? : List Char → Option (Text × List Char)
  | '\x22' :: cs => stringRest? (cs.length + 1) cs
  | _ => none

mutual

/-- The value at the start of a text, and what follows.  Every step reads a character, so twice
as many steps as characters suffice. -/
def value? : (fuel : Nat) → List Char → Option (Json × List Char)
  | 0, _ => none
  | fuel + 1, cs =>
    match cs with
    | '[' :: rest =>
      match skipGap rest with
      | ']' :: after => some (.array [], after)
      | rest => do
        let (items, after) ← items? fuel rest
        return (.array items, after)
    | '\x7b' :: rest =>
      match skipGap rest with
      | '\x7d' :: after => some (.object [], after)
      | rest => do
        let (members, after) ← members? fuel [] rest
        return (.object members, after)
    | '\x22' :: _ => do
      let (t, after) ← quotedText? cs
      return (.string t, after)
    | _ => scalar? cs

/-- The items of an array up to its closing bracket, which is read too. -/
def items? : (fuel : Nat) → List Char → Option (List Json × List Char)
  | 0, _ => none
  | fuel + 1, cs => do
    let (item, rest) ← value? fuel cs
    match skipGap rest with
    | ',' :: rest =>
      let (items, after) ← items? fuel (skipGap rest)
      return (item :: items, after)
    | ']' :: after => return ([item], after)
    | _ => none

/-- The members of an object up to its closing brace, which is read too. -/
def members? : (fuel : Nat) → List (Text × Json) → List Char →
    Option (List (Text × Json) × List Char)
  | 0, _, _ => none
  | fuel + 1, before, cs => do
    let (name, rest) ← quotedText? cs
    match skipGap rest with
    | ':' :: rest =>
      let (value, rest) ← value? fuel (skipGap rest)
      let members := setMember name value before
      match skipGap rest with
      | ',' :: rest => members? fuel members (skipGap rest)
      | '\x7d' :: after => return (members, after)
      | _ => none
    | _ => none

end

/-- Reads a text that is one JSON value. -/
def read (cs : List Char) : Option Json := do
  let (value, rest) ← value? (2 * cs.length + 1) (skipGap cs)
  if (skipGap rest).isEmpty then some value else none

end ManifestTree.Json
