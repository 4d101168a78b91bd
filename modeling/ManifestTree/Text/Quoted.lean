import ManifestTree.Text.CodePoint
import ManifestTree.Text.Classes

/-!
# Quoted text

How messages quote a piece of text: between apostrophes, or between double quotes when the text
holds an apostrophe and no double quote.  The backslash and the quote in use are written with a
backslash, line ends and tabs by their letters, and every other code point without a printed form
as a hexadecimal escape of two, four or eight digits.
-/

namespace ManifestTree.Text

/-- The lowercase hexadecimal digit of a number below sixteen. -/
def hexDigit (n : Nat) : Char := ("0123456789abcdef".toList)[n % 16]?.getD '0'

/-- The last `width` hexadecimal digits of a number. -/
def hexDigits : (width : Nat) → Nat → List Char
  | 0, _ => []
  | w + 1, n => hexDigits w (n / 16) ++ [hexDigit n]

def apostrophe : CodePoint := '\x27'

def doubleQuote : CodePoint := '\x22'

/-- The quote that goes around a text. -/
def quoteFor (t : Text) : Char :=
  if t.contains apostrophe && !t.contains doubleQuote then '\x22' else '\x27'

def quotedPoint (quote : Char) (c : CodePoint) : List Char :=
  if c.val = 0x5c then ['\\', '\\']
  else if c = CodePoint.char quote then ['\\', quote]
  else if c.val = 0x0a then ['\\', 'n']
  else if c.val = 0x0d then ['\\', 'r']
  else if c.val = 0x09 then ['\\', 't']
  else if isPrintable c.val then (c.toChar?).toList
  else if c.val < 0x100 then '\\' :: 'x' :: hexDigits 2 c.val
  else if c.val < 0x10000 then '\\' :: 'u' :: hexDigits 4 c.val
  else '\\' :: 'U' :: hexDigits 8 c.val

/-- A text between quotes. -/
def quoted (t : Text) : List Char :=
  quoteFor t :: t.flatMap (quotedPoint (quoteFor t)) ++ [quoteFor t]

def quotedString (t : Text) : String := String.ofList (quoted t)

/-- Characters between quotes, as a string. -/
def quotedChars (cs : List Char) : String := quotedString (ofChars cs)

/-- One byte inside quotes.  A byte stands for an ASCII character or for itself in hexadecimal. -/
def quotedByte (quote : Char) (b : UInt8) : List Char :=
  if b.toNat < 0x7f then quotedPoint quote (CodePoint.char (Char.ofNat b.toNat))
  else '\\' :: 'x' :: hexDigits 2 b.toNat

/-- Bytes between quotes, with the letter `b` in front. -/
def quotedBytes (bytes : List UInt8) : List Char :=
  let quote := quoteFor (ofChars (bytes.map fun b => Char.ofNat b.toNat))
  'b' :: quote :: bytes.flatMap (quotedByte quote) ++ [quote]

end ManifestTree.Text
