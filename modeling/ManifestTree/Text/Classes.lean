import ManifestTree.Text.CodePoint
import ManifestTree.Text.LetterRanges
import ManifestTree.Text.UnprintableRanges

/-!
# Classes of characters

The Unicode 14 properties that the grammar depends on: words, decimal digits and their values,
digit signs, white space, and what prints as itself.  Each class answers for ASCII at once and
looks other characters up in a table of ranges.
-/

namespace ManifestTree.Text

/-- Membership in a list of closed ranges. -/
def inRanges (ranges : List (Nat × Nat)) (n : Nat) : Bool :=
  ranges.any fun r => r.1 ≤ n && n ≤ r.2

def isAsciiDigit (c : CodePoint) : Bool := '0' ≤ c && c ≤ '9'

/-- An ASCII lowercase letter. -/
def isAsciiLower (c : CodePoint) : Bool := 'a' ≤ c && c ≤ 'z'

/-- An ASCII capital letter. -/
def isAsciiUpper (c : CodePoint) : Bool := 'A' ≤ c && c ≤ 'Z'

/-- A hexadecimal digit, in either case. -/
def isHexDigit (c : CodePoint) : Bool :=
  isAsciiDigit c || ('a' ≤ c && c ≤ 'f') || ('A' ≤ c && c ≤ 'F')

/-- A letter or a character with a numeric value. -/
def isAlphanumeric (c : CodePoint) : Bool :=
  if c.val < 0x80 then isAsciiDigit c || isAsciiLower c || isAsciiUpper c
  else inRanges letterRanges c.val

/-- A character of a word: alphanumeric or the underscore. -/
def isWord (c : CodePoint) : Bool := c = '_' || isAlphanumeric c

/-- The zeros of the decimal digits: every script's ten digits follow its zero in order. -/
def decimalZeros : List Nat := [
  0x30, 0x660, 0x6f0, 0x7c0, 0x966, 0x9e6, 0xa66, 0xae6, 0xb66, 0xbe6, 0xc66, 0xce6, 0xd66,
  0xde6, 0xe50, 0xed0, 0xf20, 0x1040, 0x1090, 0x17e0, 0x1810, 0x1946, 0x19d0, 0x1a80, 0x1a90,
  0x1b50, 0x1bb0, 0x1c40, 0x1c50, 0xa620, 0xa8d0, 0xa900, 0xa9d0, 0xa9f0, 0xaa50, 0xabf0, 0xff10,
  0x104a0, 0x10d30, 0x11066, 0x110f0, 0x11136, 0x111d0, 0x112f0, 0x11450, 0x114d0, 0x11650,
  0x116c0, 0x11730, 0x118e0, 0x11950, 0x11c50, 0x11d50, 0x11da0, 0x16a60, 0x16ac0, 0x16b50,
  0x1d7ce, 0x1d7d8, 0x1d7e2, 0x1d7ec, 0x1d7f6, 0x1e140, 0x1e2f0, 0x1e950, 0x1fbf0]

/-- The value of a decimal digit of any script. -/
def decimalValue? (c : CodePoint) : Option Nat :=
  if c.val < 0x80 then
    if isAsciiDigit c then some (c.val - 0x30) else none
  else
    (decimalZeros.find? fun z => z ≤ c.val && c.val ≤ z + 9).map (c.val - ·)

/-- A decimal digit of any script. -/
def isDecimal (c : CodePoint) : Bool := (decimalValue? c).isSome

/-- Digit signs that are no decimal digits: superscripts, subscripts, circled digits and the
like. -/
def digitSignRanges : List (Nat × Nat) := [
  (0xb2, 0xb3), (0xb9, 0xb9), (0x1369, 0x1371), (0x19da, 0x19da), (0x2070, 0x2070),
  (0x2074, 0x2079), (0x2080, 0x2089), (0x2460, 0x2468), (0x2474, 0x247c), (0x2488, 0x2490),
  (0x24ea, 0x24ea), (0x24f5, 0x24fd), (0x24ff, 0x24ff), (0x2776, 0x277e), (0x2780, 0x2788),
  (0x278a, 0x2792), (0x10a40, 0x10a43), (0x10e60, 0x10e68), (0x11052, 0x1105a),
  (0x1f100, 0x1f10a)]

/-- A digit of any kind, decimal or not. -/
def isDigit (c : CodePoint) : Bool :=
  isDecimal c || inRanges digitSignRanges c.val

/-- White space: separators and the control characters that separate. -/
def isSpace (c : CodePoint) : Bool :=
  inRanges [(0x9, 0xd), (0x1c, 0x20), (0x85, 0x85), (0xa0, 0xa0), (0x1680, 0x1680),
    (0x2000, 0x200a), (0x2028, 0x2029), (0x202f, 0x202f), (0x205f, 0x205f), (0x3000, 0x3000)]
    c.val

/-- Whether a code point is written as itself in quoted text. -/
def isPrintable (n : Nat) : Bool :=
  if n < 0x80 then 0x20 ≤ n && n < 0x7f else !inRanges unprintableRanges n

/-- A blank: a space or a tab. -/
def isBlank (c : CodePoint) : Bool := c = ' ' || c = '\t'

/-- White space around a number.  The control characters that separate records are none. -/
def isNumberSpace (c : Char) : Bool := isSpace c && !(0x1c ≤ c.toNat && c.toNat ≤ 0x1f)

/-- Drops the characters of a class at both ends. -/
def trimIf {α : Type} (member : α → Bool) (cs : List α) : List α :=
  ((cs.dropWhile member).reverse.dropWhile member).reverse

/-- Drops the white space at both ends. -/
def trim (cs : Text) : Text := trimIf isSpace cs

/-- Drops the white space around a number. -/
def trimNumber (cs : List Char) : List Char := trimIf isNumberSpace cs

theorem isSpace_of_isBlank {c : CodePoint} (h : isBlank c) : isSpace c := by
  simp only [isBlank, Bool.or_eq_true, decide_eq_true_eq] at h
  rcases h with rfl | rfl <;> rfl

end ManifestTree.Text
