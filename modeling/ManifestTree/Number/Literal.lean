import ManifestTree.Number.Binary64
import ManifestTree.Token.Lexeme

/-!
# Values of number literals

An integer literal is hexadecimal after `0x`, octal after another leading zero, and decimal
otherwise.  Digits may be of any script.
-/

namespace ManifestTree.Literal

open Text

/-- The number written by digits in a base; nothing if one of them is no digit of that base. -/
def inBase? (base : Nat) (digits : Text) : Option Nat :=
  digits.foldlM (fun n c => do
    let v ← decimalValue? c
    if v < base then some (n * base + v) else none) 0

/-- The value of an integer literal.  An octal literal with a digit eight or nine has none. -/
def integer? (text : Text) : Option Nat :=
  match text with
  | '0' :: x :: rest =>
    if x = 'x' || x = 'X' then some (Lexeme.hexNumber rest) else inBase? 8 (x :: rest)
  | _ => inBase? 10 text

/-- The decimal digits at the start of a text, as a number, with how many there are and what
follows them. -/
def digitRun (cs : Text) : Nat × Nat × Text :=
  let digits := cs.takeWhile isDecimal
  ((inBase? 10 digits).getD 0, digits.length, cs.drop digits.length)

/-- The exponent at the start of a text: a letter `e`, perhaps a sign, and digits. -/
def exponent (cs : Text) : Int :=
  match cs with
  | _ :: '-' :: rest => -((digitRun rest).1 : Int)
  | _ :: '+' :: rest => (digitRun rest).1
  | _ :: rest => (digitRun rest).1
  | [] => 0

/-- The value of a decimal literal without a sign. -/
def float (text : Text) : Binary64 :=
  let (whole, _, rest) := digitRun text
  match rest with
  | '.' :: rest =>
    let (fraction, width, rest) := digitRun rest
    Binary64.ofDecimal false (whole * Nat.pow 10 width + fraction) (exponent rest - width)
  | _ => Binary64.ofDecimal false whole (exponent rest)

end ManifestTree.Literal
