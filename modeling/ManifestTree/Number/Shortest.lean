import ManifestTree.Number.Binary64

/-!
# Shortest decimals

The decimal with the fewest digits that rounds to a given magnitude, and of those the nearest.
For one digit, two digits and so on, the two decimals around the magnitude on that grid are tried;
seventeen digits always suffice.  `Decimal.layout` writes the digits in one line: with a point, or
with an exponent when the first digit stands too far from the point.
-/

namespace ManifestTree

/-- A positive decimal: a whole number times a power of ten. -/
structure Decimal where
  /-- The digits, read as a whole number. -/
  digits : Nat
  /-- The power of ten. -/
  exponent : Int
deriving DecidableEq, Repr

namespace Decimal

/-- How many decimal digits a number has. -/
def digitCount (n : Nat) : Nat := (Nat.toDigits 10 n).length

/-- The power of ten of the first digit of a positive fraction. -/
def leadingPower (num den : Nat) : Int :=
  let quotient := num / den
  if quotient ≠ 0 then (digitCount quotient : Int) - 1
  else
    -- The inverse, rounded up, has one digit more than there are zeros after the point.
    -(digitCount ((den + num - 1) / num - 1) : Int)

/-- A fraction `num / den` on the grid of multiples of `10 ^ power`: the quotient, and twice the
rest against the unit. -/
def onGrid (num den : Nat) (power : Int) : Nat × Ordering :=
  let n := num * Nat.pow 10 (-power).toNat
  let d := den * Nat.pow 10 power.toNat
  (n / d, compare (2 * (n % d)) d)

/-- A decimal as a floating-point number. -/
def toBinary64 (d : Decimal) : Binary64 := Binary64.ofDecimal false d.digits d.exponent

/-- The decimal of at most `count` digits that reads back as a magnitude, if there is one: the
nearer neighbour on the grid is tried first, and of two equally near ones the even one. -/
def candidate? (index num den count : Nat) (top : Int) : Option Decimal :=
  let power := top - (count - 1 : Nat)
  let (below, half) := onGrid num den power
  let lower : Decimal := ⟨below, power⟩
  let upper : Decimal := ⟨below + 1, power⟩
  let upperFirst := half = .gt || (half = .eq && below % 2 = 1)
  let ordered := if upperFirst then [upper, lower] else [lower, upper]
  ordered.find? fun d => d.digits ≠ 0 && d.toBinary64 = .finite false index

/-- The shortest decimal that reads back as a positive magnitude. -/
def shortest (index : Nat) : Decimal :=
  let (num, den) := Binary64.fraction index
  let top := leadingPower num den
  let counts := (List.range 17).map (· + 1)
  (counts.findSome? fun count => candidate? index num den count top).getD ⟨num / den, 0⟩

/-- A decimal without the zeros at its end. -/
def strip (fuel : Nat) (d : Decimal) : Decimal :=
  match fuel with
  | 0 => d
  | fuel + 1 =>
    if d.digits ≠ 0 && d.digits % 10 = 0 then strip fuel ⟨d.digits / 10, d.exponent + 1⟩ else d

/-- How numbers are laid out. -/
structure Layout where
  /-- The least power of ten of the first digit that is written with a point. -/
  leastPower : Int
  /-- The first power of ten of the first digit that is written with an exponent again. -/
  endPower : Int
  /-- The least number of digits of an exponent. -/
  exponentWidth : Nat
deriving DecidableEq, Repr

/-- The given number of zeros. -/
def zeros (n : Nat) : List Char := List.replicate n '0'

def exponentText (width : Nat) (e : Int) : List Char :=
  let digits := Nat.toDigits 10 e.natAbs
  'e' :: (if e < 0 then '-' else '+') :: zeros (width - digits.length) ++ digits

/-- The text of a positive decimal.  With a point there is a digit on either side of it. -/
def layout (l : Layout) (d : Decimal) : List Char :=
  let d := strip 400 d
  let digits := Nat.toDigits 10 d.digits
  let first : Int := d.exponent + digits.length - 1
  if first < l.leastPower || l.endPower ≤ first then
    digits.take 1 ++ (if digits.length = 1 then [] else '.' :: digits.drop 1)
      ++ exponentText l.exponentWidth first
  else if first < 0 then
    '0' :: '.' :: zeros (-first - 1).toNat ++ digits
  else
    let whole := first.toNat + 1
    if digits.length ≤ whole then digits ++ zeros (whole - digits.length) ++ ['.', '0']
    else digits.take whole ++ '.' :: digits.drop whole

end Decimal

end ManifestTree
