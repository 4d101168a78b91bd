/-!
# Floating-point numbers

Double-precision numbers by their exact values.  A finite number is a sign and a magnitude, and
magnitudes are numbered in increasing order from zero: number `i` below `2 ^ 52` is `i` times
`2 ^ -1074`, and above that the numbers come in runs of `2 ^ 52`, each run with spacing twice that
of the run before.  Rounding a fraction is exact integer arithmetic: the nearest magnitude, and of
two equally near ones the one with the even number.
-/

namespace ManifestTree

/-- A double-precision number. -/
inductive Binary64 where
  /-- The magnitude with a number, made negative or not. -/
  | finite (negative : Bool) (index : Nat)
  | infinite (negative : Bool)
  | nan
deriving DecidableEq, Repr

namespace Binary64

/-- How many magnitudes share a spacing. -/
def runLength : Nat := Nat.pow 2 52

/-- The number that follows the largest magnitude. -/
def indexLimit : Nat := 2047 * runLength

/-- A magnitude as a whole number and the power of two that it is multiplied with. -/
def mantissaExponent (index : Nat) : Nat × Int :=
  if index < runLength then (index, -1074)
  else (runLength + index % runLength, (index / runLength : Nat) - 1075)

/-- A magnitude as a fraction. -/
def fraction (index : Nat) : Nat × Nat :=
  let (m, e) := mantissaExponent index
  (m * Nat.pow 2 e.toNat, Nat.pow 2 (-e).toNat)

/-- A fraction rounded to a whole number, halves to even. -/
def roundDiv (num den : Nat) : Nat :=
  let q := num / den
  let r := num % den
  if 2 * r < den then q
  else if den < 2 * r then q + 1
  else if q % 2 = 0 then q else q + 1

/-- The exponent of the spacing of magnitudes around a positive fraction. -/
def spacingExponent (num den : Nat) : Int :=
  let estimate : Int := (Nat.log2 num : Int) - Nat.log2 den
  -- The fraction lies in [2 ^ k, 2 ^ (k + 1)) for k the estimate or one less.
  let reached : Bool := Nat.pow 2 estimate.toNat * den ≤ num * Nat.pow 2 (-estimate).toNat
  max (-1074) ((if reached then estimate else estimate - 1) - 52)

/-- The magnitude nearest to a fraction. -/
def nearestIndex (num den : Nat) : Nat :=
  if num = 0 then 0
  else
    let e := spacingExponent num den
    let m := roundDiv (num * Nat.pow 2 (-e).toNat) (den * Nat.pow 2 e.toNat)
    (e + 1074).toNat * runLength + m

/-- The number nearest to a fraction; past the largest magnitude it is infinite. -/
def ofFraction (negative : Bool) (num den : Nat) : Binary64 :=
  let index := nearestIndex num den
  if indexLimit ≤ index then .infinite negative else .finite negative index

/-- The number nearest to `digits * 10 ^ exponent`.  Exponents far beyond the range of magnitudes
need no arithmetic. -/
def ofDecimal (negative : Bool) (digits : Nat) (exponent : Int) : Binary64 :=
  if digits = 0 then .finite negative 0
  else
    let top : Int := exponent + Nat.log2 digits / 3 + 1
    if top < -400 then .finite negative 0
    else if 400 < exponent then .infinite negative
    else ofFraction negative (digits * Nat.pow 10 exponent.toNat) (Nat.pow 10 (-exponent).toNat)

/-- The number nearest to an integer. -/
def ofInt (i : Int) : Binary64 := ofFraction (i < 0) i.natAbs 1

/-- The integer that a number is, if it is one. -/
def toInt? : Binary64 → Option Int
  | .finite negative index =>
    let (num, den) := fraction index
    if num % den = 0 then
      some (if negative then -((num / den : Nat) : Int) else (num / den : Nat))
    else none
  | _ => none

def isFinite : Binary64 → Bool
  | .finite _ _ => true
  | _ => false

/-- The signed numerator and the denominator of a number that is finite. -/
def ratio (negative : Bool) (index : Nat) : Int × Nat :=
  let (num, den) := fraction index
  (if negative then -(num : Int) else num, den)

/-- The sum rounded to the nearest number.  Opposite infinities have none, and a sum of zero is
negative only if both numbers are. -/
def add : Binary64 → Binary64 → Binary64
  | .finite s i, .finite t j =>
    let (a, b) := ratio s i
    let (c, d) := ratio t j
    let sum := a * d + c * b
    if sum = 0 then .finite (s && t) 0 else ofFraction (sum < 0) sum.natAbs (b * d)
  | .infinite s, .infinite t => if s = t then .infinite s else .nan
  | .infinite s, .finite _ _ => .infinite s
  | .finite _ _, .infinite t => .infinite t
  | .nan, _ | _, .nan => .nan

/-- The product rounded to the nearest number.  That of zero and an infinite number has none. -/
def mul : Binary64 → Binary64 → Binary64
  | .finite s i, .finite t j =>
    let (a, b) := fraction i
    let (c, d) := fraction j
    ofFraction (s != t) (a * c) (b * d)
  | .infinite s, .infinite t => .infinite (s != t)
  | .infinite s, .finite t j | .finite t j, .infinite s =>
    if j = 0 then .nan else .infinite (s != t)
  | .nan, _ | _, .nan => .nan

/-- The number with the other sign. -/
def negate : Binary64 → Binary64
  | .finite s i => .finite (!s) i
  | .infinite s => .infinite (!s)
  | .nan => .nan

/-- Equality of values: both zeros are equal, and `nan` differs from itself. -/
def valueEq : Binary64 → Binary64 → Bool
  | .finite s i, .finite t j => i = j && (s = t || i = 0)
  | .infinite s, .infinite t => s = t
  | _, _ => false

end Binary64

end ManifestTree
