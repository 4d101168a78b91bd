import ManifestTree.Text.Classes

/-!
# Base 64

Bytes written in four sextets for every three of them.  `Base64.decode?` passes over characters that
are no digits, stops at the padding that fills up a group, and refuses a group that is left
unfinished.
-/

namespace ManifestTree.Base64

open Text

/-- The value of a digit. -/
def sextet? (c : Char) : Option Nat :=
  if isAsciiUpper c then some (c.toNat - 'A'.toNat)
  else if isAsciiLower c then some (c.toNat - 'a'.toNat + 26)
  else if isAsciiDigit c then some (c.toNat - '0'.toNat + 52)
  else if c = '+' then some 62
  else if c = '/' then some 63
  else none

/-- How far a group of four digits has got. -/
structure Group where
  /-- How many of its digits were read. -/
  digits : Nat
  /-- The bits of the last digit that are in no byte yet. -/
  bits : Nat
  /-- How many padding signs came after the last digit. -/
  padding : Nat
deriving DecidableEq, Repr

/-- The start of a group. -/
def Group.start : Group := ⟨0, 0, 0⟩

/-- Adds a digit to a group, with the byte that it completes. -/
def Group.push (g : Group) (v : Nat) : Option Nat × Group :=
  match g.digits with
  | 0 => (none, ⟨1, v, 0⟩)
  | 1 => (some (g.bits * 4 + v / 16), ⟨2, v % 16, 0⟩)
  | 2 => (some (g.bits * 16 + v / 4), ⟨3, v % 4, 0⟩)
  | _ => (some (g.bits * 64 + v), .start)

/-- Adds a padding sign to a group, which counts once two digits were read. -/
def Group.pad (g : Group) : Group :=
  if 2 ≤ g.digits then { g with padding := g.padding + 1 } else g

/-- The digits and padding signs of a group are complete. -/
def Group.isFilled (g : Group) : Bool := 2 ≤ g.digits && 4 ≤ g.digits + g.padding

/-- The bytes that the rest of a text stands for after a part of a group. -/
def decodeFrom? (g : Group) : List Char → Option (List UInt8)
  | [] => if g.digits = 0 then some [] else none
  | c :: cs =>
    if c = '=' then if g.pad.isFilled then some [] else decodeFrom? g.pad cs
    else match sextet? c with
      | none => decodeFrom? g cs
      | some v =>
        let (byte, g) := g.push v
        (decodeFrom? g cs).map fun bytes => (byte.map Nat.toUInt8).toList ++ bytes

/-- The bytes that a text stands for. -/
def decode? (cs : List Char) : Option (List UInt8) := decodeFrom? .start cs

end ManifestTree.Base64
