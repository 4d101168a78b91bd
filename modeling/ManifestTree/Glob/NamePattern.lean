import ManifestTree.Path

/-!
# Patterns for names

A pattern for a single name: a star stands for any characters, a question mark for one, brackets
for one of a set, and everything else for itself.  A bracket that is never closed is a character
like any other.
-/

namespace ManifestTree

/-- A set of characters in a pattern. -/
structure CharSet where
  /-- The set is what lies in none of the ranges. -/
  isComplement : Bool
  /-- Ranges by their first and last members. -/
  ranges : List (CodePoint × CodePoint)
deriving DecidableEq, Repr

/-- A part of a pattern for a name. -/
inductive NamePart where
  /-- This character. -/
  | exactly (c : CodePoint)
  /-- Any character. -/
  | anyOne
  /-- Any characters, or none. -/
  | anyRun
  /-- One character of a set. -/
  | oneOf (set : CharSet)
deriving DecidableEq, Repr

namespace CharSet

/-- A character is in a set. -/
def contains (set : CharSet) (c : CodePoint) : Bool :=
  set.isComplement != set.ranges.any fun r => r.1.val ≤ c.val && c.val ≤ r.2.val

/-- The exclamation mark. -/
def mark : CodePoint := '!'

/-- The hyphen. -/
def hyphen : CodePoint := '-'

/-- The ranges that some characters spell.  A hyphen between two characters spells the range from
one to the other, and every other character a range of its own. -/
def spelledRanges : Text → List (CodePoint × CodePoint)
  | [] => []
  | [c] => [(c, c)]
  | [c, d] => [(c, c), (d, d)]
  | low :: c :: high :: rest =>
    if c = hyphen then (low, high) :: spelledRanges rest
    else (low, low) :: spelledRanges (c :: high :: rest)

/-- A range has a member. -/
def isInhabited (r : CodePoint × CodePoint) : Bool := r.1.val ≤ r.2.val

/-- The set that the characters between brackets spell.  An exclamation mark in front spells a
complement, also where only ranges without members stand before it; there a range that starts with
the mark is then its hyphen and its end. -/
def ofText : Text → CharSet
  | [] => ⟨false, []⟩
  | c :: cs =>
    if c = mark then ⟨true, (spelledRanges cs).filter isInhabited⟩
    else
      match (spelledRanges (c :: cs)).filter isInhabited with
      | (low, high) :: ranges =>
        if low ≠ mark then ⟨false, (low, high) :: ranges⟩
        else if high = mark then ⟨true, ranges⟩
        else ⟨true, (hyphen, hyphen) :: (high, high) :: ranges⟩
      | [] => ⟨false, []⟩

/-- How many characters come before the bracket that closes a set.  A bracket cannot close a set
directly after it opens, nor after the exclamation mark in front. -/
def length? (t : Text) : Option Nat :=
  let closing : CodePoint := ']'
  let marks := if t.head? = some mark then 1 else 0
  let front := if (t.drop marks).head? = some closing then marks + 1 else marks
  let inside := ((t.drop front).takeWhile (· ≠ closing)).length
  if front + inside < t.length then some (front + inside) else none

end CharSet

namespace NamePart

def ofText : Text → List NamePart
  | [] => []
  | c :: cs =>
    if c = '*' then .anyRun :: ofText cs
    else if c = '?' then .anyOne :: ofText cs
    else if c = '[' then
      match CharSet.length? cs with
      | some n => .oneOf (CharSet.ofText (cs.take n)) :: ofText (cs.drop (n + 1))
      | none => .exactly c :: ofText cs
    else .exactly c :: ofText cs
termination_by t => t.length

/-- A part other than a star admits a character. -/
def admits : NamePart → CodePoint → Bool
  | .exactly d, c => c = d
  | .anyOne, _ | .anyRun, _ => true
  | .oneOf set, c => set.contains c

/-- A name has the form that some parts describe. -/
def admitsName : List NamePart → FileName → Bool
  | [], n => n.isEmpty
  | .anyRun :: parts, [] => admitsName parts []
  | .anyRun :: parts, c :: cs =>
    admitsName parts (c :: cs) || admitsName (.anyRun :: parts) cs
  | _ :: _, [] => false
  | part :: parts, c :: cs => part.admits c && admitsName parts cs
termination_by parts n => parts.length + n.length

end NamePart

end ManifestTree
