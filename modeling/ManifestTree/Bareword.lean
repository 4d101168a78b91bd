/-!
# Bare words

What a bare lowercase name means depends on where it stands: it names something, or it is a plain
word that stands for itself.
-/

namespace ManifestTree

/-- Where a bare word is read. -/
inductive BarewordPlace where
  | value | methodName | resourceType | resourceTitle | compositionTarget | attributeName | hashKey
deriving DecidableEq, Repr

/-- What a bare word is. -/
inductive BarewordReading where
  /-- The name of something: a call, or an identifier. -/
  | naming
  /-- A word that stands for itself. -/
  | word
deriving DecidableEq, Repr

/-- How a bare word is read in a place.  Method names, resource types and composition targets
always name something, attribute names never do.  Elsewhere a word names something if it holds a
double colon or a parenthesis touches it. -/
def BarewordPlace.reading (place : BarewordPlace) (isScoped callFollows : Bool) : BarewordReading :=
  match place with
  | .methodName | .resourceType | .compositionTarget => .naming
  | .attributeName => .word
  | .value | .resourceTitle | .hashKey => if callFollows || isScoped then .naming else .word

end ManifestTree
