import ManifestTree.Cursor
import ManifestTree.Problem
import ManifestTree.Token.Lexeme

/-!
# Fragments of strings and heredoc bodies

The text between quotes, and each line of a heredoc body, is a sequence of plain characters,
escapes, variables and interpolations.  A backslash that begins no known escape and a dollar sign
that begins neither a variable nor an interpolation are plain characters.  How the inside of an
interpolation is scanned is a parameter.
-/

namespace ManifestTree

/-- Scans the inside of an interpolation: given the span of its opener and the cursor after it,
answers the tokens before the closing brace, with an end of input there, and the cursor at the
brace. -/
abbrev NestedScan := Span → Cursor → Except Failure (List Token × Cursor)

namespace Fragments

/-- Where fragments end: before a closing quote, which must come, or at an offset or the end of
the source. -/
inductive Stop where
  | quote (c : CodePoint) (opener : Span)
  | offset (n : Nat)
deriving DecidableEq, Repr

/-- How the characters of a region are read. -/
structure Reading where
  /-- The characters that a backslash makes an escape with. -/
  escapes : Text
  /-- Variables and interpolations are recognised. -/
  interpolate : Bool
  /-- Where the region ends. -/
  stop : Stop

/-- What stands at a cursor. -/
inductive Next where
  /-- The region ends here. -/
  | done
  /-- The source ends before the region does. -/
  | unterminated (opener : Span)
  /-- An escape of some length, with its value. -/
  | escape (length : Nat) (value : Text)
  /-- A variable of some length. -/
  | variable (length : Nat)
  /-- The opener of an interpolation. -/
  | interpolation
  /-- A plain character. -/
  | plain

/-- Whether the region ends at a cursor, as far as it says so itself. -/
def Stop.holds (stop : Stop) (c : Cursor) : Bool :=
  match stop with
  | .quote q _ => c.rest.head? = some q
  | .offset n => n ≤ c.offset

/-- The fragment that begins with the given characters, if it is not plain. -/
def Reading.special (r : Reading) (cs : Text) : Next :=
  match Lexeme.escape? r.escapes cs with
  | some (length, value) => .escape length value
  | none =>
    if r.interpolate then
      if (['$', '\x7b'] : Text).isPrefixOf cs then .interpolation
      else match Lexeme.variableLength? cs with
        | some length => .variable length
        | none => .plain
    else .plain

/-- What stands at a cursor inside a region. -/
def Reading.next (r : Reading) (c : Cursor) : Next :=
  if r.stop.holds c then .done
  else if c.atEnd then
    match r.stop with
    | .quote _ opener => .unterminated opener
    | .offset _ => .done
  else r.special c.rest

/-- The plain characters between two cursors, if there are any. -/
def content (a b : Cursor) : List Fragment :=
  if b.offset ≤ a.offset then [] else [.mk (a.upTo b) (a.spanTo b) .content]

/-- Reads the interpolation whose opener stands at a cursor. -/
def interpolation (nested : NestedScan) (c : Cursor) : Except Failure (Fragment × Cursor) := do
  let (tokens, brace) ← nested (c.here 2) (c.skip 2)
  let after := brace.skip 1
  return (.mk (c.upTo after) (c.spanTo after) (.interpolation tokens), after)

/-- Reads fragments from the cursor `c` on, where the plain characters since the cursor `run` are
not yet part of a fragment.  Each step moves on, so as many steps as characters suffice. -/
def scanFrom (nested : NestedScan) (r : Reading) :
    (fuel : Nat) → (run c : Cursor) → Except Failure (List Fragment × Cursor)
  | 0, _, _ => .error .exhausted
  | fuel + 1, run, c =>
    let resume (f : Fragment) (after : Cursor) : Except Failure (List Fragment × Cursor) := do
      let (more, last) ← scanFrom nested r fuel after after
      return (content run c ++ f :: more, last)
    match r.next c with
    | .done => .ok (content run c, c)
    | .unterminated opener => reject .unterminatedString opener
    | .escape length value =>
      let after := c.skip length
      resume (.mk (c.upTo after) (c.spanTo after) (.escape value)) after
    | .variable length =>
      let after := c.skip length
      resume (.mk (c.upTo after) (c.spanTo after) .variable) after
    | .interpolation => do
      let (f, after) ← interpolation nested c
      resume f after
    | .plain => scanFrom nested r fuel run (c.skip 1)

/-- The fragments of the region at a cursor, and the cursor where the region ends. -/
def scan (nested : NestedScan) (r : Reading) (c : Cursor) :
    Except Failure (List Fragment × Cursor) :=
  scanFrom nested r (c.rest.length + 1) c c

end Fragments

end ManifestTree
