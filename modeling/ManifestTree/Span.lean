import ManifestTree.Text.CodePoint

/-!
# Positions and spans

A `Position` is a place in a source text: the number of code points before it, its line and its
column.  Only a line feed ends a line.  A `Span` is a half-open range of offsets with the line and
column where it starts.
-/

namespace ManifestTree

/-- A place in a text: code points before it, line from one, column from one. -/
structure Position where
  /-- How many characters come before. -/
  offset : Nat
  /-- The line, counted from one. -/
  line : Nat
  /-- The column on that line, counted from one. -/
  column : Nat
deriving DecidableEq, Repr, Inhabited

namespace Position

/-- The start of a text. -/
def start : Position := ⟨0, 1, 1⟩

/-- The place just after the code point `c`. -/
def step (p : Position) (c : CodePoint) : Position :=
  if c = '\n' then ⟨p.offset + 1, p.line + 1, 1⟩ else ⟨p.offset + 1, p.line, p.column + 1⟩

/-- The place just after the code points `cs`. -/
def after (p : Position) (cs : Text) : Position := cs.foldl step p

@[simp] theorem after_nil (p : Position) : p.after [] = p := rfl

@[simp] theorem after_cons (p : Position) (c : CodePoint) (cs : Text) :
    p.after (c :: cs) = (p.step c).after cs := rfl

theorem after_append (p : Position) (a b : Text) : p.after (a ++ b) = (p.after a).after b :=
  List.foldl_append

@[simp] theorem step_offset (p : Position) (c : CodePoint) : (p.step c).offset = p.offset + 1 := by
  unfold step; split <;> rfl

@[simp] theorem after_offset (p : Position) (cs : Text) :
    (p.after cs).offset = p.offset + cs.length := by
  induction cs generalizing p with
  | nil => rfl
  | cons c cs ih => simp [ih, Nat.add_assoc, Nat.add_comm 1]

end Position

/-- A half-open range of a text with the line and column of its first character.  The numbers are
integers because a stored tree may hold any. -/
structure Span where
  /-- Offset of the first character. -/
  start : Int
  /-- Offset just past the last character. -/
  stop : Int
  /-- Line of the first character. -/
  line : Int
  /-- Column of the first character. -/
  column : Int
deriving DecidableEq, Repr, Inhabited

namespace Span

/-- From one place to the other. -/
def between (a b : Position) : Span := ⟨a.offset, b.offset, a.line, a.column⟩

/-- The `length` characters from a place on. -/
def sized (p : Position) (length : Nat) : Span := ⟨p.offset, p.offset + length, p.line, p.column⟩

/-- From the start of one span to the end of another. -/
def join (a b : Span) : Span := ⟨a.start, b.stop, a.line, a.column⟩

@[simp] theorem join_start (a b : Span) : (a.join b).start = a.start := rfl

@[simp] theorem join_stop (a b : Span) : (a.join b).stop = b.stop := rfl

/-- The part of a text under a span.  Bounds below zero count from the end of the text. -/
def text (s : Span) (source : Text) : Text :=
  let bound (i : Int) : Nat := if i < 0 then (i + source.length).toNat else i.toNat
  (source.take (bound s.stop)).drop (bound s.start)

end Span

end ManifestTree
