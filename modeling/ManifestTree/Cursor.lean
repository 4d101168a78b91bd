import ManifestTree.Span

/-!
# Cursors

A `Cursor` is a place in a text together with the characters from there to the end.  Reading
moves it forward by the characters read, so a cursor that was at its own place in the text still
is: `Cursor.At` says so and `Cursor.At.skip` keeps it.
-/

namespace ManifestTree

/-- A place in a text and what is left to read. -/
structure Cursor where
  /-- The place. -/
  pos : Position
  /-- The characters from the place on. -/
  rest : Text
deriving DecidableEq, Repr, Inhabited

namespace Cursor

/-- The cursor at the start of a text. -/
def ofSource (source : Text) : Cursor := ⟨Position.start, source⟩

/-- Characters before the cursor. -/
def offset (c : Cursor) : Nat := c.pos.offset

/-- Nothing is left to read. -/
def atEnd (c : Cursor) : Bool := c.rest.isEmpty

/-- Moves over the next `n` characters, or over all that are left. -/
def skip (c : Cursor) (n : Nat) : Cursor := ⟨c.pos.after (c.rest.take n), c.rest.drop n⟩

/-- Moves over the longest run of characters in a class. -/
def skipWhile (c : Cursor) (p : CodePoint → Bool) : Cursor := c.skip (c.rest.takeWhile p).length

/-- The characters between a cursor and a later one. -/
def upTo (c d : Cursor) : Text := c.rest.take (d.offset - c.offset)

def spanTo (c d : Cursor) : Span := Span.between c.pos d.pos

/-- The span of the next `length` characters, whether or not there are as many. -/
def here (c : Cursor) (length : Nat) : Span := Span.sized c.pos length

/-- The cursor stands at its own place in the source. -/
def At (source : Text) (c : Cursor) : Prop :=
  ∃ before, source = before ++ c.rest ∧ c.pos = Position.start.after before

theorem At.ofSource (source : Text) : At source (Cursor.ofSource source) :=
  ⟨[], rfl, rfl⟩

theorem At.skip {source : Text} {c : Cursor} (h : At source c) (n : Nat) :
    At source (c.skip n) := by
  obtain ⟨before, hs, hp⟩ := h
  refine ⟨before ++ c.rest.take n, ?_, ?_⟩
  · simp [Cursor.skip, hs, List.append_assoc]
  · simp [Cursor.skip, hp, Position.after_append]

@[simp] theorem skip_zero (c : Cursor) : c.skip 0 = c := by
  simp [skip]

theorem skip_skip (c : Cursor) (m n : Nat) : (c.skip m).skip n = c.skip (m + n) := by
  simp [skip, ← Position.after_append, List.take_add, List.drop_drop]

end Cursor

end ManifestTree
