import ManifestTree.Proofs.CursorReads
import ManifestTree.Token

/-!
# Parts of a source

A part of a source has places of its own, counted from its start.  `translate` carries places and
spans of the part, and the tokens and fragments found in it, to where they are in the source.  Lines
before the first line feed of the part continue a line of the source, so only there a column
changes.
-/

namespace ManifestTree

/-! ## Places -/

/-- The place in a source of a place in a part of it that begins at `p`. -/
def Position.translate (p q : Position) : Position :=
  ⟨p.offset + q.offset, p.line + q.line - 1,
    if q.line = 1 then p.column + q.column - 1 else q.column⟩

/-- The span in a source of a span of a part of it that begins at `p`. -/
def Span.translate (p : Position) (s : Span) : Span :=
  ⟨p.offset + s.start, p.offset + s.stop, p.line + s.line - 1,
    if s.line = 1 then p.column + s.column - 1 else s.column⟩

@[simp] theorem Span.translate_start (p : Position) (s : Span) :
    (s.translate p).start = p.offset + s.start := rfl

@[simp] theorem Span.translate_stop (p : Position) (s : Span) :
    (s.translate p).stop = p.offset + s.stop := rfl

/-- Lines and columns are counted from one. -/
structure Position.Counted (q : Position) : Prop where
  line : 1 ≤ q.line
  column : 1 ≤ q.column

namespace Position

variable {p q r : Position}

theorem Counted.step (h : q.Counted) (c : CodePoint) : (q.step c).Counted := by
  unfold Position.step
  split
  · exact ⟨Nat.le_add_left _ _, Nat.le_refl _⟩
  · exact ⟨h.line, Nat.le_add_left _ _⟩

theorem Counted.after (h : q.Counted) (cs : Text) : (q.after cs).Counted := by
  induction cs generalizing q with
  | nil => exact h
  | cons c cs ih => exact ih (h.step c)

/-- The next place in the part is the next place in the source. -/
theorem Counted.translate_step (h : q.Counted) (c : CodePoint) :
    p.translate (q.step c) = (p.translate q).step c := by
  have := h.line
  have := h.column
  unfold Position.step
  split
  · have : q.line + 1 ≠ 1 := by omega
    simp only [translate, if_neg this, Position.mk.injEq, and_true]
    omega
  · simp only [translate, Position.mk.injEq, true_and]
    constructor
    · omega
    · split <;> omega

/-- Reading on in the part is reading on in the source. -/
theorem Counted.translate_after (h : q.Counted) (cs : Text) :
    p.translate (q.after cs) = (p.translate q).after cs := by
  induction cs generalizing q with
  | nil => rfl
  | cons c cs ih => rw [after_cons, ih (h.step c), h.translate_step, after_cons]

theorem counted_start : start.Counted := ⟨Nat.le_refl _, Nat.le_refl _⟩

/-- The part begins at its place. -/
@[simp] theorem translate_start (p : Position) : p.translate start = p := by
  simp [translate, start]

/-- A span is translated as its ends are. -/
theorem Counted.translate_between (h : q.Counted) :
    (Span.between q r).translate p = Span.between (p.translate q) (p.translate r) := by
  have := h.line
  have := h.column
  simp only [Span.translate, Span.between, translate, Span.mk.injEq, Int.natCast_add, true_and]
  by_cases hfirst : q.line = 1
  · simp only [hfirst, Int.natCast_one, if_true]
    omega
  · simp only [if_neg hfirst]
    omega

theorem Counted.translate_sized (h : q.Counted) (n : Nat) :
    (Span.sized q n).translate p = Span.sized (p.translate q) n := by
  have heq (r : Position) : Span.sized r n = Span.between r ⟨r.offset + n, 0, 0⟩ := by
    simp [Span.sized, Span.between]
  rw [heq, h.translate_between, heq]
  simp [Span.between, translate, Nat.add_assoc]

end Position

/-! ## Tokens -/

mutual

/-- A token of a part, where it is in the source. -/
def Token.translate (p : Position) : Token → Token
  | .mk kind text span d => .mk kind text (span.translate p) (d.translate p)

/-- What a token of a part carries, where it is in the source. -/
def TokenDetail.translate (p : Position) : TokenDetail → TokenDetail
  | .plain => .plain
  | .fragments items => .fragments (Fragment.translateAll p items)
  | .heredoc tag none => .heredoc tag none
  | .heredoc tag (some body) => .heredoc tag (some (body.translate p))

/-- A heredoc body of a part, where it is in the source. -/
def HeredocBody.translate (p : Position) : HeredocBody → HeredocBody
  | .mk ticket fs trim marker span resume =>
    .mk ticket (Fragment.translateAll p fs) trim (marker.translate p) (span.translate p)
      (p.translate resume)

/-- A fragment of a part, where it is in the source. -/
def Fragment.translate (p : Position) : Fragment → Fragment
  | .mk text span piece => .mk text (span.translate p) (piece.translate p)

/-- What a fragment of a part is, where it is in the source. -/
def Piece.translate (p : Position) : Piece → Piece
  | .content => .content
  | .escape value => .escape value
  | .variable => .variable
  | .interpolation ts => .interpolation (Token.translateAll p ts)

/-- Some fragments of a part, where they are in the source. -/
def Fragment.translateAll (p : Position) : List Fragment → List Fragment
  | [] => []
  | f :: fs => f.translate p :: Fragment.translateAll p fs

/-- Some tokens of a part, where they are in the source. -/
def Token.translateAll (p : Position) : List Token → List Token
  | [] => []
  | t :: ts => t.translate p :: Token.translateAll p ts

end

@[simp] theorem Token.translate_text (p : Position) (t : Token) :
    (t.translate p).text = t.text := by
  cases t
  rfl

@[simp] theorem Token.translate_span (p : Position) (t : Token) :
    (t.translate p).span = t.span.translate p := by
  cases t
  rfl

end ManifestTree
