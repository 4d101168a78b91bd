import ManifestTree.Proofs.Translation

/-!
# Views of tokens

The same characters are scanned to the same tokens wherever they stand, but for the places that the
tokens and the fragments and bodies within them keep.  A `View` says how these places are looked at:
as they are, from the start of a part of the source, or not at all.  Two scans find the same if what
they find is the same under a view of each.
-/

namespace ManifestTree

/-- How the spans of tokens, and the number of a heredoc and the place after it, are looked at. -/
structure View where
  span : Span → Span
  ticket : Nat → Nat
  resume : Position → Position

namespace View

/-- Everything as it is. -/
def plain : View := ⟨id, id, id⟩

/-- As it is in a source for a part that begins at `p`. -/
def within (p : Position) : View := ⟨Span.translate p, id, Position.translate p⟩

end View

mutual

def Token.seen (v : View) : Token → Token
  | .mk kind text span d => .mk kind text (v.span span) (d.seen v)

def TokenDetail.seen (v : View) : TokenDetail → TokenDetail
  | .plain => .plain
  | .fragments items => .fragments (Fragment.seenAll v items)
  | .heredoc tag none => .heredoc tag none
  | .heredoc tag (some body) => .heredoc tag (some (body.seen v))

def HeredocBody.seen (v : View) : HeredocBody → HeredocBody
  | .mk ticket fs trim marker span resume =>
    .mk (v.ticket ticket) (Fragment.seenAll v fs) trim (marker.seen v) (v.span span)
      (v.resume resume)

def Fragment.seen (v : View) : Fragment → Fragment
  | .mk text span piece => .mk text (v.span span) (piece.seen v)

/-- What a fragment is under a view. -/
def Piece.seen (v : View) : Piece → Piece
  | .content => .content
  | .escape value => .escape value
  | .variable => .variable
  | .interpolation ts => .interpolation (Token.seenAll v ts)

def Fragment.seenAll (v : View) : List Fragment → List Fragment
  | [] => []
  | f :: fs => f.seen v :: Fragment.seenAll v fs

def Token.seenAll (v : View) : List Token → List Token
  | [] => []
  | t :: ts => t.seen v :: Token.seenAll v ts

end

theorem Fragment.seenAll_eq_map (v : View) (fs : List Fragment) :
    Fragment.seenAll v fs = fs.map (Fragment.seen v) := by
  induction fs with
  | nil => rfl
  | cons f fs ih => rw [Fragment.seenAll, ih, List.map_cons]

theorem Token.seenAll_eq_map (v : View) (ts : List Token) :
    Token.seenAll v ts = ts.map (Token.seen v) := by
  induction ts with
  | nil => rfl
  | cons t ts ih => rw [Token.seenAll, ih, List.map_cons]

@[simp] theorem Token.seen_kind (v : View) (t : Token) : (t.seen v).kind = t.kind := by
  cases t
  rfl

@[simp] theorem Token.seen_text (v : View) (t : Token) : (t.seen v).text = t.text := by
  cases t
  rfl

@[simp] theorem Token.seen_span (v : View) (t : Token) : (t.seen v).span = v.span t.span := by
  cases t
  rfl

@[simp] theorem Token.seen_detail (v : View) (t : Token) :
    (t.seen v).detail = t.detail.seen v := by
  cases t
  rfl

theorem TokenDetail.seen_fragments (v : View) (fs : List Fragment) :
    TokenDetail.seen v (.fragments fs) = .fragments (fs.map (Fragment.seen v)) := by
  rw [TokenDetail.seen, Fragment.seenAll_eq_map]

theorem Piece.seen_interpolation (v : View) (ts : List Token) :
    Piece.seen v (.interpolation ts) = .interpolation (ts.map (Token.seen v)) := by
  rw [Piece.seen, Token.seenAll_eq_map]

/-! ## Everything as it is -/

mutual

@[simp] theorem Token.seen_plain (t : Token) : t.seen .plain = t := by
  cases t with
  | mk kind text span d =>
    rw [Token.seen, d.seen_plain]
    rfl

theorem TokenDetail.seen_plain (d : TokenDetail) : d.seen .plain = d := by
  match d with
  | .plain => rfl
  | .fragments items => rw [TokenDetail.seen, Fragment.seenAll_plain items]
  | .heredoc tag none => rfl
  | .heredoc tag (some body) => rw [TokenDetail.seen, body.seen_plain]

theorem HeredocBody.seen_plain (b : HeredocBody) : b.seen .plain = b := by
  cases b with
  | mk ticket fs trim marker span resume =>
    rw [HeredocBody.seen, Fragment.seenAll_plain fs, marker.seen_plain]
    rfl

theorem Fragment.seen_plain (f : Fragment) : f.seen .plain = f := by
  cases f with
  | mk text span piece =>
    rw [Fragment.seen, piece.seen_plain]
    rfl

theorem Piece.seen_plain (p : Piece) : p.seen .plain = p := by
  match p with
  | .content => rfl
  | .escape _ => rfl
  | .variable => rfl
  | .interpolation ts => rw [Piece.seen, Token.seenAll_plain ts]

theorem Fragment.seenAll_plain (fs : List Fragment) : Fragment.seenAll .plain fs = fs := by
  match fs with
  | [] => rfl
  | f :: fs => rw [Fragment.seenAll, f.seen_plain, Fragment.seenAll_plain fs]

theorem Token.seenAll_plain (ts : List Token) : Token.seenAll .plain ts = ts := by
  match ts with
  | [] => rfl
  | t :: ts => rw [Token.seenAll, t.seen_plain, Token.seenAll_plain ts]

end

/-! ## From the start of a part -/

mutual

theorem Token.seen_within (p : Position) (t : Token) : t.seen (.within p) = t.translate p := by
  cases t with
  | mk kind text span d =>
    rw [Token.seen, Token.translate, d.seen_within p]
    rfl

theorem TokenDetail.seen_within (p : Position) (d : TokenDetail) :
    d.seen (.within p) = d.translate p := by
  match d with
  | .plain => rfl
  | .fragments items =>
    rw [TokenDetail.seen, TokenDetail.translate, Fragment.seenAll_within p items]
  | .heredoc tag none => rfl
  | .heredoc tag (some body) => rw [TokenDetail.seen, TokenDetail.translate, body.seen_within p]

theorem HeredocBody.seen_within (p : Position) (b : HeredocBody) :
    b.seen (.within p) = b.translate p := by
  cases b with
  | mk ticket fs trim marker span resume =>
    rw [HeredocBody.seen, HeredocBody.translate, Fragment.seenAll_within p fs, marker.seen_within p]
    rfl

theorem Fragment.seen_within (p : Position) (f : Fragment) : f.seen (.within p) = f.translate p := by
  cases f with
  | mk text span piece =>
    rw [Fragment.seen, Fragment.translate, piece.seen_within p]
    rfl

theorem Piece.seen_within (p : Position) (q : Piece) : q.seen (.within p) = q.translate p := by
  match q with
  | .content => rfl
  | .escape _ => rfl
  | .variable => rfl
  | .interpolation ts => rw [Piece.seen, Piece.translate, Token.seenAll_within p ts]

theorem Fragment.seenAll_within (p : Position) (fs : List Fragment) :
    Fragment.seenAll (.within p) fs = Fragment.translateAll p fs := by
  match fs with
  | [] => rfl
  | f :: fs =>
    rw [Fragment.seenAll, Fragment.translateAll, f.seen_within p, Fragment.seenAll_within p fs]

theorem Token.seenAll_within (p : Position) (ts : List Token) :
    Token.seenAll (.within p) ts = Token.translateAll p ts := by
  match ts with
  | [] => rfl
  | t :: ts => rw [Token.seenAll, Token.translateAll, t.seen_within p, Token.seenAll_within p ts]

end

theorem Token.seen_plain_eq_id : Token.seen .plain = id := funext Token.seen_plain

theorem Token.seen_within_eq_translate (p : Position) : Token.seen (.within p) = Token.translate p :=
  funext (Token.seen_within p)

end ManifestTree
