import ManifestTree.Parse.Leaves
import ManifestTree.Proofs.CursorReads

/-!
# Fragments at any depth

An interpolation holds tokens, and a token holds fragments again.  `Token.deepFragments` lists the
fragments within a token down to the innermost ones, so that a statement about every interpolation
is a statement about the members of a list.  A token is *closed* if it is no end of input and every
fragment within it is proper: an interpolation ends with an end of input at its closing brace and
holds no other.
-/

namespace ManifestTree

mutual

def Token.deepFragments : Token → List Fragment
  | .mk _ _ _ d => d.deepFragments

def TokenDetail.deepFragments : TokenDetail → List Fragment
  | .plain => []
  | .fragments items => Fragment.deepAll items
  | .heredoc _ none => []
  | .heredoc _ (some body) => body.deepFragments

def HeredocBody.deepFragments : HeredocBody → List Fragment
  | .mk _ fs _ _ _ _ => Fragment.deepAll fs

/-- A fragment and the fragments within it. -/
def Fragment.deep : Fragment → List Fragment
  | .mk text span p => .mk text span p :: p.deepFragments

def Piece.deepFragments : Piece → List Fragment
  | .interpolation ts => Token.deepAll ts
  | .content | .escape _ | .variable => []

def Fragment.deepAll : List Fragment → List Fragment
  | [] => []
  | f :: fs => f.deep ++ Fragment.deepAll fs

/-- The fragments within some tokens. -/
def Token.deepAll : List Token → List Fragment
  | [] => []
  | t :: ts => t.deepFragments ++ Token.deepAll ts

end

/-! ## Membership -/

theorem Fragment.mem_deepAll {f : Fragment} {fs : List Fragment} :
    f ∈ Fragment.deepAll fs ↔ ∃ g ∈ fs, f ∈ g.deep := by
  induction fs with
  | nil => simp [Fragment.deepAll]
  | cons g fs ih => simp [Fragment.deepAll, ih]

theorem Token.mem_deepAll {f : Fragment} {ts : List Token} :
    f ∈ Token.deepAll ts ↔ ∃ t ∈ ts, f ∈ t.deepFragments := by
  induction ts with
  | nil => simp [Token.deepAll]
  | cons t ts ih => simp [Token.deepAll, ih]

theorem Fragment.mem_deep {f g : Fragment} :
    f ∈ g.deep ↔ f = g ∨ ∃ t ∈ g.tokens, f ∈ t.deepFragments := by
  obtain ⟨text, span, p⟩ := g
  cases p <;>
    simp [Fragment.deep, Piece.deepFragments, Fragment.tokens, Fragment.piece, Token.mem_deepAll]

theorem Fragment.self_mem_deep (f : Fragment) : f ∈ f.deep := Fragment.mem_deep.mpr (.inl rfl)

theorem HeredocBody.mem_deepFragments {f : Fragment} {b : HeredocBody} :
    f ∈ b.deepFragments ↔ ∃ g ∈ b.fragments, f ∈ g.deep := by
  obtain ⟨_, fs, _, _, _, _⟩ := b
  simp [HeredocBody.deepFragments, HeredocBody.fragments, Fragment.mem_deepAll]

/-- A fragment within a token is within one of its own fragments, or within its body. -/
theorem Token.mem_deepFragments {f : Fragment} {t : Token} :
    f ∈ t.deepFragments ↔
      (∃ g ∈ t.fragments, f ∈ g.deep) ∨ ∃ b ∈ t.body?, f ∈ b.deepFragments := by
  obtain ⟨kind, text, span, d⟩ := t
  cases d with
  | plain => simp [Token.deepFragments, TokenDetail.deepFragments, Token.fragments, Token.detail,
      Token.body?]
  | fragments fs => simp [Token.deepFragments, TokenDetail.deepFragments, Token.fragments,
      Token.detail, Token.body?, Fragment.mem_deepAll]
  | heredoc tag body =>
    cases body <;> simp [Token.deepFragments, TokenDetail.deepFragments, Token.fragments,
      Token.detail, Token.body?]

/-- What is within a token of a fragment is within the fragment. -/
theorem Fragment.deepFragments_subset {f : Fragment} {t : Token} (ht : t ∈ f.tokens) :
    t.deepFragments ⊆ f.deep := fun _ hg => Fragment.mem_deep.mpr (.inr ⟨t, ht, hg⟩)

/-- A fragment within a fragment within a token is within the token. -/
theorem Token.deep_subset {f : Fragment} {t : Token} (hf : f ∈ t.fragments) :
    f.deep ⊆ t.deepFragments := fun _ hg => Token.mem_deepFragments.mpr (.inl ⟨f, hf, hg⟩)

theorem Token.mem_body? {t : Token} {tag : HeredocTag} {b : HeredocBody}
    (h : t.detail = .heredoc tag (some b)) : b ∈ t.body? := by
  rw [Token.body?, h]
  rfl

theorem Token.body_deep_subset {f : Fragment} {b : HeredocBody} {t : Token} (hb : b ∈ t.body?)
    (hf : f ∈ b.fragments) : f.deep ⊆ t.deepFragments := fun _ hg =>
  Token.mem_deepFragments.mpr (.inr ⟨b, hb, HeredocBody.mem_deepFragments.mpr ⟨f, hf, hg⟩⟩)

/-! ## Closed tokens -/

def Fragment.lastPosition (f : Fragment) : Position := f.span.position.after f.text.dropLast

/-- The fragment lies where its text does, an interpolation ends with an end of input at its closing
brace and holds no other, and an escape stands for at most one code point. -/
structure Fragment.Proper (f : Fragment) : Prop where
  placed : f.span = Span.between f.span.position (f.span.position.after f.text)
  ends : ∀ ts, f.piece = .interpolation ts →
    ∃ inner, ts = inner ++ [Token.endAt f.lastPosition] ∧ ∀ t ∈ inner, t.kind ≠ .endOfInput
  escape : ∀ v, f.piece = .escape v → v.length ≤ 1

/-- The token is no end of input, and all fragments within it are proper. -/
def Token.Closed (t : Token) : Prop := t.kind ≠ .endOfInput ∧ ∀ f ∈ t.deepFragments, f.Proper

/-- The tokens before the end of input of a closed interpolation are closed. -/
theorem Token.Closed.inner {t : Token} (ht : t.Closed) {f : Fragment} {ts : List Token}
    (hf : f.deep ⊆ t.deepFragments) (hp : f.piece = .interpolation ts) :
    ∃ inner, ts = inner ++ [Token.endAt f.lastPosition] ∧ ∀ u ∈ inner, u.Closed := by
  obtain ⟨inner, rfl, hk⟩ := (ht.2 f (hf f.self_mem_deep)).ends ts hp
  refine ⟨inner, rfl, fun u hu => ⟨hk u hu, fun g hg => ht.2 g (hf ?_)⟩⟩
  have hu' : u ∈ f.tokens := by
    rw [Fragment.tokens, hp]
    exact List.mem_append_left _ hu
  exact Fragment.deepFragments_subset hu' hg

end ManifestTree
