import ManifestTree.Parse.Manifest
import ManifestTree.Proofs.ScanCoverage
import ManifestTree.Proofs.StatementDerivation
import ManifestTree.Proofs.Walk

/-!
# Parsed trees

A parse that answers has scanned its source, and the tokens before the end of input make the
statements of the tree one after the other.  Whatever holds of all derivations thus holds of every
tree that a parse answers.
-/

namespace ManifestTree

open Parse

/-- What a tree is parsed from: the tokens and comments of the source, and the statements with the
tokens of each. -/
structure Node.Parsed (source : Text) (tokens comments : List Token)
    (statements : List Segment) (tree : Node) : Prop where
  scan : Token.scan source = .ok (tokens, comments)
  ends : ∃ p, tokens = tokens.dropLast ++ [Token.endAt p]
  sound : ∀ t ∈ tokens.dropLast, t.Sound
  closed : ∀ t ∈ tokens.dropLast, t.Closed
  segments : tokens.dropLast = statements.flatMap Prod.fst
  derives : ∀ s ∈ statements, Derives .statement s.1 s.2
  tree : tree = Node.plain ⟨0, source.length, 1, 1⟩
    (.manifest (statements.map Prod.snd) (comments.map Token.commentNode))

/-- A parsed tree holds the statements, and then the comments. -/
theorem Node.Parsed.elements {source : Text} {tokens comments : List Token}
    {statements : List Segment} {tree : Node}
    (h : Node.Parsed source tokens comments statements tree) :
    tree.shape.elements = statements.map Prod.snd ++ comments.map Token.commentNode := by
  rw [h.tree]
  exact Shape.elements_manifest _ _

/-- The statements of a parsed tree derive from the tokens of its source. -/
theorem Node.parse_parsed {source : Text} {tree : Node} (h : Node.parse source = .ok tree) :
    ∃ tokens comments statements, Node.Parsed source tokens comments statements tree := by
  obtain ⟨⟨tokens, comments⟩, hscan, h⟩ := bind_eq_ok.mp h
  obtain ⟨nodes, hnodes, h⟩ := bind_eq_ok.mp h
  cases h
  obtain ⟨xs, hl⟩ := Token.scan_laidOut hscan
  obtain ⟨p, htokens, hkinds⟩ := hl.ends
  have hsound : ∀ t ∈ tokens.dropLast, t.Sound := fun t ht =>
    hl.sound t (List.dropLast_subset _ ht)
  have hclosed : ∀ t ∈ tokens.dropLast, t.Closed := fun t ht => (hsound t ht).closed (hkinds t ht)
  rw [htokens] at hnodes
  obtain ⟨items, hsegments, rfl, hderives⟩ := Parse.tokens_derive hclosed hnodes
  exact ⟨tokens, comments, items, hscan, ⟨p, htokens⟩, hsound, hclosed, hsegments, hderives, rfl⟩

end ManifestTree
