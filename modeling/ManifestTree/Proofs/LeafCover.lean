import ManifestTree.Proofs.Assembly
import ManifestTree.Proofs.ParsedTree

/-!
# Leaves cover the tokens

`Token.leafSpans` lists the spans that a token is taken apart into: a string into its quotes and
fragments, a heredoc into its tag, the fragments of its body and its marker, an interpolation into
its opener, its tokens and its closing brace.  Every rule of the grammar keeps them: the leaves of a
node have the spans of the tokens that derive it, each as often as it occurs there.
-/

namespace ManifestTree

open Parse

/-! ## Taking tokens apart -/

mutual

/-- The spans that a token is taken apart into.  An end of input has none. -/
def Token.leafSpans : Token → List Span
  | .mk .string text span d =>
    let p := span.position
    Span.sized p 1 :: d.stringSpans ++ [Span.sized (p.after text.dropLast) 1]
  | .mk .heredoc _ span d => span :: d.bodySpans
  | .mk .endOfInput _ _ _ => []
  | .mk _ _ span _ => [span]

/-- The spans between the quotes of a string. -/
def TokenDetail.stringSpans : TokenDetail → List Span
  | .fragments items => Fragment.leafSpansAll items
  | .plain | .heredoc _ _ => []

/-- The spans within the body of a heredoc. -/
def TokenDetail.bodySpans : TokenDetail → List Span
  | .heredoc _ (some body) => body.leafSpans
  | .heredoc _ none | .plain | .fragments _ => []

/-- The fragments of a body and the marker on its closing line. -/
def HeredocBody.leafSpans : HeredocBody → List Span
  | .mk _ fs _ marker _ _ => Fragment.leafSpansAll fs ++ [marker.span]

/-- The spans that a fragment is taken apart into. -/
def Fragment.leafSpans : Fragment → List Span
  | .mk text span p => p.leafSpans text span

/-- The spans of a piece with its text and span. -/
def Piece.leafSpans (text : Text) (span : Span) : Piece → List Span
  | .interpolation ts =>
    let p := span.position
    Span.sized p 2 :: Token.leafSpansAll ts ++ [Span.sized (p.after text.dropLast) 1]
  | .content | .escape _ | .variable => [span]

/-- The spans that some fragments are taken apart into. -/
def Fragment.leafSpansAll : List Fragment → List Span
  | [] => []
  | f :: fs => f.leafSpans ++ Fragment.leafSpansAll fs

/-- The spans that some tokens are taken apart into. -/
def Token.leafSpansAll : List Token → List Span
  | [] => []
  | t :: ts => t.leafSpans ++ Token.leafSpansAll ts

end

theorem Fragment.leafSpansAll_eq (fs : List Fragment) :
    Fragment.leafSpansAll fs = fs.flatMap Fragment.leafSpans := by
  induction fs with
  | nil => rfl
  | cons f fs ih => rw [Fragment.leafSpansAll, ih, List.flatMap_cons]

theorem Token.leafSpansAll_eq (ts : List Token) :
    Token.leafSpansAll ts = ts.flatMap Token.leafSpans := by
  induction ts with
  | nil => rfl
  | cons t ts ih => rw [Token.leafSpansAll, ih, List.flatMap_cons]

theorem Token.leafSpans_of_single {t : Token} (h : t.kind.isSingle) : t.leafSpans = [t.span] := by
  obtain ⟨kind, text, span, d⟩ := t
  cases kind <;> first | rfl | cases h

theorem Token.leafSpans_string {t : Token} (h : t.kind = .string) :
    t.leafSpans = Span.sized t.position 1 :: t.fragments.flatMap Fragment.leafSpans ++
      [Span.sized (t.position.after t.text.dropLast) 1] := by
  obtain ⟨kind, text, span, d⟩ := t
  cases h
  cases d <;>
    simp [Token.leafSpans, TokenDetail.stringSpans, Fragment.leafSpansAll_eq, Token.fragments,
      Token.detail, Token.text, Token.position, Token.span, Span.position]

theorem Token.leafSpans_heredoc {t : Token} {tag : HeredocTag} {b : HeredocBody}
    (h : t.kind = .heredoc) (hb : t.detail = .heredoc tag (some b)) :
    t.leafSpans = t.span :: b.fragments.flatMap Fragment.leafSpans ++ [b.marker.span] := by
  obtain ⟨kind, text, span, d⟩ := t
  obtain ⟨ticket, fs, trim, marker, bodySpan, resume⟩ := b
  cases h
  cases hb
  simp [Token.leafSpans, TokenDetail.bodySpans, HeredocBody.leafSpans, Fragment.leafSpansAll_eq,
    Token.span, HeredocBody.fragments, HeredocBody.marker]

/-- The spans of some signs, however they are ordered. -/
def Leaf.spread (ls : List Leaf) : Multiset Span := ↑(ls.map Leaf.span)

@[simp] theorem Leaf.spread_nil : Leaf.spread [] = 0 := rfl

@[simp] theorem Leaf.spread_cons (l : Leaf) (ls : List Leaf) :
    Leaf.spread (l :: ls) = {l.span} + Leaf.spread ls := rfl

@[simp] theorem Leaf.spread_append (ls ms : List Leaf) :
    Leaf.spread (ls ++ ms) = Leaf.spread ls + Leaf.spread ms := by
  rw [Leaf.spread, List.map_append, ← Multiset.coe_add]
  rfl

/-- The spans of some tokens taken apart, however they are ordered. -/
def Token.spread (ts : List Token) : Multiset Span := ↑(ts.flatMap Token.leafSpans)

@[simp] theorem Token.spread_nil : Token.spread [] = 0 := rfl

@[simp] theorem Token.spread_append (ts us : List Token) :
    Token.spread (ts ++ us) = Token.spread ts + Token.spread us := by
  rw [Token.spread, List.flatMap_append, ← Multiset.coe_add]
  rfl

theorem Token.spread_cons (t : Token) (ts : List Token) :
    Token.spread (t :: ts) = ↑t.leafSpans + Token.spread ts := rfl

@[simp] theorem Token.spread_single {t : Token} (h : t.kind.isSingle) (ts : List Token) :
    Token.spread (t :: ts) = {t.span} + Token.spread ts := by
  rw [Token.spread_cons, Token.leafSpans_of_single h]
  rfl

theorem Token.spread_flatMap {α : Type} (f : α → List Token) (xs : List α) :
    Token.spread (xs.flatMap f) = (xs.map fun x => Token.spread (f x)).sum := by
  induction xs with
  | nil => rfl
  | cons x xs ih => rw [List.flatMap_cons, Token.spread_append, ih, List.map_cons, List.sum_cons]

/-! ## Leaves of nodes -/

/-- The spans of the leaves below a node, however they are ordered. -/
def Node.leafSpans (n : Node) : Multiset Span := ↑((n.preorder.filter Node.isLeaf).map Node.span)

theorem coe_bracketed {α : Type} (a b : α) (xs : List α) :
    (↑(a :: xs ++ [b]) : Multiset α) = {a} + ↑xs + {b} := by
  rw [List.cons_append, ← Multiset.cons_coe, ← Multiset.coe_add, ← Multiset.singleton_add,
    ← add_assoc]
  rfl

theorem coe_flatMap {α β : Type} (f : α → List β) (xs : List α) :
    (↑(xs.flatMap f) : Multiset β) = (xs.map fun x => (↑(f x) : Multiset β)).sum := by
  induction xs with
  | nil => rfl
  | cons x xs ih => rw [List.flatMap_cons, ← Multiset.coe_add, ih, List.map_cons, List.sum_cons]

namespace Node

theorem leafSpans_signs (ls : List Leaf) :
    ((ls.map Leaf.toNode).filter isLeaf).map span = ls.map Leaf.span := by
  rw [List.filter_eq_self.mpr fun m hm => ?_, List.map_map]
  · rfl
  · obtain ⟨l, -, rfl⟩ := List.mem_map.mp hm
    exact isLeaf_iff.mpr ⟨Kind.noConfusion, rfl, rfl⟩

/-- A node is a leaf, or its leaves are its signs and the leaves below its elements. -/
theorem leafSpans_eq (n : Node) :
    n.leafSpans = ↑((if n.isLeaf then [n] else []).map span) + (Leaf.spread n.tokens +
      (n.shape.elements.map leafSpans).sum) := by
  have hperm := ((preorder_perm n).filter isLeaf).map span
  have hroot : (n :: (n.tokens.map Leaf.toNode ++ n.shape.elements.flatMap preorder)).filter
      isLeaf = (if n.isLeaf then [n] else []) ++
        ((n.tokens.map Leaf.toNode).filter isLeaf ++
          n.shape.elements.flatMap fun e => e.preorder.filter isLeaf) := by
    rw [← List.filter_flatMap, ← List.filter_append, List.filter_cons]
    split <;> rfl
  rw [leafSpans, Multiset.coe_eq_coe.mpr hperm, hroot, List.map_append, List.map_append,
    leafSpans_signs, List.map_flatMap, ← Multiset.coe_add, ← Multiset.coe_add, coe_flatMap]
  rfl

/-- The leaves of a node with signs or elements. -/
theorem leafSpans_mk {s : Span} {ls : List Leaf} {shape : Shape Node}
    (h : ls ≠ [] ∨ shape.elements ≠ []) :
    (Node.mk s ls shape).leafSpans = Leaf.spread ls + (shape.elements.map leafSpans).sum := by
  have hleaf : (Node.mk s ls shape).isLeaf ≠ true := by
    rw [Ne, isLeaf_iff]
    rintro ⟨-, hls, hs⟩
    exact h.elim (· hls) (· hs)
  rw [leafSpans_eq, if_neg hleaf, List.map_nil, Multiset.coe_nil, zero_add]
  rfl

@[simp] theorem leafSpans_cons (s : Span) (l : Leaf) (ls : List Leaf) (shape : Shape Node) :
    (Node.mk s (l :: ls) shape).leafSpans =
      Leaf.spread (l :: ls) + (shape.elements.map leafSpans).sum :=
  leafSpans_mk (.inl (List.cons_ne_nil l ls))

theorem leafSpans_leaf {n : Node} (h : n.isLeaf) : n.leafSpans = {n.span} := by
  obtain ⟨-, htokens, helements⟩ := isLeaf_iff.mp h
  rw [leafSpans_eq, if_pos h, htokens, helements]
  rfl

/-- A node with nothing below it is one leaf, unless it is a comment. -/
theorem leafSpans_plain {s : Span} {shape : Shape Node} (h : shape.elements = [])
    (hk : shape.kind ≠ .comment) : (Node.plain s shape).leafSpans = {s} :=
  leafSpans_leaf (isLeaf_iff.mpr ⟨hk, rfl, h⟩)

end Node

theorem Leaf.leafSpans_toNode (ls : List Leaf) :
    ((ls.map Leaf.toNode).map Node.leafSpans).sum = Leaf.spread ls := by
  induction ls with
  | nil => rfl
  | cons l ls ih =>
    have hl : l.toNode.leafSpans = {l.span} := Node.leafSpans_plain rfl Kind.noConfusion
    rw [List.map_cons, List.map_cons, List.sum_cons, ih, hl, Leaf.spread_cons]

@[simp] theorem Token.leaf_span (t : Token) : t.leaf.span = t.span := rfl

/-! ## Fragments -/

/-- A fragment that makes a node is taken apart into the leaves of the node. -/
theorem Fragment.nodeOf_leafSpans {f : Fragment} {inner : Node} (hf : f.Proper)
    (hi : ∀ ts, f.piece = .interpolation ts → inner.leafSpans = Token.spread ts.dropLast) :
    (f.nodeOf inner).leafSpans = ↑f.leafSpans := by
  obtain ⟨text, span, piece⟩ := f
  cases piece with
  | interpolation ts =>
    obtain ⟨us, hts, -⟩ := hf.ends ts rfl
    have hinner := hi ts rfl
    rw [hts, List.dropLast_concat] at hinner
    have htokens : Token.leafSpansAll ts = us.flatMap Token.leafSpans := by
      rw [hts, Token.leafSpansAll_eq, List.flatMap_append]
      exact List.append_nil _
    have hspread : Token.spread us = ↑(us.flatMap Token.leafSpans) := rfl
    rw [hf.nodeOf_interpolation rfl, Node.leafSpans_cons]
    simp only [Fragment.leafSpans, Piece.leafSpans]
    rw [htokens, coe_bracketed, ← hspread]
    simp [Shape.elements, Shape.fields, Field.elements, hinner, Fragment.span, Fragment.text,
      Fragment.lastPosition, -Multiset.singleton_add]
    abel
  | _ =>
    rw [Node.leafSpans_leaf (Fragment.nodeOf_isLeaf fun ts h => by cases h), nodeOf_span]
    rfl

/-- Fragments that make nodes are taken apart into the leaves of the nodes. -/
theorem leafSpans_fragments {fs : List Fragment} {inner : Fragment → Node}
    (hfs : ∀ f ∈ fs, f.Proper)
    (hi : ∀ f ∈ fs, ∀ ts, f.piece = .interpolation ts →
      (inner f).leafSpans = Token.spread ts.dropLast) :
    ((fs.map fun f => f.nodeOf (inner f)).map Node.leafSpans).sum =
      ↑(fs.flatMap Fragment.leafSpans) := by
  rw [coe_flatMap, List.map_map]
  exact congrArg List.sum (List.map_congr_left fun f hf =>
    Fragment.nodeOf_leafSpans (hfs f hf) (hi f hf))

/-! ## Built nodes -/

namespace Parse

/-- The signs of a node and the leaves below its elements, counted over its parts. -/
theorem Assembled.leafSpans {ts : List Token} {parts : List Segment} {n : Node}
    (h : Assembled ts parts n) :
    n.leafSpans = (parts.map fun p => p.2.leafSpans).sum := by
  have hperm : (parts.map Prod.snd).Perm (n.tokens.map Leaf.toNode ++ n.shape.elements) :=
    Multiset.coe_eq_coe.mp h.below
  have hleaf : n.isLeaf ≠ true := by
    rw [Ne, Node.isLeaf_iff]
    rintro ⟨-, htokens, helements⟩
    rw [htokens, helements] at hperm
    exact h.nonempty (List.map_eq_nil_iff.mp hperm.eq_nil)
  rw [Node.leafSpans_eq, if_neg hleaf, ← Leaf.leafSpans_toNode, ← List.sum_append,
    ← List.map_append, ← (hperm.map Node.leafSpans).sum_eq, List.map_map]
  exact zero_add _

/-- The leaves of a node have the spans of the tokens that it is built from. -/
theorem Built.leafSpans {ts : List Token} {n : Node} (h : Built ts n) :
    n.leafSpans = Token.spread ts := by
  induction h with
  | leaf t n hk hleaf _ hspan =>
    rw [Node.leafSpans_leaf hleaf, Token.spread_single hk, hspan]
    rfl
  | string t inner hk hproper _ ih =>
    have hparts := leafSpans_fragments hproper ih
    rw [Token.stringOf, Node.leafSpans_cons, Token.spread_cons, Token.leafSpans_string hk]
    rw [coe_bracketed, ← hparts]
    simp [Shape.elements, Shape.fields, Field.elements, Token.closingQuote,
      -Multiset.singleton_add]
    abel
  | heredoc t tag b inner hk hb hproper _ ih =>
    have hparts := leafSpans_fragments hproper ih
    have htag : (t.tagOf tag).leafSpans = {t.span} := Node.leafSpans_plain rfl Kind.noConfusion
    rw [Token.heredocOf, Node.plain,
      Node.leafSpans_mk (by simp [Shape.elements, Shape.fields, Field.elements]),
      Token.spread_cons, Token.leafSpans_heredoc hk hb, coe_bracketed, ← hparts]
    simp [Shape.elements, Shape.fields, Field.elements, htag, -Multiset.singleton_add]
    abel
  | assembled parts h _ ih =>
    rw [h.leafSpans, h.tokens, Token.spread_flatMap, List.map_congr_left ih]

end Parse

/-! ## Parsed trees -/

theorem Node.leaves_spans (n : Node) : (↑(n.leaves.map Node.span) : Multiset Span) = n.leafSpans :=
  Multiset.coe_eq_coe.mpr ((sortByStart_perm _ _).map Node.span)

theorem Token.commentNode_leafSpans (t : Token) : t.commentNode.leafSpans = 0 := by
  have hleaf : t.commentNode.isLeaf ≠ true := fun h => (Node.isLeaf_iff.mp h).1 rfl
  rw [Node.leafSpans_eq, if_neg hleaf]
  rfl

/-- The leaves of a parsed tree cover the tokens before the end of input. -/
theorem Node.Parsed.leafSpans {source : Text} {tokens comments : List Token}
    {statements : List Segment} {tree : Node}
    (h : Node.Parsed source tokens comments statements tree) (hne : tokens.dropLast ≠ []) :
    tree.leafSpans = Token.spread tokens.dropLast := by
  have hstatements : statements ≠ [] := by
    rintro rfl
    exact hne h.segments
  have hcomments : ((comments.map Token.commentNode).map Node.leafSpans).sum = 0 := by
    rw [List.map_map]
    exact List.sum_eq_zero (by simp [Token.commentNode_leafSpans])
  have hitems := List.map_congr_left fun s hs => (h.derives s hs).built.leafSpans
  rw [h.tree, Node.plain, Node.leafSpans_mk (by
    simp [Shape.elements, Shape.fields, Field.elements, hstatements]), h.segments,
    Token.spread_flatMap, ← hitems]
  simp [Shape.elements, Shape.fields, Field.elements, Function.comp_def,
    Token.commentNode_leafSpans]

/-- Parsing neither loses nor repeats a token: the leaves of the tree are what the tokens of the
source are taken apart into, in the order in which they start. -/
theorem Node.parse_leaves {source : Text} {tree : Node} (h : Node.parse source = .ok tree) :
    ∃ tokens comments, Token.scan source = .ok (tokens, comments) ∧
      ((∃ t ∈ tokens, t.kind ≠ .endOfInput) →
        (↑(tree.leaves.map Node.span) : Multiset Span) =
          ↑((tokens.filter fun t => t.kind ≠ .endOfInput).flatMap Token.leafSpans)) ∧
      tree.leaves.Pairwise fun a b => a.span.start ≤ b.span.start := by
  obtain ⟨tokens, comments, statements, hp⟩ := Node.parse_parsed h
  obtain ⟨p, hends⟩ := hp.ends
  have hfilter : (tokens.filter fun t => t.kind ≠ .endOfInput) = tokens.dropLast := by
    rw [hends, List.filter_append, List.dropLast_concat, List.filter_eq_self.mpr]
    · exact List.append_nil _
    · exact fun t ht => decide_eq_true (hp.closed t ht).1
  refine ⟨tokens, comments, hp.scan, fun hsome => ?_, sortByStart_pairwise _ _⟩
  obtain ⟨t, ht, hk⟩ := hsome
  have hne : tokens.dropLast ≠ [] := by
    rw [← hfilter]
    exact List.ne_nil_of_mem (List.mem_filter.mpr ⟨ht, decide_eq_true hk⟩)
  rw [Node.leaves_spans, hp.leafSpans hne, hfilter]
  rfl

/-- An assignment of a string with an interpolation has eight leaves. -/
theorem Node.parse_leaves_assignment : ∃ tree,
    Node.parse (Text.ofString "$a = \"b$\x7bc\x7d\"\n") = .ok tree ∧ tree.leaves.length = 8 ∧
    ∃ tokens comments, Token.scan (Text.ofString "$a = \"b$\x7bc\x7d\"\n") =
        .ok (tokens, comments) ∧
      ((∃ t ∈ tokens, t.kind ≠ .endOfInput) →
        (↑(tree.leaves.map Node.span) : Multiset Span) =
          ↑((tokens.filter fun t => t.kind ≠ .endOfInput).flatMap Token.leafSpans)) ∧
      tree.leaves.Pairwise fun a b => a.span.start ≤ b.span.start := by
  have hrun : (Node.parse (Text.ofString "$a = \"b$\x7bc\x7d\"\n")).toOption.map
      (fun tree => tree.leaves.length) = some 8 := by cbv
  obtain ⟨tree, hparse, hlength⟩ := exists_ok_of_map hrun
  exact ⟨tree, hparse, hlength, Node.parse_leaves hparse⟩

end ManifestTree
