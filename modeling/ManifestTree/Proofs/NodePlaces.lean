import ManifestTree.Proofs.Assembly
import ManifestTree.Proofs.LocatedTokens
import ManifestTree.Proofs.ParsedTree

/-!
# Where nodes stand

`Node.Placed` says of one node what its span and those of its children have to do with each other:
no child but a comment starts before the one in front of it has ended, and the node reaches from the
first to the last child that is no heredoc body.  A node is well placed when this holds of
everything below it.  Nodes that are built from a row of located tokens are well placed, and reach
over just these tokens.
-/

namespace ManifestTree

open Parse

variable {source : Text}

/-! ## Placed nodes -/

namespace Node

/-- The children of a node that stand within its span. -/
def inlineChildren (n : Node) : List Node := n.children.filter fun c => c.kind ≠ .heredocBody

/-- The span of the node is right about the source and fits the spans of its children.  The parts of
a heredoc body are not asked to fit, and a manifest is as long as the source. -/
structure Placed (source : Text) (n : Node) : Prop where
  correct : n.span.Correct source
  nonempty : n.kind ≠ .manifest → n.span.start < n.span.stop
  apart : n.kind ≠ .heredocBody → (n.children.filter fun c => c.kind ≠ .comment).Pairwise
    fun a b => a.span.stop ≤ b.span.start
  edges : n.kind.isInline → n.isLeaf ∨ Span.Row source (n.inlineChildren.map span) ∧
    Span.hull (n.inlineChildren.map span) = some n.span ∧ ∀ c ∈ n.inlineChildren, c.kind.isInline

/-- All nodes of the subtree are placed. -/
def WellPlaced (source : Text) (n : Node) : Prop := ∀ m ∈ n.preorder, m.Placed source

theorem WellPlaced.mk {n : Node} (hn : n.Placed source)
    (h : ∀ m ∈ n.tokens.map Leaf.toNode ++ n.shape.elements, m.WellPlaced source) :
    n.WellPlaced source := by
  intro m hm
  rcases mem_preorder.mp hm with rfl | ⟨l, hl, rfl⟩ | ⟨e, he, hm⟩
  · exact hn
  · exact h l.toNode (List.mem_append_left _ (List.mem_map_of_mem hl)) _ (mem_preorder_self _)
  · exact h e (List.mem_append_right _ he) m hm

theorem WellPlaced.placed {n : Node} (h : n.WellPlaced source) : n.Placed source :=
  h n (mem_preorder_self n)

theorem children_of_isLeaf {n : Node} (h : n.isLeaf) : n.children = [] := by
  unfold isLeaf at h
  obtain ⟨-, hchildren⟩ := Bool.and_eq_true_iff.mp h
  exact List.isEmpty_iff.mp hchildren

/-- A leaf under a correct span that is not empty. -/
theorem wellPlaced_leaf {n : Node} (hleaf : n.isLeaf) (hs : n.span.Correct source)
    (hlt : n.span.start < n.span.stop) : n.WellPlaced source := by
  have hchildren := children_of_isLeaf hleaf
  obtain ⟨-, htokens, helements⟩ := isLeaf_iff.mp hleaf
  refine .mk ⟨hs, fun _ => hlt, fun _ => ?_, fun _ => .inl hleaf⟩ ?_
  · rw [hchildren]
    exact .nil
  · rw [htokens, helements]
    exact List.forall_mem_nil _

theorem wellPlaced_sign {l : Leaf} (hs : l.span.Correct source) (hlt : l.span.start < l.span.stop) :
    l.toNode.WellPlaced source :=
  wellPlaced_leaf (isLeaf_iff.mpr ⟨Kind.noConfusion, rfl, rfl⟩) hs hlt

theorem children_eq {n : Node} {ns : List Node}
    (hperm : (n.tokens.map Leaf.toNode ++ n.shape.elements).Perm ns)
    (hrow : Span.Row source (ns.map span)) : n.children = ns :=
  sortByStart_eq hperm hrow.starts

/-- A node that reaches over the row of its parts. -/
theorem wellPlaced_row {n : Node} {ns : List Node}
    (hperm : (n.tokens.map Leaf.toNode ++ n.shape.elements).Perm ns)
    (hrow : Span.Row source (ns.map span)) (hhull : Span.hull (ns.map span) = some n.span)
    (hns : ∀ m ∈ ns, m.kind.isInline ∧ m.WellPlaced source) : n.WellPlaced source := by
  have hchildren := children_eq hperm hrow
  obtain ⟨hcorrect, hlt, -⟩ := hrow.of_hull hhull
  have hinner : n.inlineChildren = ns := by
    rw [inlineChildren, hchildren]
    exact List.filter_eq_self.mpr fun m hm => decide_eq_true (Kind.isInline_iff.mp (hns m hm).1).2.1
  refine .mk ⟨hcorrect, fun _ => hlt, fun _ => ?_, fun _ => .inr ?_⟩ fun m hm =>
    (hns m (hperm.mem_iff.mp hm)).2
  · rw [hchildren]
    exact (List.pairwise_map.mp hrow.ordered).filter _
  · rw [hinner]
    exact ⟨hrow, hhull, fun m hm => (hns m hm).1⟩

/-- A node whose signs stand before and after a row of elements. -/
theorem wellPlaced_bracketed {s : Span} {a b : Leaf} {shape : Shape Node}
    (hrow : Span.Row source (a.span :: shape.elements.map span ++ [b.span]))
    (hhull : Span.hull (a.span :: shape.elements.map span ++ [b.span]) = some s)
    (hns : ∀ m ∈ shape.elements, m.kind.isInline ∧ m.WellPlaced source) :
    (Node.mk s [a, b] shape).WellPlaced source := by
  have hspans : (a.toNode :: shape.elements ++ [b.toNode]).map span =
      a.span :: shape.elements.map span ++ [b.span] := by
    rw [List.map_append]
    rfl
  have hsign : ∀ l : Leaf, l.span ∈ a.span :: shape.elements.map span ++ [b.span] →
      l.toNode.kind.isInline ∧ l.toNode.WellPlaced source := fun l hl =>
    ⟨rfl, wellPlaced_sign (hrow.correct _ hl) (hrow.nonempty _ hl)⟩
  rw [← hspans] at hrow hhull
  refine wellPlaced_row (List.perm_append_comm.cons _) hrow hhull ?_
  refine List.forall_mem_append.mpr ⟨List.forall_mem_cons.mpr ⟨?_, hns⟩, ?_⟩
  · exact hsign a (List.mem_append_left _ List.mem_cons_self)
  · exact List.forall_mem_singleton.mpr (hsign b (List.mem_append_right _ List.mem_cons_self))

end Node

theorem Span.hull_within {ss : List Span} {s : Span} {a b : Int} (hs : hull ss = some s)
    (h : ∀ x ∈ ss, a ≤ x.start ∧ x.stop ≤ b) : a ≤ s.start ∧ s.stop ≤ b := by
  obtain ⟨x, y, hhead, hlast, rfl⟩ := hull_eq_some.mp hs
  exact ⟨(h x (List.mem_of_mem_head? hhead)).1, (h y (List.mem_of_getLast? hlast)).2⟩

/-! ## Fragments -/

theorem Fragment.nodeOf_isInline (f : Fragment) (inner : Node) :
    (f.nodeOf inner).kind.isInline := by
  obtain ⟨text, span, piece⟩ := f
  cases piece with
  | «variable» =>
    show (Node.plain span (.ofName .variable (text.drop 1))).kind.isInline
    rw [Node.kind_ofName]
    rfl
  | _ => rfl

/-- If the tokens are in a row, the node reaches over them and is well placed. -/
def Node.Fills (source : Text) (ts : List Token) (n : Node) : Prop :=
  Token.Row source ts → Span.hull (ts.map Token.span) = some n.span ∧ n.kind.isInline ∧
    n.WellPlaced source

theorem Fragment.Located.wellPlaced {f : Fragment} {inner : Node} (hf : f.Located source)
    (hi : ∀ ts, f.piece = .interpolation ts → inner.Fills source ts.dropLast) :
    (f.nodeOf inner).WellPlaced source := by
  cases hp : f.piece with
  | interpolation ts =>
    obtain ⟨inside, us, htext, hts, hrow, hend, hwithin⟩ := hf.interpolation hp
    have hfill := hi ts hp
    rw [hts, List.dropLast_concat] at hfill
    obtain ⟨hhull, hkind, hinner⟩ := hfill hrow
    have hcovers := hf.covers
    rw [htext] at hcovers
    obtain ⟨hcorrect, hlt, -⟩ := hrow.spans.of_hull hhull
    have hbounds := Span.hull_within hhull (List.forall_mem_map.mpr hwithin)
    obtain ⟨hsigns, hwhole⟩ := hcovers.bracketed (List.cons_ne_nil _ _) (List.cons_ne_nil _ _)
      (.singleton hcorrect hlt) (List.forall_mem_singleton.mpr hbounds)
    have hlast : f.lastPosition = f.span.position.after ([.char '$', .char '\x7b'] ++ inside) := by
      rw [Fragment.lastPosition, htext, List.dropLast_concat]
    rw [(hf.sound f f.self_mem_deep).proper.nodeOf_interpolation hp, hlast]
    exact Node.wellPlaced_bracketed hsigns hwhole
      (List.forall_mem_singleton.mpr ⟨hkind, hinner⟩)
  | _ =>
    have hleaf : (f.nodeOf inner).isLeaf := Fragment.nodeOf_isLeaf (by simp [hp])
    refine Node.wellPlaced_leaf hleaf ?_ ?_
    · rw [nodeOf_span]
      exact hf.covers.correct
    · rw [nodeOf_span]
      exact hf.covers.nonempty (hf.sound f f.self_mem_deep).nonempty

/-! ## Strings -/

theorem Token.Located.fragment_row {t : Token} (h : t.Located source) (hk : t.kind = .string) :
    ∃ quote inside, t.text = [quote] ++ inside ++ [quote] ∧
      Span.Row source (t.fragments.map Fragment.span) ∧
      ∀ s ∈ t.fragments.map Fragment.span, t.span.start + 1 ≤ s.start ∧
        s.stop ≤ t.span.start + 1 + inside.length := by
  obtain ⟨quote, inside, htext, htiles, -⟩ := h.sound.quoted hk
  obtain ⟨hbounds, hordered⟩ := htiles.bounds
  have hoffset : ((t.span.position.step quote).offset : Int) = t.span.start + 1 := by
    rw [Position.step_offset, h.covers.start_eq]
    rfl
  rw [hoffset] at hbounds
  refine ⟨quote, inside, htext, ⟨?_, ?_, List.pairwise_map.mpr hordered⟩, ?_⟩
  · exact List.forall_mem_map.mpr fun f hf => (h.fragments f hf).covers.correct
  · exact List.forall_mem_map.mpr fun f hf => (hbounds f hf).2.1
  · exact List.forall_mem_map.mpr fun f hf => ⟨(hbounds f hf).1, (hbounds f hf).2.2⟩

theorem Fragment.Located.nodes {fs : List Fragment} {inner : Fragment → Node}
    (hfs : ∀ f ∈ fs, f.Located source)
    (hi : ∀ f ∈ fs, ∀ ts, f.piece = .interpolation ts → (inner f).Fills source ts.dropLast) :
    ∀ m ∈ fs.map fun f => f.nodeOf (inner f), m.kind.isInline ∧ m.WellPlaced source :=
  List.forall_mem_map.mpr fun f hf => ⟨f.nodeOf_isInline _, (hfs f hf).wellPlaced (hi f hf)⟩

theorem Token.Located.string_wellPlaced {t : Token} (h : t.Located source)
    (hk : t.kind = .string) {inner : Fragment → Node}
    (hi : ∀ f ∈ t.fragments, ∀ ts, f.piece = .interpolation ts →
      (inner f).Fills source ts.dropLast) :
    (t.stringOf (t.fragments.map fun f => f.nodeOf (inner f))).WellPlaced source := by
  obtain ⟨quote, inside, htext, hrow, hwithin⟩ := h.fragment_row hk
  have hcovers := h.covers
  rw [htext] at hcovers
  obtain ⟨hparts, hwhole⟩ := hcovers.bracketed (List.cons_ne_nil _ _) (List.cons_ne_nil _ _) hrow
    hwithin
  have hspans : (t.fragments.map fun f => f.nodeOf (inner f)).map Node.span =
      t.fragments.map Fragment.span := by
    rw [List.map_map]
    exact List.map_congr_left fun f _ => f.nodeOf_span _
  have hlast : t.text.dropLast = [quote] ++ inside := by rw [htext, List.dropLast_concat]
  rw [← hlast, ← hspans] at hparts hwhole
  unfold Token.stringOf
  refine Node.wellPlaced_bracketed ?_ ?_ ?_ <;> rw [Shape.elements_string]
  · exact hparts
  · exact hwhole
  · exact Fragment.Located.nodes h.fragments hi

theorem Token.Located.heredoc_wellPlaced {t : Token} (h : t.Located source) {tag : HeredocTag}
    {b : HeredocBody} (hb : t.detail = .heredoc tag (some b)) {inner : Fragment → Node}
    (hi : ∀ f ∈ b.fragments, ∀ ts, f.piece = .interpolation ts →
      (inner f).Fills source ts.dropLast) :
    (t.heredocOf tag b (b.fragments.map fun f => f.nodeOf (inner f))).WellPlaced source := by
  obtain ⟨hbody, hafter⟩ := h.body b (Token.mem_body? hb)
  have hcorrect := h.covers.correct
  have hlt := h.covers.nonempty h.nonempty
  have htag : (t.tagOf tag).WellPlaced source :=
    Node.wellPlaced_leaf (Node.isLeaf_iff.mpr ⟨Kind.noConfusion, rfl, rfl⟩) hcorrect hlt
  have hmarker : b.marker.leaf.toNode.WellPlaced source :=
    Node.wellPlaced_sign hbody.marker.1.correct (hbody.marker.1.nonempty hbody.marker.2)
  have hparts := Fragment.Located.nodes hbody.fragments hi
  generalize (b.fragments.map fun f => f.nodeOf (inner f)) = parts at hparts ⊢
  have hwell : (Node.mk b.span [b.marker.leaf] (.heredocBody b.trim parts)).WellPlaced source := by
    refine .mk ⟨hbody.correct, fun _ => hbody.nonempty, fun hk => absurd rfl hk, fun hk => ?_⟩ ?_
    · cases hk
    · refine List.forall_mem_cons.mpr ⟨hmarker, fun m hm => (hparts m ?_).2⟩
      exact Shape.elements_heredocBody b.trim parts ▸ hm
  unfold Token.heredocOf
  generalize hnode : Node.mk b.span [b.marker.leaf] (.heredocBody b.trim parts) = body at hwell ⊢
  have hspan : body.span = b.span := by rw [← hnode]; rfl
  have hchildren : (Node.plain t.span (.heredoc (t.tagOf tag) body)).children =
      [t.tagOf tag, body] := by
    refine sortByStart_eq (.refl _) (List.pairwise_pair.mpr ?_)
    show t.span.start < body.span.start
    rw [hspan]
    omega
  refine .mk ⟨hcorrect, fun _ => hlt, fun _ => ?_, fun _ => .inr ?_⟩ ?_
  · rw [hchildren]
    refine List.Pairwise.filter _ (List.pairwise_pair.mpr ?_)
    rw [hspan]
    exact hafter
  · have hinner : (Node.plain t.span (.heredoc (t.tagOf tag) body)).inlineChildren =
        [t.tagOf tag] := by
      rw [Node.inlineChildren, hchildren, ← hnode]
      rfl
    rw [hinner]
    exact ⟨.singleton hcorrect hlt, rfl, List.forall_mem_singleton.mpr rfl⟩
  · exact List.forall_mem_cons.mpr ⟨htag, List.forall_mem_singleton.mpr hwell⟩

/-! ## Built nodes -/

theorem Token.Row.of_flatMap {ps : List Segment}
    (h : Token.Row source (ps.flatMap Prod.fst)) : ∀ p ∈ ps, Token.Row source p.1 := by
  induction ps with
  | nil => exact List.forall_mem_nil _
  | cons p ps ih =>
    rw [List.flatMap_cons] at h
    obtain ⟨hp, hps⟩ := h.of_append
    exact List.forall_mem_cons.mpr ⟨hp, ih hps⟩

namespace Parse

/-- What is built from a row of located tokens reaches over them and is well placed. -/
theorem Built.fills {ts : List Token} {n : Node} (h : Built ts n) : n.Fills source ts := by
  induction h with
  | leaf t n hk hleaf hkind hspan =>
    intro hrow
    have ht := hrow.located t List.mem_cons_self
    refine ⟨by rw [hspan]; rfl, hkind, Node.wellPlaced_leaf hleaf ?_ ?_⟩
    · rw [hspan]
      exact ht.covers.correct
    · rw [hspan]
      exact ht.covers.nonempty ht.nonempty
  | string t inner hk _ _ ih =>
    intro hrow
    have ht := hrow.located t List.mem_cons_self
    exact ⟨rfl, rfl, ht.string_wellPlaced hk ih⟩
  | heredoc t tag b inner hk hb _ _ ih =>
    intro hrow
    have ht := hrow.located t List.mem_cons_self
    exact ⟨rfl, rfl, ht.heredoc_wellPlaced hb ih⟩
  | @assembled ts n parts h _ ih =>
    intro hrow
    rw [h.tokens] at hrow
    have hrows := hrow.of_flatMap
    have hfills := fun p hp => ih p hp (hrows p hp)
    have hspans := hrow.spans
    rw [List.map_flatMap] at hspans
    have hparts := hspans.coarsen fun p hp => (hfills p hp).1
    have hsame : Span.hull (ts.map Token.span) = extent parts := by
      rw [h.tokens, List.map_flatMap]
      exact Span.hull_flatMap fun p hp => (hfills p hp).1
    have hextent := h.span source hparts hsame
    refine ⟨hsame.trans hextent, h.kind.1, Node.wellPlaced_row h.perm ?_ ?_ ?_⟩
    · rw [List.map_map]
      exact hparts
    · rw [List.map_map]
      exact hextent
    · exact List.forall_mem_map.mpr fun p hp => (hfills p hp).2

end Parse

/-! ## Parsed trees -/

theorem Span.whole_correct (source : Text) :
    (Span.mk 0 source.length 1 1).Correct source where
  starts := Int.le_refl 0
  ordered := Int.natCast_nonneg _
  ends := Int.le_refl _
  line := rfl
  column := rfl

theorem Token.commentNode_wellPlaced {t : Token} (hs : t.span.Covers source t.text)
    (hne : t.text ≠ []) : t.commentNode.WellPlaced source := by
  have hchildren : t.commentNode.children = [] := sortByStart_eq (.refl _) .nil
  refine .mk ⟨hs.correct, fun _ => hs.nonempty hne, fun _ => ?_, fun hk => ?_⟩
    (List.forall_mem_nil _)
  · rw [hchildren]
    exact .nil
  · cases hk

namespace Node

theorem Parsed.wellPlaced {tokens comments : List Token} {statements : List Segment} {tree : Node}
    (h : Parsed source tokens comments statements tree) : tree.WellPlaced source := by
  obtain ⟨hrow, hcomments⟩ := Token.scan_row h.scan
  rw [h.segments] at hrow
  have hrows := hrow.of_flatMap
  have hfills := fun s hs => (h.derives s hs).built.fills (hrows s hs)
  have hspans := hrow.spans
  rw [List.map_flatMap] at hspans
  have hparts : Span.Row source ((statements.map Prod.snd).map span) := by
    rw [List.map_map]
    exact hspans.coarsen fun s hs => (hfills s hs).1
  have hkinds : ∀ n ∈ statements.map Prod.snd, n.kind ≠ .comment :=
    List.forall_mem_map.mpr fun s hs hk => absurd (hk ▸ (h.derives s hs).kind_mem) (by decide)
  have helements : tree.tokens.map Leaf.toNode ++ tree.shape.elements =
      statements.map Prod.snd ++ comments.map Token.commentNode := by
    rw [h.elements, h.tree]
    rfl
  refine .mk ⟨?_, fun hk => ?_, fun _ => ?_, fun hk => ?_⟩ ?_
  · rw [h.tree]
    exact Span.whole_correct source
  · exact absurd (by rw [h.tree]; rfl) hk
  · have hchildren : (tree.children.filter fun c => c.kind ≠ .comment) =
        statements.map Prod.snd := by
      refine filter_sortByStart (.of_eq ?_) hparts.starts
      have hkept := List.filter_eq_self.mpr fun n hn => decide_eq_true (hkinds n hn)
      have hdropped : (comments.map Token.commentNode).filter (fun c => c.kind ≠ .comment) = [] :=
        List.filter_eq_nil_iff.mpr (List.forall_mem_map.mpr fun t _ => by
          simp [Token.commentNode, Node.plain, Node.kind, Node.shape, Shape.kind])
      rw [helements, List.filter_append, hkept, hdropped, List.append_nil]
    rw [hchildren]
    exact List.pairwise_map.mp hparts.ordered
  · rw [h.tree] at hk
    cases hk
  · rw [helements]
    refine List.forall_mem_append.mpr ⟨?_, ?_⟩
    · exact List.forall_mem_map.mpr fun s hs => (hfills s hs).2.2
    · exact List.forall_mem_map.mpr fun t ht =>
        Token.commentNode_wellPlaced (hcomments t ht).1 (hcomments t ht).2

/-- Whatever a parse answers with is right about where it stands: the tokens before the end of
input, the comments, all fragments with the tokens in them and the ends of those, the bodies and
markers of heredocs, and everything in the tree. -/
theorem parse_places {tree : Node} (h : Node.parse source = .ok tree) :
    ∃ tokens comments, Token.scan source = .ok (tokens, comments) ∧
      (∀ t ∈ tokens, t.kind ≠ .endOfInput → t.span.Correct source) ∧
      (∀ t ∈ comments, t.span.Correct source) ∧
      (∀ f ∈ Token.deepAll tokens,
        f.span.Correct source ∧ ∀ t ∈ f.tokens, t.span.Correct source) ∧
      (∀ t ∈ tokens ++ (Token.deepAll tokens).flatMap Fragment.tokens, ∀ b ∈ t.body?,
        b.span.Correct source ∧ b.marker.span.Correct source) ∧
      ∀ n ∈ tree.preorder, n.span.Correct source := by
  obtain ⟨tokens, comments, statements, hp⟩ := Node.parse_parsed h
  obtain ⟨hrow, hcomments⟩ := Token.scan_row hp.scan
  obtain ⟨p, hends⟩ := hp.ends
  have hsplit : ∀ t ∈ tokens, t.Located source ∨ t = Token.endAt p := by
    intro t ht
    rw [hends] at ht
    rcases List.mem_append.mp ht with ht | ht
    · exact .inl (hrow.located t ht)
    · exact .inr (List.mem_singleton.mp ht)
  have hfragments : ∀ f ∈ Token.deepAll tokens, f.Located source := by
    intro f hf
    obtain ⟨t, ht, hf⟩ := Token.mem_deepAll.mp hf
    rcases hsplit t ht with ht | rfl
    · exact ht.deep f hf
    · exact absurd hf List.not_mem_nil
  refine ⟨tokens, comments, hp.scan, fun t ht hk => ?_, fun t ht => (hcomments t ht).1.correct,
    fun f hf => ⟨(hfragments f hf).covers.correct,
      fun t ht => ((hfragments f hf).tokens t ht).correct⟩, fun t ht b hb => ?_,
    fun n hn => (hp.wellPlaced n hn).correct⟩
  · rcases hsplit t ht with ht | rfl
    · exact ht.covers.correct
    · exact absurd rfl hk
  · rcases List.mem_append.mp ht with ht | ht
    · rcases hsplit t ht with ht | rfl
      · obtain ⟨hbody, -⟩ := ht.body b hb
        exact ⟨hbody.correct, hbody.marker.1.correct⟩
      · cases hb
    · obtain ⟨f, hf, ht⟩ := List.mem_flatMap.mp ht
      rw [(hfragments f hf).bodyless t ht] at hb
      cases hb

set_option maxRecDepth 2000 in
/-- The body of a heredoc and a string with an interpolation, twenty elements in all. -/
theorem parse_places_heredoc : ∃ source tree,
    source = Text.ofString "$a = @(E)\n  x\n  | E\n$b = \"y$\x7bc\x7d\"\n" ∧
    Node.parse source = .ok tree ∧ tree.preorder.length = 20 ∧
    ∃ tokens comments, Token.scan source = .ok (tokens, comments) ∧
      (∀ t ∈ tokens, t.kind ≠ .endOfInput → t.span.Correct source) ∧
      (∀ t ∈ comments, t.span.Correct source) ∧
      (∀ f ∈ Token.deepAll tokens,
        f.span.Correct source ∧ ∀ t ∈ f.tokens, t.span.Correct source) ∧
      (∀ t ∈ tokens ++ (Token.deepAll tokens).flatMap Fragment.tokens, ∀ b ∈ t.body?,
        b.span.Correct source ∧ b.marker.span.Correct source) ∧
      ∀ n ∈ tree.preorder, n.span.Correct source := by
  have hrun : (Node.parse
      (Text.ofString "$a = @(E)\n  x\n  | E\n$b = \"y$\x7bc\x7d\"\n")).toOption.map
        (fun tree => tree.preorder.length) = some 20 := by cbv
  obtain ⟨tree, hparse, hlength⟩ := exists_ok_of_map hrun
  exact ⟨_, tree, rfl, hparse, hlength, parse_places hparse⟩

end Node

end ManifestTree
