import ManifestTree.Proofs.NodePlaces

/-!
# Leaves and spans

A heredoc body stands on later lines than the node it belongs to, so what is in it tells nothing
about where the node ends.  `Node.inlineLeaves` lists the leaves of a node but for those.  In a well
placed tree they make a row, child after child, and every node but a manifest reaches from the first
of them to the last.
-/

namespace ManifestTree

variable {source : Text}

namespace Node

/-! ## Listings without heredoc bodies -/

/-- An element and everything below it but heredoc bodies and what is in them. -/
def inline (n : Node) : List Node :=
  n.fold fun node below =>
    if node.kind = .heredocBody then []
    else node :: (node.tokens.map Leaf.toNode ++ below.elements.flatten)

/-- The leaves of an element that are in no heredoc body, in the order of the source. -/
def inlineLeaves (n : Node) : List Node :=
  sortByStart (fun c => c.span.start) (n.inline.filter isLeaf)

theorem inline_eq (n : Node) : n.inline = if n.kind = .heredocBody then [] else
    n :: (n.tokens.map Leaf.toNode ++ n.shape.elements.flatMap inline) := by
  unfold inline
  rw [Node.fold_eq, Shape.foldNodes_elements, List.flatMap_def]

theorem inline_body {n : Node} (h : n.kind = .heredocBody) : n.inline = [] := by
  rw [inline_eq, if_pos h]

theorem inline_other {n : Node} (h : n.kind ≠ .heredocBody) :
    n.inline = n :: (n.tokens.map Leaf.toNode ++ n.shape.elements.flatMap inline) := by
  rw [inline_eq, if_neg h]

/-- Signs and elements alike, a listing goes on below the children. -/
theorem inline_children {n : Node} (h : n.kind ≠ .heredocBody) :
    n.inline.Perm (n :: n.children.flatMap inline) := by
  have hsigns : n.tokens.map Leaf.toNode = (n.tokens.map Leaf.toNode).flatMap inline := by
    rw [List.flatMap_map]
    exact List.map_eq_flatMap
  rw [inline_other h, hsigns, ← List.flatMap_append]
  exact ((sortByStart_perm _ _).symm.flatMap_right _).cons n

theorem inline_inlineChildren (n : Node) :
    n.children.flatMap inline = n.inlineChildren.flatMap inline := by
  unfold inlineChildren
  induction n.children with
  | nil => rfl
  | cons c cs ih =>
    by_cases hc : c.kind = .heredocBody
    · rw [List.flatMap_cons, inline_body hc, ih, List.filter_cons_of_neg (by simpa using hc)]
      rfl
    · rw [List.filter_cons_of_pos (by simpa using hc), List.flatMap_cons, List.flatMap_cons, ih]

/-! ## Where a node begins and ends -/

theorem mem_children {c n : Node} :
    c ∈ n.children ↔ (∃ l ∈ n.tokens, l.toNode = c) ∨ c ∈ n.shape.elements := by
  unfold children
  rw [(sortByStart_perm _ _).mem_iff, List.mem_append, List.mem_map]

theorem inlineLeaves_leaf {n : Node} (hleaf : n.isLeaf) (hkind : n.kind ≠ .heredocBody) :
    n.inlineLeaves = [n] := by
  obtain ⟨-, htokens, helements⟩ := isLeaf_iff.mp hleaf
  have hinline : n.inline = [n] := by
    rw [inline_other hkind, htokens, helements]
    rfl
  unfold inlineLeaves
  rw [hinline, List.filter_cons_of_pos hleaf]
  exact sortByStart_eq (.refl _) (List.pairwise_singleton _ _)

/-- The leaves of a node with children are those of its children, heredoc bodies apart. -/
theorem inlineLeaves_perm {n : Node} (hleaf : n.isLeaf ≠ true) (hkind : n.kind ≠ .heredocBody) :
    (n.inline.filter isLeaf).Perm (n.inlineChildren.flatMap inlineLeaves) := by
  have hfilter := (inline_children hkind).filter isLeaf
  rw [List.filter_cons_of_neg hleaf, inline_inlineChildren, List.filter_flatMap] at hfilter
  exact hfilter.trans (List.Perm.flatMap_left _ fun c _ => (sortByStart_perm _ _).symm)

theorem Placed.leaf_row {n : Node} (h : n.Placed source) (hleaf : n.isLeaf)
    (hkind : n.kind.isInline) : Span.Row source (n.inlineLeaves.map span) ∧
      Span.hull (n.inlineLeaves.map span) = some n.span := by
  obtain ⟨hmanifest, hbody, -⟩ := Kind.isInline_iff.mp hkind
  rw [inlineLeaves_leaf hleaf hbody]
  exact ⟨.singleton h.correct (h.nonempty hmanifest), rfl⟩

/-- The leaves of a well placed node make a row, and the node reaches from the first of them to the
last. -/
theorem WellPlaced.leaves_row {n : Node} (h : n.WellPlaced source) (hkind : n.kind.isInline) :
    Span.Row source (n.inlineLeaves.map span) ∧
      Span.hull (n.inlineLeaves.map span) = some n.span := by
  induction n using elements_induction with
  | _ n ih =>
    obtain ⟨-, hbody, -⟩ := Kind.isInline_iff.mp hkind
    rcases h.placed.edges hkind with hleaf | ⟨hrow, hhull, hkinds⟩
    · exact h.placed.leaf_row hleaf hkind
    have hbelow : ∀ c ∈ n.inlineChildren, Span.Row source (c.inlineLeaves.map span) ∧
        Span.hull (c.inlineLeaves.map span) = some c.span := by
      intro c hc
      rcases mem_children.mp (List.mem_of_mem_filter hc) with ⟨l, hl, rfl⟩ | he
      · exact (h _ (mem_preorder_token hl)).leaf_row
          (isLeaf_iff.mpr ⟨Kind.noConfusion, rfl, rfl⟩) rfl
      · exact ih c he (fun m hm => h m (mem_preorder_element he hm)) (hkinds c hc)
    have hleaf : n.isLeaf ≠ true := by
      intro hleaf
      rw [inlineChildren, children_of_isLeaf hleaf] at hhull
      cases hhull
    have hleaves := hrow.refine_runs hbelow
    rw [← List.map_flatMap] at hleaves
    have heq : n.inlineLeaves = n.inlineChildren.flatMap inlineLeaves :=
      sortByStart_eq (inlineLeaves_perm hleaf hbody) hleaves.starts
    rw [heq]
    refine ⟨hleaves, ?_⟩
    rw [List.map_flatMap, Span.hull_flatMap fun c hc => (hbelow c hc).2, hhull]

/-! ## Leaves in heredoc bodies -/

theorem inline_subset (n : Node) : n.inline ⊆ n.preorder := by
  induction n using elements_induction with
  | _ n ih =>
    intro m hm
    by_cases hkind : n.kind = .heredocBody
    · rw [inline_body hkind] at hm
      exact absurd hm List.not_mem_nil
    rw [inline_other hkind] at hm
    rcases List.mem_cons.mp hm with rfl | hm
    · exact mem_preorder_self m
    rcases List.mem_append.mp hm with hm | hm
    · obtain ⟨l, hl, rfl⟩ := List.mem_map.mp hm
      exact mem_preorder_token hl
    · obtain ⟨e, he, hm⟩ := List.mem_flatMap.mp hm
      exact mem_preorder_element he (ih e he hm)

/-- What is below a node is listed with it, or it is in a heredoc body below the node. -/
theorem mem_preorder_inline {m n : Node} (hkind : n.kind ≠ .heredocBody) :
    m ∈ n.preorder ↔
      m ∈ n.inline ∨ ∃ b ∈ n.preorder, b.kind = .heredocBody ∧ m ∈ b.preorder := by
  constructor
  · intro hm
    induction n using elements_induction with
    | _ n ih =>
      rw [inline_other hkind]
      rcases mem_preorder.mp hm with rfl | ⟨l, hl, rfl⟩ | ⟨e, he, hm⟩
      · exact .inl List.mem_cons_self
      · exact .inl (List.mem_cons_of_mem n
          (List.mem_append_left _ (List.mem_map_of_mem hl)))
      by_cases hk : e.kind = .heredocBody
      · exact .inr ⟨e, mem_preorder_element he (mem_preorder_self e), hk, hm⟩
      rcases ih e he hk hm with hm | ⟨b, hb, hbody, hm⟩
      · exact .inl (List.mem_cons_of_mem n
          (List.mem_append_right _ (List.mem_flatMap.mpr ⟨e, he, hm⟩)))
      · exact .inr ⟨b, mem_preorder_element he hb, hbody, hm⟩
  · rintro (hm | ⟨b, hb, -, hm⟩)
    · exact inline_subset n hm
    · exact preorder_trans hb hm

theorem mem_leaves {m n : Node} : m ∈ n.leaves ↔ m ∈ n.preorder ∧ m.isLeaf := by
  unfold leaves
  rw [(sortByStart_perm _ _).mem_iff, List.mem_filter]

theorem mem_inlineLeaves {m n : Node} : m ∈ n.inlineLeaves ↔ m ∈ n.inline ∧ m.isLeaf := by
  unfold inlineLeaves
  rw [(sortByStart_perm _ _).mem_iff, List.mem_filter]

/-- Only leaves in heredoc bodies are left out. -/
theorem mem_leaves_inline {m n : Node} (hkind : n.kind ≠ .heredocBody) :
    m ∈ n.leaves ↔
      m ∈ n.inlineLeaves ∨ ∃ b ∈ n.preorder, b.kind = .heredocBody ∧ m ∈ b.leaves := by
  rw [mem_leaves, mem_inlineLeaves, mem_preorder_inline hkind]
  constructor
  · rintro ⟨hm | ⟨b, hb, hbody, hm⟩, hleaf⟩
    · exact .inl ⟨hm, hleaf⟩
    · exact .inr ⟨b, hb, hbody, mem_leaves.mpr ⟨hm, hleaf⟩⟩
  · rintro (⟨hm, hleaf⟩ | ⟨b, hb, hbody, hm⟩)
    · exact ⟨.inl hm, hleaf⟩
    · obtain ⟨hm, hleaf⟩ := mem_leaves.mp hm
      exact ⟨.inr ⟨b, hb, hbody, hm⟩, hleaf⟩

/-! ## Parsed trees -/

/-- In a parsed tree a node reaches from the start of its first leaf to the end of its last one,
leaves in heredoc bodies apart, and each of its children ends before the next one starts. -/
theorem parse_nests {tree : Node} (h : Node.parse source = .ok tree) :
    ∀ n ∈ tree.preorder, n.kind ≠ .heredocBody →
      (n.kind ≠ .manifest → n.kind ≠ .comment → ∃ first last,
        n.inlineLeaves.head? = some first ∧ n.inlineLeaves.getLast? = some last ∧
        n.span.start = first.span.start ∧ n.span.stop = last.span.stop) ∧
      (∀ m, m ∈ n.leaves ↔
        m ∈ n.inlineLeaves ∨ ∃ b ∈ n.preorder, b.kind = .heredocBody ∧ m ∈ b.leaves) ∧
      (n.children.filter fun c => c.kind ≠ .comment).Pairwise
        fun a b => a.span.stop ≤ b.span.start := by
  obtain ⟨tokens, comments, statements, hp⟩ := Node.parse_parsed h
  have hwell := hp.wellPlaced
  intro n hn hbody
  refine ⟨fun hmanifest hcomment => ?_, fun m => mem_leaves_inline hbody, (hwell n hn).apart hbody⟩
  have hbelow : n.WellPlaced source := fun m hm => hwell m (preorder_trans hn hm)
  have hhull := (hbelow.leaves_row (Kind.isInline_iff.mpr ⟨hmanifest, hbody, hcomment⟩)).2
  obtain ⟨a, b, hhead, hlast, hspan⟩ := Span.hull_eq_some.mp hhull
  rw [List.head?_map, Option.map_eq_some_iff] at hhead
  rw [List.getLast?_map, Option.map_eq_some_iff] at hlast
  obtain ⟨first, hfirst, rfl⟩ := hhead
  obtain ⟨last, hlast, rfl⟩ := hlast
  exact ⟨first, last, hfirst, hlast, by rw [hspan]; rfl, by rw [hspan]; rfl⟩

set_option maxRecDepth 2000 in
/-- A call that ends before the body of its heredoc begins: six of its eight leaves are in line. -/
theorem parse_nests_call : ∃ source tree n, source = Text.ofString "f(@(E), 1)\n x\n | E\n" ∧
    Node.parse source = .ok tree ∧ n ∈ tree.preorder ∧ n.kind = .functionCall ∧
    (n.leaves.length, n.inlineLeaves.length) = (8, 6) ∧
    (∃ first last, n.inlineLeaves.head? = some first ∧ n.inlineLeaves.getLast? = some last ∧
      n.span.start = first.span.start ∧ n.span.stop = last.span.stop) ∧
    (∀ m, m ∈ n.leaves ↔
      m ∈ n.inlineLeaves ∨ ∃ b ∈ n.preorder, b.kind = .heredocBody ∧ m ∈ b.leaves) ∧
    (n.children.filter fun c => c.kind ≠ .comment).Pairwise
      fun a b => a.span.stop ≤ b.span.start := by
  have hrun : (Node.parse (Text.ofString "f(@(E), 1)\n x\n | E\n")).toOption.map
      (fun tree => (tree.preorder.find? fun n => n.kind = .functionCall).map
        fun n => (n.leaves.length, n.inlineLeaves.length)) = some (some (8, 6)) := by cbv
  obtain ⟨tree, hparse, hfind⟩ := exists_ok_of_map hrun
  obtain ⟨n, hfind, hlengths⟩ := Option.map_eq_some_iff.mp hfind
  have hn := List.mem_of_find?_eq_some hfind
  have hkind : n.kind = .functionCall := by simpa using List.find?_some hfind
  obtain ⟨hspan, hleaves, hchildren⟩ :=
    parse_nests hparse n hn (by rw [hkind]; exact Kind.noConfusion)
  exact ⟨_, tree, n, rfl, hparse, hn, hkind, hlengths,
    hspan (by rw [hkind]; exact Kind.noConfusion) (by rw [hkind]; exact Kind.noConfusion), hleaves,
    hchildren⟩

end Node

end ManifestTree
