import ManifestTree.Proofs.NodePlaces

/-!
# Leaves that are told

The names and integers of a tree come from single tokens, or from the variables in strings and
heredocs.  `Token.Told` says so of a node: some token at any depth tells what it is, or some
fragment does.  Since a node is built in one of four ways, this is an induction with four cases.
-/

namespace ManifestTree

/-- At any depth the integers of a scan are numerals, and all tokens are spelled as their kinds
are. -/
theorem Token.scan_spelled {source : Text} {tokens comments : List Token}
    (h : Token.scan source = .ok (tokens, comments)) : ∀ t ∈ tokens.flatMap Token.deepTokens,
      (t.kind = .integer → NumeralOf source t.text) ∧ t.kind.Spells t.text := by
  have hregular := Token.scan_regular h
  intro t ht
  obtain ⟨u, hu, ht⟩ := List.mem_flatMap.mp ht
  rcases List.mem_cons.mp ht with rfl | ht
  · exact ⟨(hregular t hu).integer, (hregular t hu).spelled⟩
  · obtain ⟨f, hf, ht⟩ := List.mem_flatMap.mp ht
    exact (((hregular u hu).deep f hf).tokens t ht).2.2

theorem Token.deepAll_subset {ts us : List Token} (h : ts ⊆ us) :
    Token.deepAll ts ⊆ Token.deepAll us := by
  intro f hf
  obtain ⟨t, ht, hf⟩ := Token.mem_deepAll.mp hf
  exact Token.mem_deepAll.mpr ⟨t, h ht, hf⟩

theorem Token.flatMap_deepTokens_subset {ts us : List Token} (h : ts ⊆ us) :
    ts.flatMap Token.deepTokens ⊆ us.flatMap Token.deepTokens := by
  intro u hu
  obtain ⟨t, ht, hu⟩ := List.mem_flatMap.mp hu
  exact List.mem_flatMap.mpr ⟨t, h ht, hu⟩

/-- A token at any depth among these tells what the node is, or a variable among their fragments is
its name. -/
inductive Token.Told (ts : List Token) (m : Node) : Prop
  | token (t : Token) : t ∈ ts.flatMap Token.deepTokens → t.Tells m → Told ts m
  | fragment (f : Fragment) : f ∈ Token.deepAll ts → f.piece = .variable →
      m = Node.plain f.span (.ofName .variable (f.text.drop 1)) → Told ts m

/-- Every name and every integer below the node is told. -/
def Node.ToldBelow (ts : List Token) (n : Node) : Prop :=
  ∀ m ∈ n.preorder, m.kind.isTold → Token.Told ts m

section

variable {ts us : List Token} {m n : Node}

/-- More tokens tell as much. -/
theorem Token.Told.mono (h : Token.Told ts m)
    (htokens : ts.flatMap Token.deepTokens ⊆ us.flatMap Token.deepTokens)
    (hdeep : Token.deepAll ts ⊆ Token.deepAll us) : Token.Told us m := by
  cases h with
  | token t ht htells => exact .token t (htokens ht) htells
  | fragment f hf hp hm => exact .fragment f (hdeep hf) hp hm

theorem Token.Told.part {p : Parse.Segment} {ps : List Parse.Segment} (hp : p ∈ ps)
    (h : Token.Told p.1 m) : Token.Told (ps.flatMap Prod.fst) m := by
  have hsub : p.1 ⊆ ps.flatMap Prod.fst := fun t ht => List.mem_flatMap.mpr ⟨p, hp, ht⟩
  exact h.mono (Token.flatMap_deepTokens_subset hsub) (Token.deepAll_subset hsub)

theorem Token.Told.interpolation {t : Token} {f : Fragment} (hf : f.deep ⊆ t.deepFragments)
    (hp : f.piece = .interpolation ts) (h : Token.Told ts.dropLast m) : Token.Told [t] m := by
  have hsub : ts.dropLast ⊆ f.tokens := by
    rw [Fragment.tokens, hp]
    exact List.dropLast_subset ts
  refine h.mono (fun v hv => ?_) fun g hg => ?_
  · obtain ⟨u, hu, hv⟩ := List.mem_flatMap.mp hv
    exact List.mem_flatMap.mpr
      ⟨t, List.mem_singleton_self t, Token.deepTokens_subset hf (hsub hu) hv⟩
  · obtain ⟨u, hu, hg⟩ := Token.mem_deepAll.mp hg
    exact Token.mem_deepAll.mpr
      ⟨t, List.mem_singleton_self t, hf (Fragment.deepFragments_subset (hsub hu) hg)⟩

theorem Node.eq_of_mem_preorder_leaf (hleaf : n.isLeaf) (hm : m ∈ n.preorder) : m = n := by
  obtain ⟨-, htokens, helements⟩ := Node.isLeaf_iff.mp hleaf
  rcases Node.mem_preorder.mp hm with rfl | ⟨l, hl, -⟩ | ⟨e, he, -⟩
  · rfl
  · rw [htokens] at hl
    cases hl
  · rw [helements] at he
    cases he

theorem Node.toldBelow_of_elements (hk : n.kind.isTold = false)
    (h : ∀ e ∈ n.shape.elements, e.ToldBelow ts) : n.ToldBelow ts := by
  intro m hm htold
  rcases Node.mem_preorder.mp hm with rfl | ⟨l, -, rfl⟩ | ⟨e, he, hm⟩
  · rw [hk] at htold
    cases htold
  · cases htold
  · exact h e he m hm htold

/-- The nodes of fragments within a token are told below, if those of interpolations are by what
stands inside. -/
theorem Fragment.nodeOf_toldBelow {t : Token} {f : Fragment} {inner : Node}
    (hf : f.deep ⊆ t.deepFragments)
    (hinner : ∀ ts, f.piece = .interpolation ts → inner.ToldBelow ts.dropLast) :
    (f.nodeOf inner).ToldBelow [t] := by
  cases hp : f.piece with
  | content | escape =>
    unfold Fragment.nodeOf
    rw [hp]
    exact Node.toldBelow_of_elements rfl (List.forall_mem_nil _)
  | «variable» =>
    have hleaf : (f.nodeOf inner).isLeaf := Fragment.nodeOf_isLeaf fun ts h => by
      rw [hp] at h
      cases h
    have hmem : f ∈ Token.deepAll [t] :=
      Token.mem_deepAll.mpr ⟨t, List.mem_singleton_self t, hf f.self_mem_deep⟩
    intro m hm _
    refine .fragment f hmem hp ?_
    rw [Node.eq_of_mem_preorder_leaf hleaf hm, Fragment.nodeOf, hp]
  | interpolation ts =>
    unfold Fragment.nodeOf
    rw [hp]
    refine Node.toldBelow_of_elements rfl (List.forall_mem_singleton.mpr ?_)
    exact fun m hm htold => (hinner ts hp m hm htold).interpolation hf hp

theorem Parse.Built.toldBelow (h : Parse.Built ts n) : n.ToldBelow ts := by
  induction h with
  | leaf t n _ hleaf _ _ htells =>
    intro m hm _
    rw [Node.eq_of_mem_preorder_leaf hleaf hm]
    exact .token t (List.mem_flatMap.mpr ⟨t, List.mem_singleton_self t, List.mem_cons_self⟩) htells
  | string t inner _ _ _ ih =>
    refine Node.toldBelow_of_elements rfl fun e he => ?_
    obtain ⟨f, hf, rfl⟩ := List.mem_map.mp (Shape.elements_string _ _ ▸ he)
    exact Fragment.nodeOf_toldBelow (Token.deep_subset hf) (ih f hf)
  | heredoc t tag b inner _ hd _ _ ih =>
    have hb := Token.mem_body? hd
    refine Node.toldBelow_of_elements rfl ?_
    simp only [Token.heredocOf, Node.plain, Node.shape, Shape.elements, Shape.fields,
      List.flatMap_cons, List.flatMap_nil, Field.elements, Option.toList_some, List.append_nil,
      List.singleton_append, List.forall_mem_cons]
    refine ⟨Node.toldBelow_of_elements rfl (List.forall_mem_nil _),
      Node.toldBelow_of_elements rfl fun e he => ?_, List.forall_mem_nil _⟩
    obtain ⟨f, hf, rfl⟩ := List.mem_map.mp (Shape.elements_heredocBody _ _ ▸ he)
    exact Fragment.nodeOf_toldBelow (Token.body_deep_subset hb hf) (ih f hf)
  | @assembled ts n parts h _ ih =>
    refine Node.toldBelow_of_elements h.kind.2 fun e he => ?_
    obtain ⟨p, hp, rfl⟩ := List.mem_map.mp (h.perm.subset (List.mem_append_right _ he))
    rw [h.tokens]
    exact fun m hm htold => (ih p hp m hm htold).part hp

/-- The names and integers of a parsed tree are told by the tokens of its source. -/
theorem Node.Parsed.toldBelow {source : Text} {tokens comments : List Token}
    {statements : List Parse.Segment} {tree : Node}
    (h : Node.Parsed source tokens comments statements tree) :
    tree.ToldBelow tokens.dropLast := by
  rw [h.segments]
  refine Node.toldBelow_of_elements (by rw [h.tree]; rfl) fun e he => ?_
  rw [h.elements] at he
  rcases List.mem_append.mp he with he | he
  · obtain ⟨p, hp, rfl⟩ := List.mem_map.mp he
    exact fun m hm htold => ((h.derives p hp).built.toldBelow m hm htold).part hp
  · obtain ⟨t, -, rfl⟩ := List.mem_map.mp he
    exact Node.toldBelow_of_elements rfl (List.forall_mem_nil _)

end

end ManifestTree
