import ManifestTree.Proofs.NodePlaces
import ManifestTree.Proofs.StoredTree
import ManifestTree.Proofs.TagGrammar

/-!
# Texts of parsed trees

The texts of a parsed tree are pieces of its source, but for the values of escapes, which are at
most one code point long, and the operators of binary expressions.  So where no high surrogate is
directly followed by a low one in a source, this is so in all texts of its tree.
-/

namespace ManifestTree

open Parse

variable {source : Text}

/-! ## Texts from a source -/

/-- What a source gives to its tree: pieces of it, single code points, and operators. -/
inductive Text.Gives (source : Text) : Text → Prop
  | piece {t : Text} : t <:+: source → Gives source t
  | point {t : Text} : t.length ≤ 1 → Gives source t
  | operator (o : Operator) : Gives source (Text.ofString o.symbol)

theorem Text.Gives.unpaired {t : Text} (h : source.Gives t) (hs : source.Unpaired) :
    t.Unpaired := by
  cases h with
  | piece h =>
    obtain ⟨before, after, rfl⟩ := h
    exact (List.IsChain.left_of_append hs).right_of_append
  | point h => exact Text.unpaired_of_length h
  | operator o => exact Text.unpaired_ofString o.symbol

theorem Span.Covers.isInfix {s : Span} {cs : Text} (h : s.Covers source cs) : cs <:+: source := by
  obtain ⟨before, after, hsource, -⟩ := h.holds
  exact ⟨before, after, hsource.symm⟩

namespace Node

/-- All texts below the node are taken from the source. -/
def Quotes (source : Text) (n : Node) : Prop := ∀ m ∈ n.preorder, ∀ t ∈ m.texts, source.Gives t

theorem Quotes.of_elements {n : Node} (hn : ∀ t ∈ n.texts, source.Gives t)
    (hsigns : ∀ l ∈ n.tokens, source.Gives l.text)
    (helements : ∀ e ∈ n.shape.elements, e.Quotes source) : n.Quotes source := by
  intro m hm
  rcases mem_preorder.mp hm with rfl | ⟨l, hl, rfl⟩ | ⟨e, he, hm⟩
  · exact hn
  · exact List.forall_mem_singleton.mpr (hsigns l hl)
  · exact helements e he m hm

theorem Quotes.self {n : Node} (h : n.Quotes source) : ∀ t ∈ n.texts, source.Gives t :=
  h n (mem_preorder_self n)

theorem quotes_leaf {n : Node} {s : Span} {cs : Text} (hleaf : n.isLeaf) (hs : s.Covers source cs)
    (h : ∀ t ∈ n.texts, t <:+: cs) : n.Quotes source := by
  obtain ⟨-, htokens, helements⟩ := isLeaf_iff.mp hleaf
  refine .of_elements (fun t ht => .piece ((h t ht).trans hs.isInfix)) ?_ ?_
  · rw [htokens]
    exact List.forall_mem_nil _
  · rw [helements]
    exact List.forall_mem_nil _

end Node

/-! ## Strings and heredocs -/

/-- The signs of an interpolation are pieces of its text. -/
theorem Fragment.Located.quotes {f : Fragment} {inner : Node} (hf : f.Located source)
    (hi : ∀ ts, f.piece = .interpolation ts → inner.Quotes source) :
    (f.nodeOf inner).Quotes source := by
  have hsound := hf.sound f f.self_mem_deep
  cases hp : f.piece with
  | content =>
    refine Node.quotes_leaf (Fragment.nodeOf_isLeaf (by simp [hp])) hf.covers ?_
    simp [Fragment.nodeOf, hp, Node.texts, Node.shape, Node.plain, Shape.fields, Field.strings,
      Fragment.value]
  | escape value =>
    unfold Fragment.nodeOf
    rw [hp]
    refine .of_elements ?_ (List.forall_mem_nil _) (List.forall_mem_nil _)
    exact List.forall_mem_cons.mpr ⟨.piece hf.covers.isInfix,
      List.forall_mem_singleton.mpr (.point (hsound.escape value hp))⟩
  | «variable» =>
    refine Node.quotes_leaf (Fragment.nodeOf_isLeaf (by simp [hp])) hf.covers ?_
    unfold Fragment.nodeOf
    rw [hp]
    exact fun t ht => (Node.texts_ofName _ _ _ t ht).trans (List.drop_suffix _ _).isInfix
  | interpolation ts =>
    obtain ⟨inside, htext, -⟩ := hsound.encloses ts hp
    have hcovers := hf.covers.isInfix
    rw [htext] at hcovers
    rw [hsound.proper.nodeOf_interpolation hp]
    refine .of_elements (List.forall_mem_nil _) ?_ (List.forall_mem_singleton.mpr (hi ts hp))
    refine List.forall_mem_cons.mpr ⟨.piece ?_, List.forall_mem_singleton.mpr (.point le_rfl)⟩
    exact (List.prefix_append [CodePoint.char '$', CodePoint.char '\x7b'] _).isInfix.trans hcovers

theorem Token.Located.string_quotes {t : Token} (h : t.Located source) {inner : Fragment → Node}
    (hi : ∀ f ∈ t.fragments, ∀ ts, f.piece = .interpolation ts → (inner f).Quotes source) :
    (t.stringOf (t.fragments.map fun f => f.nodeOf (inner f))).Quotes source := by
  have hquote : source.Gives (t.text.take 1) :=
    .point (List.length_take_le 1 t.text)
  refine .of_elements (List.forall_mem_nil _)
    (List.forall_mem_cons.mpr ⟨hquote, List.forall_mem_singleton.mpr hquote⟩) fun e he => ?_
  obtain ⟨f, hf, rfl⟩ := List.mem_map.mp (Shape.elements_string _ _ ▸ he)
  exact (h.fragments f hf).quotes (hi f hf)

/-- The parts of the tag stand in the text of the token, and the marker where its span says. -/
theorem Token.Located.heredoc_quotes {t : Token} (h : t.Located source) {tag : HeredocTag}
    {b : HeredocBody} (hb : t.detail = .heredoc tag (some b)) {inner : Fragment → Node}
    (hi : ∀ f ∈ b.fragments, ∀ ts, f.piece = .interpolation ts → (inner f).Quotes source) :
    (t.heredocOf tag b (b.fragments.map fun f => f.nodeOf (inner f))).Quotes source := by
  have hbody := (h.body b (Token.mem_body? hb)).1
  obtain ⟨htext, hparse⟩ := h.regular.tagged tag (some b) hb
  obtain ⟨g, hspells⟩ := HeredocTag.spells_of_parse hparse
  obtain ⟨hterminator, hlabel, hescapes⟩ := hspells.parts_isInfix
  have htag : (t.tagOf tag).Quotes source := by
    refine Node.quotes_leaf (Node.isLeaf_iff.mpr ⟨Kind.noConfusion, rfl, rfl⟩) h.covers ?_
    have htexts : (t.tagOf tag).texts =
        tag.terminator :: (tag.label.toList ++ (tag.escapes.toList ++ [])) := rfl
    rw [htexts, List.append_nil]
    refine List.forall_mem_cons.mpr ⟨hterminator.trans htext, List.forall_mem_append.mpr ⟨?_, ?_⟩⟩
    · exact fun part hpart => (hlabel part (Option.mem_toList.mp hpart)).trans htext
    · exact fun part hpart => (hescapes part (Option.mem_toList.mp hpart)).trans htext
  refine .of_elements (List.forall_mem_nil _) (List.forall_mem_nil _)
    (List.forall_mem_cons.mpr ⟨htag, List.forall_mem_singleton.mpr ?_⟩)
  refine .of_elements (List.forall_mem_nil _)
    (List.forall_mem_singleton.mpr (.piece hbody.marker.1.isInfix)) fun e he => ?_
  obtain ⟨f, hf, rfl⟩ := List.mem_map.mp (Shape.elements_heredocBody _ _ ▸ he)
  exact (hbody.fragments f hf).quotes (hi f hf)

/-! ## Trees -/

/-- The tokens before the end of an interpolation in a located fragment are in a row. -/
theorem Fragment.Located.row {f : Fragment} {ts : List Token} (hf : f.Located source)
    (hp : f.piece = .interpolation ts) : Token.Row source ts.dropLast := by
  obtain ⟨inside, us, -, hts, hrow, -⟩ := hf.interpolation hp
  rwa [hts, List.dropLast_concat]

/-- What is built from a row of located tokens has its texts from the source. -/
theorem Parse.Built.quotes {ts : List Token} {n : Node} (h : Built ts n) :
    Token.Row source ts → n.Quotes source := by
  induction h with
  | leaf t n _ hleaf _ _ htells =>
    intro hrow
    exact Node.quotes_leaf hleaf (hrow.located t List.mem_cons_self).covers htells.texts
  | string t inner _ _ _ ih =>
    intro hrow
    have ht := hrow.located t List.mem_cons_self
    exact ht.string_quotes fun f hf ts hp => ih f hf ts hp ((ht.fragments f hf).row hp)
  | heredoc t tag b inner _ hb _ _ ih =>
    intro hrow
    have ht := hrow.located t List.mem_cons_self
    exact ht.heredoc_quotes hb fun f hf ts hp =>
      ih f hf ts hp (((ht.body b (Token.mem_body? hb)).1.fragments f hf).row hp)
  | @assembled ts n parts h _ ih =>
    intro hrow
    rw [h.tokens] at hrow
    have hrows := hrow.of_flatMap
    -- The parts are the signs and the elements of the node.
    have hparts : ∀ e ∈ n.tokens.map Leaf.toNode ++ n.shape.elements, e.Quotes source := by
      intro e he
      obtain ⟨p, hp, rfl⟩ := List.mem_map.mp (h.perm.subset he)
      exact ih p hp (hrows p hp)
    obtain ⟨hsigns, helements⟩ := List.forall_mem_append.mp hparts
    refine .of_elements (fun t ht => ?_) (fun l hl => ?_) helements
    · obtain ⟨o, rfl⟩ := h.texts t ht
      exact .operator o
    · exact (hsigns l.toNode (List.mem_map_of_mem hl)).self _ (List.mem_singleton_self _)

/-- The texts of a parsed tree are taken from its source. -/
theorem Node.Parsed.quotes {tokens comments : List Token} {statements : List Segment} {tree : Node}
    (h : Node.Parsed source tokens comments statements tree) : tree.Quotes source := by
  obtain ⟨hrow, hcomments⟩ := Token.scan_row h.scan
  rw [h.segments] at hrow
  have hrows := hrow.of_flatMap
  have htexts : tree.texts = [] := by rw [h.tree]; rfl
  have hsigns : tree.tokens = [] := by rw [h.tree]; rfl
  refine .of_elements (htexts ▸ List.forall_mem_nil _) (hsigns ▸ List.forall_mem_nil _)
    fun e he => ?_
  rw [h.elements] at he
  rcases List.mem_append.mp he with he | he
  · obtain ⟨p, hp, rfl⟩ := List.mem_map.mp he
    exact (h.derives p hp).built.quotes (hrows p hp)
  · obtain ⟨t, ht, rfl⟩ := List.mem_map.mp he
    refine .of_elements ?_ (List.forall_mem_nil _) (List.forall_mem_nil _)
    exact List.forall_mem_singleton.mpr (.piece (hcomments t ht).1.isInfix)

end ManifestTree
