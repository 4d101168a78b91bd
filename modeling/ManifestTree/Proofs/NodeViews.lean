import ManifestTree.Parse.Leaves
import ManifestTree.Proofs.Derivation
import ManifestTree.Proofs.LocatedTokens
import ManifestTree.Proofs.TokenViews
import ManifestTree.Proofs.Walk

/-!
# Views of nodes

A node under a view is the same node with its places looked at through the view.  What single tokens
make is the same under a view of the token, and where a token stands in its source the quotes of a
string do too.
-/

namespace ManifestTree

/-! ## Nodes -/

/-- A sign under a view. -/
def Leaf.seen (v : View) (l : Leaf) : Leaf := ⟨v.span l.span, l.text⟩

/-- The node with another shape, its own places under a view. -/
def Node.reshaped (v : View) (n : Node) (shape : Shape Node) : Node :=
  .mk (v.span n.span) (n.tokens.map (Leaf.seen v)) shape

def Node.seen (v : View) : Node → Node := Node.fold (Node.reshaped v)

/-- A node of a part of a source, where it is in the source. -/
def Node.translate (p : Position) : Node → Node := Node.seen (.within p)

variable {v w : View}

@[simp] theorem Node.fold_reshaped : Node.fold (Node.reshaped v) = Node.seen v := rfl

@[simp] theorem Node.foldList_reshaped (ns : List Node) :
    Node.foldList (Node.reshaped v) ns = ns.map (Node.seen v) := Node.foldList_eq _ ns

@[simp] theorem Node.foldOption_reshaped (o : Option Node) :
    Node.foldOption (Node.reshaped v) o = o.map (Node.seen v) := Node.foldOption_eq _ o

@[simp] theorem Node.foldOptionalList_reshaped (o : Option (List Node)) :
    Node.foldOptionalList (Node.reshaped v) o = o.map (List.map (Node.seen v)) :=
  Node.foldOptionalList_eq _ o

@[simp] theorem Node.seen_mk (s : Span) (ls : List Leaf) (shape : Shape Node) :
    (Node.mk s ls shape).seen v =
      .mk (v.span s) (ls.map (Leaf.seen v)) (Shape.foldNodes (Node.reshaped v) shape) := by
  rw [Node.seen, Node.fold]
  rfl

@[simp] theorem Node.seen_plain_mk (s : Span) (shape : Shape Node) :
    (Node.plain s shape).seen v =
      Node.plain (v.span s) (Shape.foldNodes (Node.reshaped v) shape) := Node.seen_mk s [] shape

@[simp] theorem Node.seen_span (n : Node) : (n.seen v).span = v.span n.span := by
  cases n
  rw [Node.seen_mk]
  rfl

@[simp] theorem Node.seen_kind (n : Node) : (n.seen v).kind = n.kind := by
  cases n with
  | mk s ls shape =>
    rw [Node.seen_mk]
    cases shape <;> rfl

/-- Only the spans in a tree are looked at. -/
theorem Node.seen_congr (h : v.span = w.span) : Node.seen v = Node.seen w := by
  have hreshaped : Node.reshaped v = Node.reshaped w := by
    funext n shape
    have hleaf : Leaf.seen v = Leaf.seen w := by
      funext l
      rw [Leaf.seen, Leaf.seen, h]
    rw [Node.reshaped, Node.reshaped, h, hleaf]
  rw [Node.seen, Node.seen, hreshaped]

/-- Where the spans are looked at as they are, so is the tree. -/
theorem Node.seen_eq_self (hv : v.span = id) (n : Node) : n.seen v = n := by
  have hleaf (l : Leaf) : l.seen v = l := by rw [Leaf.seen, hv, id]
  induction n using Node.elements_induction with
  | _ n ih =>
    obtain ⟨span, leaves, shape⟩ := n
    have hshape : Shape.foldNodes (Node.reshaped v) shape = shape := Shape.foldNodes_eq_self ih
    rw [Node.seen_mk, hshape, hv, List.map_congr_left fun l _ => hleaf l, List.map_id', id]

@[simp] theorem Shape.foldNodes_ofName (form : NameForm) (cs : Text) :
    Shape.foldNodes (Node.reshaped v) (.ofName form cs) = .ofName form cs := by
  obtain ⟨segments, absolute, h⟩ := @Shape.ofName_eq Node form cs
  rw [h]
  rfl

/-! ## Single tokens -/

namespace Token

@[simp] theorem seen_leaf (t : Token) : (t.seen v).leaf = t.leaf.seen v := by
  simp [leaf, Leaf.seen]

@[simp] theorem seen_identifier (t : Token) : (t.seen v).identifier = t.identifier.seen v := by
  simp [identifier]

@[simp] theorem seen_referenceIdentifier (t : Token) :
    (t.seen v).referenceIdentifier = t.referenceIdentifier.seen v := by
  simp [referenceIdentifier]

@[simp] theorem seen_variableNode (t : Token) :
    (t.seen v).variableNode = t.variableNode.seen v := by
  simp [variableNode]

@[simp] theorem seen_bareword (t : Token) : (t.seen v).bareword = t.bareword.seen v := by
  simp [bareword, Shape.foldNodes]

@[simp] theorem seen_named (t : Token) (place : BarewordPlace) :
    (t.seen v).named place = (t.named place).seen v := by
  unfold named
  rw [seen_text]
  split
  · exact t.seen_identifier
  · exact t.seen_bareword

@[simp] theorem seen_regexNode (t : Token) : (t.seen v).regexNode = t.regexNode.seen v := by
  simp [regexNode, Shape.foldNodes]

@[simp] theorem seen_defaultNode (t : Token) : (t.seen v).defaultNode = t.defaultNode.seen v := by
  simp [defaultNode, Shape.foldNodes]

theorem seen_fragments_eq (t : Token) : (t.seen v).fragments = t.fragments.map (Fragment.seen v) := by
  obtain ⟨kind, text, span, d⟩ := t
  cases d with
  | plain => rfl
  | fragments fs => exact Fragment.seenAll_eq_map v fs
  | heredoc tag body => cases body <;> rfl

end Token

@[simp] theorem Leaf.seen_toNode (l : Leaf) : (l.seen v).toNode = l.toNode.seen v := by
  simp [toNode, Leaf.seen, Shape.foldNodes]

namespace Fragment

@[simp] theorem seen_text (f : Fragment) : (f.seen v).text = f.text := by
  cases f
  rfl

@[simp] theorem seen_span (f : Fragment) : (f.seen v).span = v.span f.span := by
  cases f
  rfl

@[simp] theorem seen_piece (f : Fragment) : (f.seen v).piece = f.piece.seen v := by
  cases f
  rfl

@[simp] theorem seen_value (f : Fragment) : (f.seen v).value = f.value := by
  obtain ⟨text, span, piece⟩ := f
  cases piece <;> rfl

end Fragment

namespace HeredocBody

@[simp] theorem seen_span (b : HeredocBody) : (b.seen v).span = v.span b.span := by
  cases b
  rfl

@[simp] theorem seen_marker (b : HeredocBody) : (b.seen v).marker = b.marker.seen v := by
  cases b
  rfl

@[simp] theorem seen_trim (b : HeredocBody) : (b.seen v).trim = b.trim := by
  cases b
  rfl

theorem seen_fragments_eq (b : HeredocBody) :
    (b.seen v).fragments = b.fragments.map (Fragment.seen v) := by
  cases b
  exact Fragment.seenAll_eq_map v _

end HeredocBody

/-! ## Where spans are translated -/

namespace Span

variable {p : Position} {a b : Span}

@[simp] theorem translate_join : (a.join b).translate p = (a.translate p).join (b.translate p) := rfl

/-- A part that begins where the source does has the places of the source. -/
theorem translate_start_eq_id : Span.translate Position.start = id := by
  funext s
  obtain ⟨start, stop, line, column⟩ := s
  simp only [Span.translate, Position.start, Span.mk.injEq, id_eq]
  refine ⟨by simp, by simp, by simp, ?_⟩
  split <;> simp

end Span

/-- A view under which all places from an offset on move together. -/
structure View.Moves (v : View) (first : Nat) (move : Position → Position) (shift : Int) :
    Prop where
  join : ∀ a b : Span, v.span (a.join b) = (v.span a).join (v.span b)
  start : ∀ {s : Span}, first ≤ s.start → (v.span s).start = s.start + shift
  stop : ∀ s : Span, (v.span s).stop = s.stop + shift
  sized : ∀ {p : Position}, p.Counted → first ≤ p.offset → ∀ n,
    v.span (Span.sized p n) = Span.sized (move p) n
  after : ∀ {p : Position}, p.Counted → first ≤ p.offset → ∀ cs, move (p.after cs) = (move p).after cs

theorem View.Moves.translate {p : Position} (hv : v.span = Span.translate p) :
    v.Moves 0 p.translate p.offset where
  join a b := by rw [hv, Span.translate_join]
  start _ := by rw [hv, Span.translate_start, Int.add_comm]
  stop s := by rw [hv, Span.translate_stop, Int.add_comm]
  sized hp _ n := by rw [hv, hp.translate_sized]
  after hp _ cs := hp.translate_after cs

/-- A source from an offset on. -/
structure Tract where
  source : Text
  first : Nat

/-- The fragment stands in its source, from the offset on with everything within it. -/
structure Fragment.LiesIn (k : Tract) (f : Fragment) : Prop where
  located : f.Located k.source
  begins : ∀ g ∈ f.deep, k.first ≤ g.span.start

/-- The token stands in its source, from the offset on with everything within it. -/
structure Token.LiesIn (k : Tract) (t : Token) : Prop where
  located : t.Located k.source
  begins : k.first ≤ t.span.start
  deep : ∀ f ∈ t.deepFragments, k.first ≤ f.span.start

namespace Token

variable {k : Tract} {t : Token}

/-- From the start of a source on stands all that stands in it. -/
theorem Located.liesIn {source : Text} (h : t.Located source) : t.LiesIn ⟨source, 0⟩ where
  located := h
  begins := h.covers.correct.starts
  deep f hf := (h.deep f hf).covers.correct.starts

theorem LiesIn.fragments (h : t.LiesIn k) : ∀ f ∈ t.fragments, f.LiesIn k := fun f hf =>
  ⟨h.located.fragments f hf, fun g hg => h.deep g (deep_subset hf hg)⟩

theorem LiesIn.body (h : t.LiesIn k) : ∀ b ∈ t.body?, ∀ f ∈ b.fragments, f.LiesIn k :=
  fun b hb f hf => ⟨(h.located.body b hb).1.fragments f hf,
    fun g hg => h.deep g (body_deep_subset hb hf hg)⟩

end Token

/-- The tokens of an interpolation stand where it does, and so does its closing brace. -/
theorem Fragment.LiesIn.interpolation {k : Tract} {f : Fragment} {ts : List Token}
    (h : f.LiesIn k) (hp : f.piece = .interpolation ts) :
    ∃ us q, ts = us ++ [Token.endAt q] ∧ (∀ t ∈ us, t.LiesIn k) ∧ q.Counted ∧
      k.first ≤ q.offset := by
  obtain ⟨inside, us, -, hts, hrow, hend, hwithin⟩ := h.located.interpolation hp
  have hstart := h.located.covers.start_eq
  have hfirst := h.begins f f.self_mem_deep
  refine ⟨us, _, hts, fun t ht => ⟨hrow.located t ht, ?_, fun g hg => h.begins g ?_⟩, ?_, ?_⟩
  · have := (hwithin t ht).1
    omega
  · refine Fragment.deepFragments_subset (t := t) ?_ hg
    rw [Fragment.tokens, hp, hts]
    exact List.mem_append_left _ ht
  · obtain ⟨before, after, -, hplace⟩ := h.located.covers.holds
    rw [hplace]
    exact (Position.counted_start.after before).after _
  · rw [Position.after_offset]
    omega

/-- Where a span takes characters of a source, its place moves with it. -/
theorem Span.Covers.position_seen {source cs : Text} {s : Span} {first : Nat}
    {move : Position → Position} {shift : Int} (h : s.Covers source cs) (hfirst : first ≤ s.start)
    (hv : v.Moves first move shift) :
    s.position.Counted ∧ first ≤ s.position.offset ∧
      v.span s = (Span.sized (move s.position) 0).join (v.span s) := by
  obtain ⟨before, after, -, hp⟩ := h.holds
  have hcounted : s.position.Counted := hp ▸ Position.counted_start.after before
  have hstart := h.start_eq
  have hoffset : first ≤ s.position.offset := by omega
  refine ⟨hcounted, hoffset, ?_⟩
  have hself : s = (Span.sized s.position 0).join s := by
    conv_lhs => rw [h.placed]
    rw [h.placed]
    rfl
  conv_lhs => rw [hself, hv.join, hv.sized hcounted hoffset]

/-- The first characters of a span move as it does. -/
theorem Span.Covers.opening_seen {source cs : Text} {s : Span} {first : Nat}
    {move : Position → Position} {shift : Int} (h : s.Covers source cs) (hfirst : first ≤ s.start)
    (hv : v.Moves first move shift) (n : Nat) :
    v.span ⟨s.start, s.start + n, s.line, s.column⟩ =
      ⟨(v.span s).start, (v.span s).start + n, (v.span s).line, (v.span s).column⟩ := by
  obtain ⟨hcounted, hoffset, hspan⟩ := h.position_seen hfirst hv
  have hsized : (⟨s.start, s.start + n, s.line, s.column⟩ : Span) = Span.sized s.position n := by
    rw [h.placed]
    rfl
  rw [hsized, hv.sized hcounted hoffset, hspan]
  rfl

/-- Where a token stands in its source, its place moves as its span does. -/
theorem Token.LiesIn.position_seen {k : Tract} {t : Token} {move : Position → Position}
    {shift : Int} (h : t.LiesIn k) (hv : v.Moves k.first move shift) :
    t.position.Counted ∧ k.first ≤ t.position.offset ∧ (t.seen v).position = move t.position := by
  obtain ⟨hcounted, hoffset, hspan⟩ := h.located.covers.position_seen h.begins hv
  refine ⟨hcounted, hoffset, ?_⟩
  show (t.seen v).span.position = move t.span.position
  rw [Token.seen_span, hspan]
  rfl

end ManifestTree
