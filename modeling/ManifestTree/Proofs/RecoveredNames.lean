import ManifestTree.Proofs.ToldLeaves

/-!
# Names are recovered from their segments

A name in a tree is stored as its segments and whether it is absolute, and is put together again
from those.  That gives the text of the source where the node stands, but for the dollar sign of a
variable, whichever construct the name is part of.
-/

namespace ManifestTree

open Text

variable {source : Text}

/-! ## Texts under spans -/

/-- The text of a source under a span. -/
def Span.textOf (s : Span) (source : Text) : Text :=
  (source.drop s.start.toNat).take (s.stop - s.start).toNat

theorem Span.Covers.textOf {s : Span} {cs : Text} (h : s.Covers source cs) :
    s.textOf source = cs := by
  obtain ⟨before, after, hsource, hposition⟩ := h.holds
  have hstart : s.start.toNat = before.length := by
    rw [h.start_eq, hposition, Position.start_after, Int.toNat_natCast]
  have hlength : (s.stop - s.start).toNat = cs.length := by
    rw [h.stop_eq, h.start_eq]
    omega
  rw [Span.textOf, hstart, hlength, hsource, List.append_assoc, List.drop_left, List.take_left]

/-- At any depth the tokens of a scan stand where their spans say. -/
theorem Token.scan_covered {tokens comments : List Token}
    (h : Token.scan source = .ok (tokens, comments)) :
    ∀ t ∈ tokens.dropLast.flatMap Token.deepTokens, t.span.Covers source t.text := by
  intro t ht
  obtain ⟨u, hu, ht⟩ := List.mem_flatMap.mp ht
  have hlocated := (Token.scan_row h).1.located u hu
  rcases List.mem_cons.mp ht with rfl | ht
  · exact hlocated.covers
  · obtain ⟨f, hf, ht⟩ := List.mem_flatMap.mp ht
    exact (hlocated.deep f hf).tokens t ht

/-! ## Names of nodes -/

/-- The text is the name of the node, its segments are words, and it is absolute if the text begins
with a double colon. -/
structure Node.IsNamed (m : Node) (text : Text) : Prop where
  name : m.name? = some text
  parts : ∀ form segments absolute, m.shape = .scopedName form segments absolute →
    segments ≠ [] ∧
    (∀ s ∈ segments, s ≠ [] ∧ (∀ c ∈ s, isWord c) ∧ .char ':' ∉ s) ∧
    (absolute = true ↔ [.char ':', .char ':'] <+: text)

/-- A node that is made from a scoped name has it for its name. -/
theorem Lexeme.Scoped.isNamed {text : Text} (h : Lexeme.Scoped text) (s : Span)
    (form : NameForm) : (Node.plain s (.ofName form text)).IsNamed text := by
  obtain ⟨absolute, segments, hne, hsegments, rfl⟩ := h
  rw [Shape.ofName_spelledName form absolute hne hsegments]
  refine ⟨Node.name?_spelledName s form absolute segments, fun form' parts absolute' hshape => ?_⟩
  cases hshape
  refine ⟨hne, fun t ht => ?_, (Lexeme.colons_prefix_spelledName hne hsegments).symm⟩
  obtain ⟨hnonempty, hword⟩ := hsegments t ht
  exact ⟨hnonempty, hword, (hsegments t ht).colon_not_mem⟩

/-- The texts that nodes take from a token for names are scoped names, and the text of the token
but for a dollar sign. -/
theorem Token.Names.scoped {t : Token} {cs : Text} (h : t.Names cs)
    (hs : t.kind.Spells t.text) : Lexeme.Scoped cs ∧ cs = Token.withoutSigil t.text := by
  have word (hk : t.kind.isWord) : Lexeme.Scoped t.text := by
    cases hkind : t.kind with
    | name | reference | keyword =>
      rw [hkind] at hs
      exact hs
    | _ =>
      rw [hkind] at hk
      cases hk
  cases h with
  | word hk => exact ⟨word hk, (word hk).withoutSigil.symm⟩
  | sigil hk =>
    refine ⟨?_, rfl⟩
    rcases hk with hk | hk
    · rw [(word hk).withoutSigil]
      exact word hk
    · rw [hk] at hs
      obtain ⟨name, htext, hname⟩ := hs
      rw [htext]
      exact hname

/-- A node that is told has the name under its span. -/
theorem Token.Told.isNamed {tokens comments : List Token} {m : Node}
    (hscan : Token.scan source = .ok (tokens, comments)) (h : Token.Told tokens.dropLast m)
    {form : NameForm} (hm : m.kind = .scopedName form) :
    m.IsNamed (Token.withoutSigil (m.span.textOf source)) := by
  cases h with
  | token t ht htells =>
    obtain ⟨cs, hnames, rfl⟩ := htells.name form hm
    have hspells := (Token.scan_spelled hscan t
      (Token.flatMap_deepTokens_subset (List.dropLast_subset tokens) ht)).2
    obtain ⟨hscoped, heq⟩ := hnames.scoped hspells
    show (Node.plain t.span _).IsNamed (Token.withoutSigil (t.span.textOf source))
    rw [(Token.scan_covered hscan t ht).textOf, ← heq]
    exact hscoped.isNamed t.span form
  | fragment f hf hp hnode =>
    have hlocated := Token.scan_located hscan f
      (Token.deepAll_subset (List.dropLast_subset tokens) hf)
    obtain ⟨name, htext, hscoped⟩ := (hlocated.regular f f.self_mem_deep).spelled hp
    rw [hnode]
    show (Node.plain f.span _).IsNamed (Token.withoutSigil (f.span.textOf source))
    rw [hlocated.covers.textOf, htext]
    exact hscoped.isNamed f.span .variable

/-- Every identifier, reference and variable of a parsed tree has the text of the source under its
span for its name, without the dollar sign of a variable.  It has segments, each of which is a
non-empty run of word characters without a colon, and it is absolute exactly when that text begins
with a double colon. -/
theorem Node.parse_names {tree : Node} (h : Node.parse source = .ok tree) :
    ∀ m ∈ tree.preorder, ∀ form segments absolute,
      m.shape = .scopedName form segments absolute →
      m.name? = some (Token.withoutSigil (m.span.textOf source)) ∧
      segments ≠ [] ∧
      (∀ s ∈ segments, s ≠ [] ∧ (∀ c ∈ s, isWord c) ∧ .char ':' ∉ s) ∧
      (absolute = true ↔ [.char ':', .char ':'] <+: Token.withoutSigil (m.span.textOf source)) := by
  obtain ⟨tokens, comments, statements, hparsed⟩ := Node.parse_parsed h
  intro m hm form segments absolute hshape
  have hkind : m.kind = .scopedName form := by rw [Node.kind, hshape]; rfl
  have htold : m.kind.isTold := by rw [hkind]; rfl
  have hnamed := (hparsed.toldBelow m hm htold).isNamed hparsed.scan hkind
  exact ⟨hnamed.name, hnamed.parts form segments absolute hshape⟩

/-- A variable in a string and a bare name in an interpolation, both absolute or not, below the call
of a function with a name of two segments. -/
theorem Node.parse_names_interpolated : ∃ source tree,
    source = Text.ofString "a::b(\"$::c::d $\x7bif\x7d\")" ∧ Node.parse source = .ok tree ∧
    (tree.preorder.filterMap Node.name?) =
      ["a::b", "::c::d", "if"].map (fun s => Text.ofString s) ∧
    ∀ m ∈ tree.preorder, ∀ form segments absolute,
      m.shape = .scopedName form segments absolute →
      m.name? = some (Token.withoutSigil (m.span.textOf source)) ∧
      segments ≠ [] ∧
      (∀ s ∈ segments, s ≠ [] ∧ (∀ c ∈ s, isWord c) ∧ .char ':' ∉ s) ∧
      (absolute = true ↔ [.char ':', .char ':'] <+: Token.withoutSigil (m.span.textOf source)) := by
  have hrun : (Node.parse (Text.ofString "a::b(\"$::c::d $\x7bif\x7d\")")).toOption.map
      (fun tree => tree.preorder.filterMap Node.name?) =
        some (["a::b", "::c::d", "if"].map fun s => Text.ofString s) := by cbv
  obtain ⟨tree, hparse, hnames⟩ := exists_ok_of_map hrun
  exact ⟨_, tree, rfl, hparse, hnames, parse_names hparse⟩

end ManifestTree
