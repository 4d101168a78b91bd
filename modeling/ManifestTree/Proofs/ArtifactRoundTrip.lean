import ManifestTree.Artifact
import ManifestTree.Proofs.Conformance
import ManifestTree.Proofs.DraftReads

/-!
# Artifacts read back

The text of an artifact reads back as the JSON value it was written from, the value names the
version and the manifest, and the stored form of a well-typed manifest reads back as the manifest.
The tree of a source without a pair of surrogates meets the conditions, so it is not lost in its
artifact.
-/

namespace ManifestTree

open Parse Text

namespace Artifact

/-- A stored tree with the version of the format. -/
def holding (tree : Json) : Json := Json.obj [("v", Json.str version), ("manifest", tree)]

theorem holding_names (tree : Json) :
    ([("v", Json.str version), ("manifest", tree)].map Prod.fst).Nodup := by
  show ["v", "manifest"].Nodup
  decide

theorem holding_readable {tree : Json} (h : tree.Readable) : (holding tree).Readable := by
  apply Json.readable_obj (holding_names tree)
  exact List.forall_mem_cons.mpr ⟨Text.unpaired_ofString version, List.forall_mem_singleton.mpr h⟩

/-- The version and the tree are found by their names. -/
theorem ofJson_holding (tree : Json) :
    ofJson (holding tree) =
      (Node.ofJson? (.only .manifest) tree).elim (.error .invalidTree) .ok := by
  have hversion : Stored.member? "v" (holding tree) = some (Json.str version) :=
    Stored.member?_obj (holding_names tree) List.mem_cons_self
  have hmanifest : Stored.member? "manifest" (holding tree) = some tree :=
    Stored.member?_obj (holding_names tree) (List.mem_cons_of_mem _ (List.mem_singleton_self _))
  have hsupported : isSupported (Json.str version) = true := by decide
  obtain ⟨ms, hms⟩ : ∃ ms, holding tree = .object ms := ⟨_, rfl⟩
  rw [hms] at hversion hmanifest ⊢
  unfold ofJson
  simp only [hversion, hmanifest, Option.getD_some, hsupported]
  cases Node.ofJson? (.only .manifest) tree <;> rfl

theorem read_serialize {m : Node} (hm : m.WellTyped) (hstorable : m.Storable) :
    Json.read (serialize m) = some (holding m.toJson) :=
  Json.read_compact (holding_readable (m.toJson_readable hm hstorable))

theorem deserialize_of_storable {m : Node} (hkind : m.kind = .manifest) (hm : m.WellTyped)
    (hstorable : m.Storable) : deserialize (serialize m) = .ok m := by
  have htree : Node.ofJson? (.only .manifest) m.toJson = some m :=
    Node.ofJson?_toJson hm (by rw [hkind]; exact List.mem_singleton_self _)
  unfold deserialize
  rw [read_serialize hm hstorable]
  dsimp only
  rw [ofJson_holding, htree]
  rfl

/-- The artifact of a well-typed manifest is printable ASCII, and reads back as the manifest if no
text in it has a high surrogate in front of a low one and no double in it is the one that is no
number.  Every parsed tree is a well-typed manifest without such a double, and its texts have no
such pair if the source has none. -/
theorem round_trip :
    (∀ m : Node, m.kind = .manifest → m.WellTyped → m.Storable →
      deserialize (serialize m) = .ok m) ∧
    (∀ m : Node, Json.AllPrintable (serialize m)) ∧
    ∀ source tree, Node.parse source = .ok tree →
      (tree.kind = .manifest ∧ tree.WellTyped ∧
        ∀ n ∈ tree.preorder, ∀ r ∈ n.reals, r ≠ .nan) ∧
      (source.Unpaired → tree.Storable ∧ deserialize (serialize tree) = .ok tree) := by
  refine ⟨fun m hkind hm hstorable => deserialize_of_storable hkind hm hstorable,
    fun m => Json.compact_printable (envelope m), fun source tree hparse => ?_⟩
  obtain ⟨tokens, comments, statements, h⟩ := Node.parse_parsed hparse
  obtain ⟨hkind, hm⟩ := h.wellTyped
  refine ⟨⟨hkind, hm, h.reals⟩, fun hs => ?_⟩
  have hstorable := h.storable hs
  exact ⟨hstorable, deserialize_of_storable hkind hm hstorable⟩

/-- A manifest of an infinite literal and a comment of two lone surrogates, and the tree of an
assignment of a string with the two. -/
theorem round_trip_surrogates :
    (∃ m : Node, m = Node.plain ⟨0, 1, 1, 1⟩ (.manifest
        [Node.plain ⟨0, 1, 1, 1⟩ (.float (.infinite false))]
        [Node.plain ⟨0, 1, 1, 1⟩ (.comment [.surrogate 0x400, .surrogate 0])]) ∧
      deserialize (serialize m) = .ok m ∧ Json.AllPrintable (serialize m)) ∧
    ∃ source tree, source =
        Text.ofString "$a = \"" ++ [.surrogate 0x400, .surrogate 0] ++ Text.ofString "\"\n" ∧
      Node.parse source = .ok tree ∧ tree.preorder.length = 8 ∧
      deserialize (serialize tree) = .ok tree := by
  refine ⟨⟨_, rfl, round_trip.1 _ rfl ?_ ?_, round_trip.2.1 _⟩, ?_⟩
  · have hliteral : (Node.plain ⟨0, 1, 1, 1⟩ (.float (.infinite false))).WellTyped :=
      .of_elements ⟨.cons trivial .nil, fun _ => rfl⟩ (List.forall_mem_nil _)
    have hcomment : (Node.plain ⟨0, 1, 1, 1⟩
        (.comment [.surrogate 0x400, .surrogate 0])).WellTyped :=
      .of_elements ⟨.cons trivial .nil, fun _ => rfl⟩ (List.forall_mem_nil _)
    refine .of_elements ⟨.cons ?_ (.cons ?_ .nil), fun _ => rfl⟩
      (List.forall_mem_cons.mpr ⟨hliteral, List.forall_mem_singleton.mpr hcomment⟩)
    · exact List.forall_mem_singleton.mpr (List.contains_iff_mem.mp rfl)
    · exact List.forall_mem_singleton.mpr (List.contains_iff_mem.mp rfl)
  · have hliteral : (Node.plain ⟨0, 1, 1, 1⟩ (.float (.infinite false))).Storable := by
      refine .of_elements ⟨List.forall_mem_nil _, ?_⟩ (List.forall_mem_nil _)
        (List.forall_mem_nil _)
      exact List.forall_mem_singleton.mpr fun h => by cases h
    have hcomment : (Node.plain ⟨0, 1, 1, 1⟩
        (.comment [.surrogate 0x400, .surrogate 0])).Storable := by
      have hpair : Text.Unpaired [.surrogate 0x400, .surrogate 0] := by decide
      exact .of_elements (Node.plain_of_texts (List.forall_mem_singleton.mpr hpair) rfl)
        (List.forall_mem_nil _) (List.forall_mem_nil _)
    exact .of_elements (Node.plain_of_texts (List.forall_mem_nil _) rfl) (List.forall_mem_nil _)
      (List.forall_mem_cons.mpr ⟨hliteral, List.forall_mem_singleton.mpr hcomment⟩)
  · have hrun : (Node.parse
        (Text.ofString "$a = \"" ++ [.surrogate 0x400, .surrogate 0] ++
            Text.ofString "\"\n")).toOption.map
          (fun tree => tree.preorder.length) = some 8 := by cbv
    obtain ⟨tree, hparse, hlength⟩ := exists_ok_of_map hrun
    have hs : Text.Unpaired
        (Text.ofString "$a = \"" ++ [.surrogate 0x400, .surrogate 0] ++ Text.ofString "\"\n") := by
      decide
    exact ⟨_, tree, rfl, hparse, hlength, ((round_trip.2.2 _ tree hparse).2 hs).2⟩

/-- A string of a high and a low surrogate: its tree has this text for the content of the string,
and the artifact of the tree reads back with the one code point that the pair stands for. -/
theorem round_trip_pair : ∃ tree,
    Node.parse [doubleQuote, .surrogate 0x3D, .surrogate 0x600, doubleQuote] = .ok tree ∧
      ¬ tree.Storable ∧ deserialize (serialize tree) ≠ .ok tree := by
  let fragments (m : Node) : List Text :=
    m.shape.elements.flatMap fun n => n.shape.elements.flatMap Node.texts
  have hrun :
      (Node.parse [doubleQuote, .surrogate 0x3D, .surrogate 0x600, doubleQuote]).toOption.map
      (fun tree => (fragments tree, (deserialize (serialize tree)).toOption.map fragments)) =
      some ([[.surrogate 0x3D, .surrogate 0x600]], some [[.char (Char.ofNat 0x1F600)]]) := by
    decide +kernel
  obtain ⟨tree, hparse, htexts⟩ := exists_ok_of_map hrun
  have hlost : deserialize (serialize tree) ≠ .ok tree := by
    intro h
    rw [h] at htexts
    obtain ⟨hkept, hread⟩ := Prod.mk.inj htexts
    have := hkept.symm.trans (Option.some.inj hread)
    exact absurd this (by decide)
  obtain ⟨tokens, comments, statements, h⟩ := Node.parse_parsed hparse
  obtain ⟨hkind, hm⟩ := h.wellTyped
  exact ⟨tree, hparse, fun hstorable => hlost (deserialize_of_storable hkind hm hstorable), hlost⟩

end Artifact

end ManifestTree
