import ManifestTree.Proofs.ArtifactRoundTrip

/-!
# Amended artifacts

An artifact may be amended and still reads back as its manifest: members of undeclared names may be
added to the objects of its elements and spans, and members with the defaults of their fields may be
left out.  Without one of its spans, or a number of one, it holds no tree.
-/

namespace ManifestTree.Artifact

/-- The value of an artifact is the draft of its manifest with the version.  Every text of a value
that this draft may become reads back as the manifest if nothing is lost, and as no tree if a span
or a number of one is. -/
theorem deserialize_amended {m : Node} (hkind : m.kind = .manifest) (hm : m.WellTyped)
    (hstorable : m.Storable) :
    Json.read (serialize m) = some (holding m.draft.json) ∧
    (∀ tree text, m.draft.Becomes 0 tree → Json.read text = some (holding tree) →
      deserialize text = .ok m) ∧
    ∀ lost tree text, m.draft.Becomes (lost + 1) tree → Json.read text = some (holding tree) →
      deserialize text = .error .invalidTree := by
  have hread {lost : ℕ} {tree : Json} {text : List Char} (h : m.draft.Becomes lost tree)
      (htext : Json.read text = some (holding tree)) :
      deserialize text = (Stored.unlessLost lost m).elim (.error .invalidTree) .ok := by
    have htree : Node.ofJson? (.only .manifest) tree = Stored.unlessLost lost m :=
      Node.ofJson?_draft hm h (by rw [hkind]; exact List.mem_singleton_self _)
    unfold deserialize
    rw [htext]
    dsimp only
    rw [ofJson_holding, htree]
  refine ⟨?_, fun tree text h htext => hread h htext, fun lost tree text h htext => hread h htext⟩
  rw [m.draft_json]
  exact read_serialize hm hstorable

/-- A manifest of one comment, written with an unknown name in its span and with signs that a
comment does not have, and without its empty lists; and without the span of the comment. -/
theorem deserialize_amended_comment :
    ∃ m : Node, m = Node.plain ⟨0, 2, 1, 1⟩ (.manifest []
        [Node.plain ⟨0, 1, 1, 1⟩ (.comment (Text.ofString "#"))]) ∧
      (∃ tree, tree = Json.obj [
          ("span", Json.obj [("start", .integer 0), ("file", Json.str "a.pp"), ("end", .integer 2),
            ("line", .integer 1), ("column", .integer 1)]),
          ("kind", Json.str "manifest"),
          ("comments", .array [Json.obj [("span", Span.toJson ⟨0, 1, 1, 1⟩), ("tokens", .null),
            ("kind", Json.str "comment"), ("text", Json.str "#")]])] ∧
        deserialize (holding tree).compact = .ok m) ∧
      ∃ tree, tree = Json.obj [
          ("span", Span.toJson ⟨0, 2, 1, 1⟩), ("kind", Json.str "manifest"),
          ("comments", .array [Json.obj [("kind", Json.str "comment"), ("text", Json.str "#")]])] ∧
        deserialize (holding tree).compact = .error .invalidTree := by
  have hcomment : (Node.plain ⟨0, 1, 1, 1⟩ (.comment (Text.ofString "#"))).WellTyped :=
    .of_elements ⟨.cons trivial .nil, fun _ => rfl⟩ (List.forall_mem_nil _)
  have hm : (Node.plain ⟨0, 2, 1, 1⟩ (.manifest []
      [Node.plain ⟨0, 1, 1, 1⟩ (.comment (Text.ofString "#"))])).WellTyped := by
    refine .of_elements ⟨.cons ?_ (.cons ?_ .nil), fun _ => rfl⟩
      (List.forall_mem_singleton.mpr hcomment)
    · exact List.forall_mem_nil _
    · exact List.forall_mem_singleton.mpr (List.contains_iff_mem.mp rfl)
  have hstorable : (Node.plain ⟨0, 2, 1, 1⟩ (.manifest []
      [Node.plain ⟨0, 1, 1, 1⟩ (.comment (Text.ofString "#"))])).Storable := by
    have htext : (Node.plain ⟨0, 1, 1, 1⟩ (.comment (Text.ofString "#"))).Storable :=
      .of_elements (Node.plain_of_texts
        (List.forall_mem_singleton.mpr (Text.unpaired_ofString "#")) rfl)
        (List.forall_mem_nil _) (List.forall_mem_nil _)
    exact .of_elements (Node.plain_of_texts (List.forall_mem_nil _) rfl) (List.forall_mem_nil _)
      (List.forall_mem_singleton.mpr htext)
  obtain ⟨-, hkept, hlost⟩ := deserialize_amended rfl hm hstorable
  have htext : (Json.str "#").Readable := Text.unpaired_ofString "#"
  refine ⟨_, rfl, ⟨_, rfl, ?_⟩, ⟨_, rfl, ?_⟩⟩
  · refine hkept _ _ ?_ (Json.read_compact (holding_readable ?_))
    · rw [Node.draft_eq]
      refine ⟨_, rfl, .keep ⟨_, rfl, ?_⟩ (.omit rfl (.keep ⟨rfl, rfl⟩ (.omit rfl (.keep ?_ .nil))))⟩
      · exact .keep ⟨rfl, rfl⟩ (.added (by decide) (.keep ⟨rfl, rfl⟩ (.keep ⟨rfl, rfl⟩
          (.keep ⟨rfl, rfl⟩ .nil))))
      · refine ⟨_, rfl, .cons ?_ .nil⟩
        exact ⟨_, rfl, .keep (Span.draft_stays _) (.added (by decide)
          (.keep ⟨rfl, rfl⟩ (.keep ⟨rfl, rfl⟩ .nil)))⟩
    · refine Json.readable_obj (by decide) (List.forall_mem_cons.mpr ⟨?_, List.forall_mem_cons.mpr
        ⟨Text.unpaired_ofString _, List.forall_mem_singleton.mpr ⟨?_, trivial⟩⟩⟩)
      · exact Json.readable_obj (by decide) (List.forall_mem_cons.mpr ⟨trivial,
          List.forall_mem_cons.mpr ⟨Text.unpaired_ofString _, by simp [Json.Readable]⟩⟩)
      · exact Json.readable_obj (by decide) (List.forall_mem_cons.mpr ⟨Span.toJson_readable _,
          List.forall_mem_cons.mpr ⟨trivial, List.forall_mem_cons.mpr
            ⟨Text.unpaired_ofString _, List.forall_mem_singleton.mpr htext⟩⟩⟩)
  · refine hlost 0 _ _ ?_ (Json.read_compact (holding_readable ?_))
    · rw [Node.draft_eq]
      refine ⟨_, rfl, .keep (Span.draft_stays _) (.omit rfl (.keep ⟨rfl, rfl⟩ (.omit rfl ?_)))⟩
      show Draft.Members _ _ (1 + 0 + 0) _
      refine .present (.kept ⟨_, rfl, .cons ?_ .nil⟩) .nil
      refine ⟨_, rfl, ?_⟩
      show Draft.Members _ _ (1 + 0) _
      exact .absent (.deleted rfl) (.keep ⟨rfl, rfl⟩ (.keep ⟨rfl, rfl⟩ .nil))
    · refine Json.readable_obj (by decide) (List.forall_mem_cons.mpr ⟨Span.toJson_readable _,
        List.forall_mem_cons.mpr
          ⟨Text.unpaired_ofString _, List.forall_mem_singleton.mpr ⟨?_, trivial⟩⟩⟩)
      exact Json.readable_obj (by decide) (List.forall_mem_cons.mpr
        ⟨Text.unpaired_ofString _, List.forall_mem_singleton.mpr htext⟩)

end ManifestTree.Artifact
