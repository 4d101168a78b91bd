import ManifestTree.Artifact.Kept
import ManifestTree.Proofs.ArtifactRoundTrip

/-!
# Artifacts in files read back

The text of an artifact is printable ASCII.  As UTF-8 it has one byte for each character, it holds
no line end, and so the file of an artifact reads back as the manifest it was written for.
-/

namespace ManifestTree

/-! ## ASCII in files -/

/-- An ASCII character is written as one byte and read back from it. -/
theorem Utf8.decodeFrom_ascii {cs : List Char} (h : ∀ c ∈ cs, c.toNat < 0x80) (offset : Nat) :
    decodeFrom offset (encode cs) = .ok cs := by
  induction cs generalizing offset with
  | nil => simp [encode, decodeFrom]
  | cons c cs ih =>
    obtain ⟨hc, hcs⟩ := List.forall_mem_cons.mp h
    have hbyte : c.toNat.toUInt8.toNat = c.toNat := by
      simp only [Nat.toUInt8, UInt8.toNat_ofNat']
      omega
    have hencode : encode (c :: cs) = c.toNat.toUInt8 :: encode cs := by
      simp [encode, encodeChar, hc]
    have hsequence : sequence c.toNat.toUInt8 (encode cs) = .ok (c.toNat, 1) := by
      simp [sequence, hbyte, hc]
    rw [hencode, decodeFrom]
    simp [hsequence, ih hcs]

/-- Printable text is read from a file as it was written. -/
theorem Text.ofFile_encode {cs : List Char} (h : Json.AllPrintable cs) :
    Text.ofFile (Utf8.encode cs) = .ok cs := by
  have hascii : ∀ c ∈ cs, c.toNat < 0x80 := fun c hc => (h c hc).2.trans_lt (by decide)
  have hreturn : '\r' ∉ cs := fun hc => absurd (h _ hc).1 (by decide)
  rw [Text.ofFile, Utf8.decode, Utf8.decodeFrom_ascii hascii]
  exact congrArg Except.ok (Text.unifyLineEnds_eq_self hreturn)

/-! ## Manifests in files -/

namespace Artifact

/-- The file of a parsed tree reads back as the tree. -/
theorem ofFile_toFile {chars : List Char} {tree : Node}
    (hparse : Node.parse (Text.ofChars chars) = .ok tree) : ofFile (toFile tree) = .ok tree := by
  obtain ⟨tokens, comments, statements, h⟩ := Node.parse_parsed hparse
  obtain ⟨hkind, hm⟩ := h.wellTyped
  have hstorable := h.storable (Text.unpaired_ofChars chars)
  have htext : Text.ofFile (toFile tree) = .ok (serialize tree) :=
    Text.ofFile_encode (Json.compact_printable (envelope tree))
  rw [ofFile, htext]
  simp [deserialize_of_storable hkind hm hstorable]

end Artifact

end ManifestTree
