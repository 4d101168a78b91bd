import ManifestTree.Artifact
import ManifestTree.FileStore
import ManifestTree.Text.FileText

/-!
# Artifacts in files

Where the artifact of a source is kept, and how it is read and written.  `Artifact.location` puts
it below a directory at the key of its source, with the suffix of artifacts at the end.
-/

namespace ManifestTree.Artifact

/-- Where the artifact of the source with a key is kept below a directory. -/
def location (key : Text) (directory : Path) : Path :=
  let pieces := key.betweenSlashes
  let file := pieces.getLastD [] ++ Text.ofString suffix
  ⟨directory.anchor, directory.names ++ pieces.dropLast.filter FileName.isProper ++ [file]⟩

/-- Why a file holds no artifact. -/
inductive ReadFault where
  /-- It is no UTF-8. -/
  | notUtf8 (fault : Utf8.Fault)
  /-- Its text is no artifact. -/
  | notAnArtifact (fault : Fault)
deriving Repr

/-- A fault in words. -/
def ReadFault.message : ReadFault → String
  | .notUtf8 f => f.message
  | .notAnArtifact .notJson => "it is not one JSON value"
  | .notAnArtifact .notAnObject => "it is no JSON object"
  | .notAnArtifact (.unsupportedVersion v) => versionMessage v
  | .notAnArtifact .missingManifest => "it holds no manifest"
  | .notAnArtifact .invalidTree => "it holds no valid tree"

/-- A build can do without an artifact that has this fault.  A value that is no object and an
artifact without a manifest stop a build. -/
def ReadFault.isHarmless : ReadFault → Bool
  | .notAnArtifact .notAnObject | .notAnArtifact .missingManifest => false
  | _ => true

/-- The manifest in the bytes of an artifact. -/
def ofFile (bytes : List UInt8) : Except ReadFault Node :=
  match Text.ofFile bytes with
  | .error f => .error (.notUtf8 f)
  | .ok text =>
    match deserialize text with
    | .error f => .error (.notAnArtifact f)
    | .ok manifest => .ok manifest

/-- The bytes of the artifact of a manifest. -/
def toFile (manifest : Node) : List UInt8 := Utf8.encode (serialize manifest)

end ManifestTree.Artifact
