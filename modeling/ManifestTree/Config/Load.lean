import ManifestTree.Config
import ManifestTree.FileStore
import ManifestTree.Text.FileText

/-!
# Loading a configuration

Reads the configuration of a project from a file.  Messages name the file by its path.
-/

namespace ManifestTree.Config

/-- Why a configuration cannot be loaded. -/
inductive LoadFault where
  /-- There is no file. -/
  | notFound
  /-- The file cannot be read. -/
  | unreadable (error : AccessError)
  /-- The file is no UTF-8. -/
  | notUtf8 (fault : Utf8.Fault)
  /-- The file holds no configuration. -/
  | invalid (fault : Fault)
deriving DecidableEq, Repr

/-- The message for a configuration at a path that cannot be loaded, if it has one. -/
def LoadFault.message? (path : Path) : LoadFault → Option Text
  | .notFound => some (Text.ofString "Config file not found: " ++ path.text)
  | .unreadable e => some (Text.ofString s!"Cannot read config file: {e.message}")
  | .notUtf8 _ => none
  | .invalid f => f.message? path.text

/-- Loads the configuration at a path. -/
def load (s : FileStore) (path : Path) : Except LoadFault Config :=
  match s.read path with
  | .error .missing => .error .notFound
  | .error f => .error (.unreadable ⟨f, path⟩)
  | .ok bytes =>
    match Text.ofFile bytes with
    | .error f => .error (.notUtf8 f)
    | .ok text =>
      match parse text with
      | .error f => .error (.invalid f)
      | .ok config => .ok config

end ManifestTree.Config
