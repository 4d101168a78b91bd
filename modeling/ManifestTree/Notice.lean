import ManifestTree.Artifact.Kept
import ManifestTree.Config

/-!
# Notices

What a build and a command report of their progress.  A notice has a level, comes from one of two
sources, and is shown as a line.  Readers of artifacts differ in how they name what is wrong with
one, so that name is a parameter.
-/

namespace ManifestTree

/-- How much a notice matters. -/
inductive NoticeLevel where
  | debug | info | warning
deriving DecidableEq, Repr

def NoticeLevel.word : NoticeLevel → String
  | .debug => "DEBUG"
  | .info => "INFO"
  | .warning => "WARNING"

/-- What is reported. -/
inductive Notice where
  /-- A source with this many characters is parsed. -/
  | parsing (key : Text) (length : Nat)
  /-- The artifact of a source is used in its place. -/
  | reusing (key : Text)
  /-- An artifact was written. -/
  | wrote (artifact : Path)
  /-- An artifact cannot be used. -/
  | ignoring (artifact : Path) (fault : Artifact.ReadFault)
  /-- A project has no configuration. -/
  | usingDefaults (directory : Path)
deriving Repr

namespace Notice

/-- How much a notice matters. -/
def level : Notice → NoticeLevel
  | .parsing _ _ | .reusing _ | .wrote _ => .debug
  | .usingDefaults _ => .info
  | .ignoring _ _ => .warning

def source : Notice → String
  | .usingDefaults _ => "manifest_syntax.cli.main"
  | _ => "manifest_syntax.compiler.build"

def message (describe : Artifact.ReadFault → String) : Notice → String
  | .parsing key length => s!"Parsing {key.asString} ({length} bytes)"
  | .reusing key => s!"Reusing artifact for {key.asString}"
  | .wrote artifact => s!"Wrote artifact {artifact.asString}"
  | .ignoring artifact f =>
    let fault := describe f
    s!"Ignoring unreadable artifact {artifact.asString}: {fault}"
  | .usingDefaults directory =>
    s!"No {Config.fileName} in {directory.asString}; using defaults"

def line (describe : Artifact.ReadFault → String) (n : Notice) : String :=
  let text := n.message describe
  s!"{n.level.word} {n.source}: {text}"

end Notice

end ManifestTree
