import ManifestTree.Config
import ManifestTree.Glob

/-!
# Discovery

The manifests of a project are selected by the patterns of its configuration, one pattern after the
other.  A pattern to include adds the files that it matches to the selection.  A pattern to exclude
takes what it matches out again, and with a directory everything below it.
-/

namespace ManifestTree

namespace Discovery

/-- Adds a path to a selection if it leads to a file. -/
def add (s : FileStore) (selection : List Path) (p : Path) : List Path :=
  if s.isFile p then selection.insert p else selection

/-- Takes a path out of a selection, or everything below it if it leads to a directory. -/
def remove (s : FileStore) (selection : List Path) (p : Path) : List Path :=
  if s.isDirectory p then selection.filter fun q => !q.isBelow p else selection.erase p

/-- Changes a selection by each path that some patterns match below a directory.  The first pattern
that is no glob makes this fail. -/
def throughPatterns (s : FileStore) (root : Path) (change : List Path → Path → List Path) :
    List Text → List Path → Except Glob.Fault (List Path)
  | [], selection => .ok selection
  | pattern :: patterns, selection =>
    match Glob.ofText pattern with
    | .error f => .error f
    | .ok glob =>
      throughPatterns s root change patterns ((glob.select s root).foldl change selection)

end Discovery

/-- The manifests of a project below a directory, in the order of their paths. -/
def Config.manifests (config : Config) (s : FileStore) (root : Path) :
    Except Glob.Fault (List Path) := do
  let included ← Discovery.throughPatterns s root (Discovery.add s) config.includePatterns []
  let selected ←
    Discovery.throughPatterns s root (Discovery.remove s) config.excludePatterns included
  return selected.mergeSort Path.le

end ManifestTree
