import ManifestTree.FileStore
import ManifestTree.Glob.NamePattern

/-!
# Globs

A glob selects paths below a directory, name by name: a name that has to be there, a pattern for
names, or two stars for any number of directories.  `Glob.ofText` reads one and `Glob.select`
follows it in a file store.  A slash at the end asks for directories.
-/

namespace ManifestTree

inductive GlobStep where
  /-- To this name. -/
  | name (n : FileName)
  /-- To every name of a form. -/
  | pattern (parts : List NamePart)
  /-- To the directory itself and every directory below it. -/
  | anyDepth
deriving DecidableEq, Repr

/-- A pattern for paths. -/
structure Glob where
  /-- The steps from a directory on. -/
  steps : List GlobStep
  /-- Select directories alone. -/
  directoriesOnly : Bool
deriving DecidableEq, Repr

namespace Glob

/-! ## Reading -/

/-- Why a text is no glob. -/
inductive Fault where
  /-- It is empty. -/
  | empty
  /-- It starts at the root. -/
  | absolute
  /-- Two stars stand next to something else. -/
  | partialStars
  /-- It has no names and does not end in a slash. -/
  | onlyDots
  /-- It has no names and ends in a slash. -/
  | onlySlashes
deriving DecidableEq, Repr

/-- The star. -/
def star : CodePoint := '*'

/-- Two stars stand next to each other in a text. -/
def hasStars : Text → Bool
  | c :: d :: cs => (c = star && d = star) || hasStars (d :: cs)
  | _ => false

/-- A text holds a character that stands for others. -/
def isPattern (n : FileName) : Bool :=
  n.any fun c => c = star || c = '?' || c = '['

/-- The step that a name spells. -/
def stepOf (n : FileName) : Except Fault GlobStep :=
  if n = [star, star] then .ok .anyDepth
  else if hasStars n then .error .partialStars
  else if isPattern n then .ok (.pattern (NamePart.ofText n))
  else .ok (.name n)

/-- The steps that some names spell. -/
def stepsOf : List FileName → Except Fault (List GlobStep)
  | [] => .ok []
  | n :: names =>
    match stepOf n with
    | .error f => .error f
    | .ok step =>
      match stepsOf names with
      | .error f => .error f
      | .ok steps => .ok (step :: steps)

/-- The glob that a text spells. -/
def ofText (t : Text) : Except Fault Glob :=
  let path := Path.ofText t
  let directoriesOnly := t.getLast? = some (CodePoint.char '/')
  if t.isEmpty then .error .empty
  else if path.anchor ≠ .here then .error .absolute
  else if path.names.isEmpty then .error (if directoriesOnly then .onlySlashes else .onlyDots)
  else
    match stepsOf path.names with
    | .error f => .error f
    | .ok steps => .ok ⟨steps, directoriesOnly⟩

/-! ## Following -/

/-- The paths of a directory and of all directories below it. -/
def directoriesFrom (s : FileStore) (p : Path) : List Path :=
  match s.locate p with
  | .error _ => []
  | .ok l =>
    let below := s.entries.filter fun x => l.isPrefixOf x.1 && x.1 ≠ l && x.2.isDirectory
    p :: below.map fun x => ⟨p.anchor, p.names ++ x.1.drop l.length⟩

/-- A path may be where a step ends: it leads to a directory, or to anything if the step is the
last and asks for no directory. -/
def isReached (s : FileStore) (anything : Bool) (p : Path) : Bool :=
  if anything then s.contains p else s.isDirectory p

/-- The paths to which steps lead from a directory. -/
def follow (s : FileStore) (directoriesOnly : Bool) : List GlobStep → Path → List Path
  | [], p => [p]
  | step :: steps, p =>
    let reached := isReached s (steps.isEmpty && !directoriesOnly)
    let next :=
      match step with
      | .name n => [p.child n].filter reached
      | .pattern parts =>
        (((s.list p).filter (NamePart.admitsName parts)).map p.child).filter reached
      | .anyDepth => directoriesFrom s p
    next.flatMap (follow s directoriesOnly steps)

/-- The paths that a glob selects below a directory. -/
def select (g : Glob) (s : FileStore) (root : Path) : List Path :=
  if s.isDirectory root then follow s g.directoriesOnly g.steps root else []

end Glob

end ManifestTree
