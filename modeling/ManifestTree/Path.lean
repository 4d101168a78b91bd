import ManifestTree.Text.Order

/-!
# Paths

A path is where it starts and the names from there on.  Empty names and single dots say nothing
and are dropped when a path is read; two dots stay until the path is resolved, since they mean the
parent of whatever directory is reached by then.
-/

namespace ManifestTree

/-- The name of a file or a directory. -/
abbrev FileName := Text

/-- Where a path starts. -/
inductive Anchor where
  /-- In the working directory. -/
  | here
  /-- At the root of the file system. -/
  | root
  /-- At the root, written with two slashes. -/
  | doubledRoot
deriving DecidableEq, Repr

/-- A path in a file system. -/
structure Path where
  /-- Where it starts. -/
  anchor : Anchor
  /-- The names from there on. -/
  names : List FileName
deriving DecidableEq, Repr

/-- The pieces of a text between slashes. -/
def Text.betweenSlashes : Text → List Text
  | [] => [[]]
  | c :: cs =>
    if c = '/' then [] :: betweenSlashes cs
    else
      match betweenSlashes cs with
      | [] => [[c]]
      | piece :: pieces => (c :: piece) :: pieces

namespace FileName

/-- The name for the directory itself. -/
def self : FileName := Text.ofChars ['.']

/-- The name for the parent of a directory. -/
def parent : FileName := Text.ofChars ['.', '.']

/-- A name that leads somewhere. -/
def isProper (n : FileName) : Bool := !n.isEmpty && n ≠ self

end FileName

namespace Path

/-- The working directory. -/
def here : Path := ⟨.here, []⟩

/-- The path that a text spells. -/
def ofText (t : Text) : Path :=
  let slashes := (t.takeWhile fun c => c = .char '/').length
  let anchor :=
    if slashes = 0 then Anchor.here else if slashes = 2 then .doubledRoot else .root
  ⟨anchor, t.betweenSlashes.filter FileName.isProper⟩

def ofString (s : String) : Path := ofText (Text.ofString s)

/-- How the start of a path is written. -/
def anchorText : Anchor → Text
  | .here => []
  | .root => Text.ofChars ['/']
  | .doubledRoot => Text.ofChars ['/', '/']

/-- A path in writing. -/
def text (p : Path) : Text :=
  if p.anchor = .here ∧ p.names = [] then FileName.self
  else anchorText p.anchor ++ (Text.ofChars ['/']).intercalate p.names

def asString (p : Path) : String := p.text.asString

/-- Continues one path by another, which replaces it if it starts at the root. -/
def join (p q : Path) : Path :=
  if q.anchor = .here then ⟨p.anchor, p.names ++ q.names⟩ else q

/-- A name within a directory. -/
def child (p : Path) (n : FileName) : Path := ⟨p.anchor, p.names ++ [n]⟩

/-- The path without its last name. -/
def parent (p : Path) : Path := ⟨p.anchor, p.names.dropLast⟩

/-- A path that leads to or through another. -/
def startsWith (p base : Path) : Bool :=
  p.anchor = base.anchor && base.names.isPrefixOf p.names

/-- A path that leads through another and further. -/
def isBelow (p base : Path) : Bool := p.startsWith base && p.names ≠ base.names

/-- The rest of a path after another that it starts with. -/
def relativeTo? (p base : Path) : Option Path :=
  if p.startsWith base then some ⟨.here, p.names.drop base.names.length⟩ else none

/-- Names without two dots: each takes away the name before it. -/
def settle (names : List FileName) : List FileName :=
  names.foldl (fun reached n => if n = FileName.parent then reached.dropLast else reached ++ [n]) []

/-- A path from the root, without two dots, as seen from a working directory. -/
def resolve (p workingDirectory : Path) : Path := ⟨.root, settle (workingDirectory.join p).names⟩

/-- The order of paths with one start: by their names. -/
def le (p q : Path) : Bool := lexLe Text.le p.names q.names

theorem le_total (p q : Path) : le p q || le q p := lexLe_total Text.le_total p.names q.names

@[simp] theorem parent_child (p : Path) (n : FileName) : (p.child n).parent = p := by
  simp [child, parent]

end Path

end ManifestTree
