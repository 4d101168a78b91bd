import ManifestTree.FileStore
import ManifestTree.Text.Classes

/-!
# Listings of files

A listing names the directories and files of a tree, one a line: the letter `d` or `f`, the time of
the last change in seconds, maybe with a fraction, and the path from the root.
`FileStore.ofListing` is the tree that a listing and the contents of its files describe.

A time stands for what `stat` answers for a file, of which only the order counts.  Where `stat`
rounds, files changed shortly after each other have the same time.
-/

namespace ManifestTree

/-- A directory or file in a listing. -/
structure Listed where
  /-- It is a directory. -/
  isDirectory : Bool
  /-- When it was last changed: a number that keeps the order of what `stat` answers. -/
  modified : Int
  /-- Where it is. -/
  path : Path
deriving DecidableEq, Repr

namespace Listed

/-- The number in some decimal digits. -/
def decimal? (cs : List Char) : Option Nat :=
  if cs.isEmpty then none
  else cs.foldl (fun n (c : Char) => do return (← n) * 10 + (← Text.decimalValue? c)) (some 0)

/-- Seconds with a fraction of at most nine digits, as a whole number. -/
def time? (cs : List Char) : Option Int := do
  let seconds := cs.takeWhile (· ≠ '.')
  let fraction := (cs.drop (seconds.length + 1)).take 9
  let whole ← decimal? seconds
  let part ← decimal? (fraction ++ List.replicate (9 - fraction.length) '0')
  return (whole * Nat.pow 10 9 + part : Nat)

def ofLine? (line : List Char) : Option Listed := do
  let letter ← line.head?
  let rest := line.drop 2
  let time := rest.takeWhile (· ≠ ' ')
  let path := Path.ofText (Text.ofChars (rest.drop (time.length + 1)))
  if letter = 'd' || letter = 'f' then
    return ⟨letter = 'd', ← time? time, path⟩
  else none

end Listed

namespace FileStore

/-- Adds the directories on the way to a location that are not there. -/
def withAncestors (s : FileStore) (l : Location) : FileStore :=
  (List.range l.length).foldl (fun s n =>
    if (s.find? (l.take n)).isSome then s else s.put (l.take n) (.directory 0)) s

/-- Adds what a listing names, with the contents that it has if it is a file. -/
def addListed (s : FileStore) (item : Listed) (bytes : List UInt8) : FileStore :=
  let entry := if item.isDirectory then Entry.directory item.modified
    else .file bytes item.modified
  let s := (s.withAncestors item.path.names).put item.path.names entry
  { s with clock := max s.clock (item.modified + 1) }

/-- The tree that a listing and the contents of its files describe.  Its clock is past all times in
the listing. -/
def ofListing (workingDirectory : Path) (items : List (Listed × List UInt8)) : FileStore :=
  let start : FileStore := ⟨[], workingDirectory.names, 0⟩
  let here := workingDirectory.names
  let start := (start.withAncestors here).put here (.directory 0)
  items.foldl (fun s item => s.addListed item.1 item.2) start

/-- The files of a tree that differ from those of another, with their contents. -/
def filesChangedFrom (s before : FileStore) : List (Path × List UInt8) :=
  s.entries.filterMap fun x =>
    match x.2 with
    | .file bytes _ => if before.find? x.1 = some x.2 then none else some (⟨.root, x.1⟩, bytes)
    | .directory _ => none

end FileStore

end ManifestTree
