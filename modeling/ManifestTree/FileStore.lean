import ManifestTree.Path
import ManifestTree.Text.Quoted

/-!
# File stores

A `FileStore` is a tree of directories and files, each with the time at which it was last changed,
together with a working directory and a clock.  Entries are kept by their location, the names from
the root on.  A path is followed name by name, so two dots lead to the parent of the directory
that is reached, and what is missing on the way makes the whole path fail.

Every operation that fails leaves the store as it is, apart from `makeDirectories`, which keeps
the directories made before it failed.
-/

namespace ManifestTree

/-- Where an entry is: the names from the root on. -/
abbrev Location := List FileName

inductive Entry where
  | directory (modified : Int)
  | file (bytes : List UInt8) (modified : Int)
deriving DecidableEq, Repr

namespace Entry

/-- When the entry was last changed. -/
def modified : Entry → Int
  | .directory t => t
  | .file _ t => t

/-- The entry, last changed at another time. -/
def changedAt (t : Int) : Entry → Entry
  | .directory _ => .directory t
  | .file bytes _ => .file bytes t

def isDirectory : Entry → Bool
  | .directory _ => true
  | .file _ _ => false

/-- How many bytes a directory is said to have. -/
def directorySize : Nat := 4096

/-- How many bytes an entry is said to have. -/
def size : Entry → Nat
  | .directory _ => directorySize
  | .file bytes _ => bytes.length

end Entry

/-- Why a path cannot be used. -/
inductive AccessFault where
  /-- Nothing is there. -/
  | missing
  /-- Something is there already. -/
  | alreadyThere
  /-- The path leads through a file. -/
  | notADirectory
  /-- The path leads to a directory. -/
  | isADirectory
deriving DecidableEq, Repr

namespace AccessFault

/-- The number of a fault. -/
def number : AccessFault → Nat
  | .missing => 2
  | .alreadyThere => 17
  | .notADirectory => 20
  | .isADirectory => 21

/-- A fault in words. -/
def phrase : AccessFault → String
  | .missing => "No such file or directory"
  | .alreadyThere => "File exists"
  | .notADirectory => "Not a directory"
  | .isADirectory => "Is a directory"

end AccessFault

/-- A path that cannot be used, and why. -/
structure AccessError where
  /-- Why not. -/
  fault : AccessFault
  /-- The path. -/
  path : Path
deriving DecidableEq, Repr

/-- The message for a path that cannot be used. -/
def AccessError.message (e : AccessError) : String :=
  s!"[Errno {e.fault.number}] {e.fault.phrase}: {Text.quotedString e.path.text}"

/-- Directories and files. -/
structure FileStore where
  /-- What there is, apart from the root, by location. -/
  entries : List (Location × Entry)
  /-- Where paths start that do not start at the root. -/
  workingDirectory : Location
  /-- The time. -/
  clock : Int
deriving DecidableEq, Repr

namespace FileStore

/-! ## Entries -/

/-- The entry at a location.  The root is always a directory. -/
def find? (s : FileStore) (l : Location) : Option Entry :=
  match l with
  | [] => some (.directory 0)
  | _ => s.entries.lookup l

/-- Sets the entry at a location. -/
def put (s : FileStore) (l : Location) (e : Entry) : FileStore :=
  { s with entries := (l, e) :: s.entries.filter fun x => x.1 ≠ l }

/-- Takes away the entry at a location. -/
def erase (s : FileStore) (l : Location) : FileStore :=
  { s with entries := s.entries.filter fun x => x.1 ≠ l }

/-- Marks the directory at a location as changed now. -/
def stamp (s : FileStore) (l : Location) : FileStore :=
  { s with entries :=
      s.entries.map fun x =>
        if x.1 = l ∧ x.2.isDirectory then (x.1, x.2.changedAt s.clock) else x }

/-- The names in the directory at a location. -/
def namesIn (s : FileStore) (l : Location) : List FileName :=
  s.entries.filterMap fun x => if x.1.dropLast = l then x.1.getLast? else none

def isDirectoryAt (s : FileStore) (l : Location) : Bool :=
  (s.find? l).any Entry.isDirectory

/-! ## Following paths -/

/-- Follows names from a location on. -/
def follow (s : FileStore) (l : Location) : List FileName → Except AccessFault Location
  | [] => .ok l
  | n :: names =>
    if !s.isDirectoryAt l then .error .notADirectory
    else if n = FileName.parent then s.follow l.dropLast names
    else if (s.find? (l ++ [n])).isSome then s.follow (l ++ [n]) names
    else .error .missing

/-- The location where a path starts. -/
def startOf (s : FileStore) (p : Path) : Location :=
  if p.anchor = .here then s.workingDirectory else []

/-- The location to which a path leads. -/
def locate (s : FileStore) (p : Path) : Except AccessFault Location :=
  s.follow (s.startOf p) p.names

/-- The location that a path names for something new or something there. -/
def place (s : FileStore) (p : Path) : Except AccessFault Location :=
  match p.names.getLast? with
  | none => s.locate p
  | some n =>
    match s.locate p.parent with
    | .error f => .error f
    | .ok l =>
      if !s.isDirectoryAt l then .error .notADirectory
      else .ok (if n = FileName.parent then l.dropLast else l ++ [n])

/-- The entry to which a path leads. -/
def status (s : FileStore) (p : Path) : Except AccessFault Entry :=
  match s.locate p with
  | .error f => .error f
  | .ok l =>
    match s.find? l with
    | some e => .ok e
    | none => .error .missing

/-- A path leads to something. -/
def contains (s : FileStore) (p : Path) : Bool := (s.status p).toOption.isSome

/-- A path leads to a file. -/
def isFile (s : FileStore) (p : Path) : Bool :=
  (s.status p).toOption.any fun e => !e.isDirectory

/-- A path leads to a directory. -/
def isDirectory (s : FileStore) (p : Path) : Bool :=
  (s.status p).toOption.any Entry.isDirectory

/-- The names in the directory to which a path leads. -/
def list (s : FileStore) (p : Path) : List FileName :=
  match s.locate p with
  | .ok l => s.namesIn l
  | .error _ => []

/-- A path from the root, without two dots. -/
def resolve (s : FileStore) (p : Path) : Path := p.resolve ⟨.root, s.workingDirectory⟩

/-! ## Reading and writing -/

/-- The bytes of the file to which a path leads. -/
def read (s : FileStore) (p : Path) : Except AccessFault (List UInt8) :=
  match s.status p with
  | .error f => .error f
  | .ok (.directory _) => .error .isADirectory
  | .ok (.file bytes _) => .ok bytes

/-- Writes a file, which is then last changed now. -/
def write (s : FileStore) (p : Path) (bytes : List UInt8) : Except AccessFault FileStore :=
  match s.place p with
  | .error f => .error f
  | .ok l =>
    match s.find? l with
    | some (.directory _) => .error .isADirectory
    | some (.file _ _) => .ok (s.put l (.file bytes s.clock))
    | none => .ok ((s.put l (.file bytes s.clock)).stamp l.dropLast)

/-- Sets the time at which something was last changed. -/
def setModified (s : FileStore) (p : Path) (t : Int) : Except AccessFault FileStore :=
  match s.locate p with
  | .error f => .error f
  | .ok l =>
    match s.find? l with
    | some e => .ok (s.put l (e.changedAt t))
    | none => .error .missing

/-- Takes away a file. -/
def remove (s : FileStore) (p : Path) : Except AccessFault FileStore :=
  match s.locate p with
  | .error f => .error f
  | .ok l =>
    match s.find? l with
    | some (.file _ _) => .ok ((s.erase l).stamp l.dropLast)
    | some (.directory _) => .error .isADirectory
    | none => .error .missing

def makeDirectory (s : FileStore) (p : Path) : Except AccessFault FileStore :=
  match s.place p with
  | .error f => .error f
  | .ok l =>
    match s.find? l with
    | some _ => .error .alreadyThere
    | none => .ok ((s.put l (.directory s.clock)).stamp l.dropLast)

/-- A store and how an attempt to change it failed, if it did. -/
structure Attempt where
  /-- The store after the attempt. -/
  store : FileStore
  /-- How it failed. -/
  error? : Option AccessError
deriving DecidableEq, Repr

/-- An attempt that a directory is at a path, which changes nothing if one is. -/
def ensureDirectory (s : FileStore) (p : Path) : Attempt :=
  match s.makeDirectory p with
  | .ok s => ⟨s, none⟩
  | .error f => if s.isDirectory p then ⟨s, none⟩ else ⟨s, some ⟨f, p⟩⟩

/-- Makes a directory and all above it that are missing. -/
def makeDirectories (s : FileStore) (p : Path) : Attempt :=
  match s.makeDirectory p with
  | .error .missing =>
    if _ : p.names = [] then ⟨s, some ⟨.missing, p⟩⟩
    else
      match s.makeDirectories p.parent with
      | ⟨s, none⟩ => s.ensureDirectory p
      | failed => failed
  | _ => s.ensureDirectory p
termination_by p.names.length
decreasing_by
  have := List.length_pos_iff.mpr ‹p.names ≠ []›
  simp only [Path.parent, List.length_dropLast]
  omega

/-- Writes a file after making the directories above it. -/
def writeWithParents (s : FileStore) (p : Path) (bytes : List UInt8) : Attempt :=
  match s.makeDirectories p.parent with
  | ⟨s, none⟩ =>
    match s.write p bytes with
    | .ok s => ⟨s, none⟩
    | .error f => ⟨s, some ⟨f, p⟩⟩
  | failed => failed

/-- The files below a location, by their locations. -/
def filesBelow (s : FileStore) (l : Location) : List Location :=
  (s.entries.filter fun x => l.isPrefixOf x.1 && !x.2.isDirectory).map (·.1)

/-! ## What setting an entry does -/

theorem lookup_filter_ne (l m : Location) (h : m ≠ l) (es : List (Location × Entry)) :
    (es.filter fun x => x.1 ≠ l).lookup m = es.lookup m := by
  induction es with
  | nil => rfl
  | cons x es ih =>
    obtain ⟨k, e⟩ := x
    by_cases hk : k = l
    · have hm : (m == k) = false := by simpa [hk] using h
      rw [List.filter_cons_of_neg (by simpa using hk), ih, List.lookup_cons, hm]
    · rw [List.filter_cons_of_pos (by simpa using hk), List.lookup_cons, List.lookup_cons, ih]

/-- Setting an entry sets that one and no other. -/
theorem find?_put (s : FileStore) (l m : Location) (e : Entry) (hl : l ≠ []) :
    (s.put l e).find? m = if m = l then some e else s.find? m := by
  cases m with
  | nil => simp [find?, Ne.symm hl]
  | cons n m =>
    by_cases h : n :: m = l
    · simp [find?, put, h]
    · have hb : (n :: m == l) = false := by simpa using h
      simp only [find?, put, List.lookup_cons, hb, if_neg h]
      exact lookup_filter_ne l (n :: m) h s.entries

end FileStore

end ManifestTree
